import Mathlib.Logic.Relation
import RustCodeMcp.Effect.Program

/-!
# Executions with several outcomes

A call need not have one outcome. It may fail where it could have succeeded, or find a world that
something else has changed in the meantime; `Outcomes` says what may come of it. Two readings of a
program go with that:

* `Executes R x s r t` — `x`, started in `s`, can end with `r` in `t`;
* `Visits R x s t` — `x`, started in `s`, can be in `t` before one of its calls or at its end.

`Visits` is the reading under which a program may be cut off: a crash leaves a visited state and
nothing else. Runs by a handler are the executions of its only outcomes (`executes_outcomes`).

An execution can be taken notes of (`Outcomes.noting`): what a statement needs to know of the calls
that were made, and of their answers, is kept beside the state, and no execution is lost by that
(`executes_noting`).

Three arguments are made once and for all here. What every call a program makes preserves holds in
all states it visits (`Only.visits`); if only its last call does not preserve it, it holds until the
program has ended (`Transaction.visits`); and a program that passes every error on is, when its
calls may fail, either the run in which none does, or cut off somewhere in that run
(`FailFast.executes`).
-/

namespace Effect

variable {ε Op α β σ : Type} {Ret : Op → Type}

/-- What may come of a call in a state: an answer, and the state it leaves. -/
abbrev Outcomes (ε : Type) {Op : Type} (Ret : Op → Type) (σ : Type) : Type :=
  (o : Op) → σ → Except ε (Ret o) → σ → Prop

namespace Handler

variable (h : Handler ε Ret σ)

/-- A handler's outcomes: one for each call. -/
def outcomes : Outcomes ε Ret σ :=
  fun o s r t ↦ h o s = (r, t)

/-- A handler whose calls may fail: they answer an error and change nothing. -/
def orFails : Outcomes ε Ret σ :=
  fun o s r t ↦ h o s = (r, t) ∨ (∃ e, r = .error e) ∧ t = s

/-- A handler under which the calls that `bad` picks fail. -/
def failing (bad : Op → Bool) (e : ε) : Handler ε Ret σ :=
  fun o s ↦ if bad o then (.error e, s) else h o s

end Handler

variable {x : Prog ε Op Ret α} {f : α → Prog ε Op Ret β} {h : Handler ε Ret σ} {s t : σ}
  {r : Except ε α} {o : Op}

/-- A program can end with an outcome, in a state. -/
def Executes (R : Outcomes ε Ret σ) : Prog ε Op Ret α → σ → Except ε α → σ → Prop
  | .ret a, s, r, t => r = .ok a ∧ t = s
  | .fail e, s, r, t => r = .error e ∧ t = s
  | .call o k, s, r, t => ∃ a u, R o s a u ∧ Executes R (k a) u r t

/-- A program can be in a state before one of its calls, or at its end. -/
def Visits (R : Outcomes ε Ret σ) : Prog ε Op Ret α → σ → σ → Prop
  | .ret _, s, t => t = s
  | .fail _, s, t => t = s
  | .call o k, s, t => t = s ∨ ∃ a u, R o s a u ∧ Visits R (k a) u t

/-- What holds before a call that may fail holds after it, if it does when the call succeeds. -/
theorem Handler.orFails.preserves (Inv : σ → Prop)
    {r : Except ε (Ret o)} (hstep : h.orFails o s r t) (hs : Inv s)
    (hok : h o s = (r, t) → Inv t) : Inv t := by
  rcases hstep with hstep | ⟨-, rfl⟩
  · exact hok hstep
  · exact hs

/-! ### Ends of programs -/

section Executes

variable {R : Outcomes ε Ret σ}

/-- A program that has ended ends with its value, where it is. -/
@[simp] theorem executes_ret {a : α} :
    Executes R (.ret a : Prog ε Op Ret α) s r t ↔ r = .ok a ∧ t = s := Iff.rfl

@[simp] theorem executes_pure {a : α} :
    Executes R (pure a : Prog ε Op Ret α) s r t ↔ r = .ok a ∧ t = s := Iff.rfl

@[simp] theorem executes_fail {e : ε} :
    Executes R (.fail e : Prog ε Op Ret α) s r t ↔ r = .error e ∧ t = s := Iff.rfl

/-- **A single call ends as its outcomes say.** -/
@[simp] theorem executes_perform {r : Except ε (Ret o)} :
    Executes R (.perform o : Prog ε Op Ret (Ret o)) s r t ↔ R o s r t := by
  simp only [Prog.perform, Executes]
  constructor
  · rintro ⟨a | a, u, hr, rfl, rfl⟩ <;> exact hr
  · intro h
    exact ⟨r, t, h, by cases r <;> exact ⟨rfl, rfl⟩⟩

/-- **Ends of a composition**: an error of the first program, or an end of the second after it. -/
theorem executes_bind {r : Except ε β} : Executes R (x >>= f) s r t ↔
      (∃ a u, Executes R x s (.ok a) u ∧ Executes R (f a) u r t) ∨
        ∃ e, Executes R x s (.error e) t ∧ r = .error e := by
  induction x generalizing s with
  | ret a => simp
  | fail e => simp [and_comm]
  | call o k ih =>
    simp only [Prog.call_bind, Executes, ih]
    constructor
    · rintro ⟨a, u, hcall, ⟨b, v, hx, hf⟩ | ⟨e, hx, he⟩⟩
      · exact Or.inl ⟨b, v, ⟨a, u, hcall, hx⟩, hf⟩
      · exact Or.inr ⟨e, ⟨a, u, hcall, hx⟩, he⟩
    · rintro (⟨b, v, ⟨a, u, hcall, hx⟩, hf⟩ | ⟨e, ⟨a, u, hcall, hx⟩, he⟩)
      · exact ⟨a, u, hcall, Or.inl ⟨b, v, hx, hf⟩⟩
      · exact ⟨a, u, hcall, Or.inr ⟨e, hx, he⟩⟩

/-- A composition that ends well got through its first program. -/
theorem executes_bind_ok {b : β} : Executes R (x >>= f) s (.ok b) t ↔
      ∃ a u, Executes R x s (.ok a) u ∧ Executes R (f a) u (.ok b) t := by
  simp [executes_bind]

/-- Two loops in turn. -/
theorem executes_forEach_append {f : β → Prog ε Op Ret Unit} {bs bs' : List β}
    {u : Unit} (h : Executes R (Prog.forEach f (bs ++ bs')) s (.ok u) t) :
    ∃ s₁, Executes R (Prog.forEach f bs) s (.ok ()) s₁ ∧
      Executes R (Prog.forEach f bs') s₁ (.ok u) t := by
  induction bs generalizing s with
  | nil => exact ⟨s, ⟨rfl, rfl⟩, h⟩
  | cons b rest ih =>
    rw [List.cons_append, Prog.forEach_cons] at h
    obtain ⟨_, s₁, hhead, hrest⟩ := executes_bind_ok.1 h
    obtain ⟨s₂, hbs, hbs'⟩ := ih hrest
    exact ⟨s₂, executes_bind_ok.2 ⟨(), s₁, hhead, hbs⟩, hbs'⟩

/-- An attempted program ends well, with the outcome for its value. -/
@[simp] theorem executes_attempt {r : Except ε (Except ε α)} :
    Executes R x.attempt s r t ↔ ∃ a, r = .ok a ∧ Executes R x s a t := by
  induction x generalizing s with
  | ret a => simp [Prog.attempt, Executes]
  | fail e => simp [Prog.attempt, Executes]
  | call o k ih =>
    simp only [Prog.attempt, Executes, ih]
    constructor
    · rintro ⟨a, u, hcall, b, hr, hx⟩
      exact ⟨b, hr, a, u, hcall, hx⟩
    · rintro ⟨b, hr, a, u, hcall, hx⟩
      exact ⟨a, u, hcall, b, hr, hx⟩

@[simp] theorem executes_mapError {f : ε → ε} :
    Executes R (x.mapError f) s r t ↔ ∃ a, r = a.mapError f ∧ Executes R x s a t := by
  induction x generalizing s with
  | ret a => simp [Prog.mapError, Executes, Except.mapError]
  | fail e => simp [Prog.mapError, Executes, Except.mapError]
  | call o k ih =>
    simp only [Prog.mapError, Executes, ih]
    constructor
    · rintro ⟨a, u, hcall, b, hr, hx⟩
      exact ⟨b, hr, a, u, hcall, hx⟩
    · rintro ⟨b, hr, a, u, hcall, hx⟩
      exact ⟨a, u, hcall, b, hr, hx⟩

/-- **The only execution by a handler is its run.** -/
theorem executes_outcomes : Executes h.outcomes x s r t ↔ run h x s = (r, t) := by
  induction x generalizing s with
  | ret a => simp [Executes, eq_comm]
  | fail e => simp [Executes, eq_comm]
  | call o k ih =>
    simp only [Executes, ih, run, Handler.outcomes]
    constructor
    · rintro ⟨a, u, hcall, hrun⟩
      rwa [hcall]
    · intro hrun
      exact ⟨_, _, rfl, hrun⟩

/-- A run is an execution, where its answers are among the outcomes. -/
theorem Executes.of_run (hR : ∀ o s, R o s (h o s).1 (h o s).2) (hrun : run h x s = (r, t)) :
    Executes R x s r t := by
  induction x generalizing s with
  | ret a => exact ⟨(congrArg Prod.fst hrun).symm, (congrArg Prod.snd hrun).symm⟩
  | fail e => exact ⟨(congrArg Prod.fst hrun).symm, (congrArg Prod.snd hrun).symm⟩
  | call o k ih => exact ⟨_, _, hR o s, ih _ hrun⟩

/-- A run is one of the executions in which calls may fail. -/
theorem executes_of_run (hrun : run h x s = (r, t)) : Executes h.orFails x s r t :=
  .of_run (fun _ _ ↦ Or.inl rfl) hrun

/-- A run in which chosen calls fail is one in which calls may fail. -/
theorem executes_failing {bad : Op → Bool} {e : ε} (hrun : run (h.failing bad e) x s = (r, t)) :
    Executes h.orFails x s r t := by
  refine .of_run (fun o s ↦ ?_) hrun
  unfold Handler.failing
  split
  · exact Or.inr ⟨⟨e, rfl⟩, rfl⟩
  · exact Or.inl rfl

end Executes

/-! ### Notes -/

/-- Outcomes with notes: what is noted of a call may depend on its answer. -/
def Outcomes.noting {γ : Type} (R : Outcomes ε Ret σ)
    (note : (o : Op) → Except ε (Ret o) → γ → γ) : Outcomes ε Ret (σ × γ) :=
  fun o s r t ↦ R o s.1 r t.1 ∧ t.2 = note o r s.2

section Noting

variable {γ : Type} {R : Outcomes ε Ret σ} {note : (o : Op) → Except ε (Ret o) → γ → γ}

/-- Notes are of executions. -/
theorem Executes.of_noting {s t : σ × γ}
    (h : Executes (R.noting note) x s r t) : Executes R x s.1 r t.1 := by
  induction x generalizing s with
  | ret a => exact ⟨h.1, congrArg Prod.fst h.2⟩
  | fail e => exact ⟨h.1, congrArg Prod.fst h.2⟩
  | call o k ih =>
    obtain ⟨a, u, ⟨hcall, -⟩, h⟩ := h
    exact ⟨a, u.1, hcall, ih a h⟩

/-- **Every execution can be taken notes of.** -/
theorem executes_noting {notes : γ} :
    Executes R x s r t ↔ ∃ notes', Executes (R.noting note) x (s, notes) r (t, notes') := by
  refine ⟨fun h ↦ ?_, fun ⟨_, h⟩ ↦ h.of_noting⟩
  induction x generalizing s notes with
  | ret a => exact ⟨notes, h.1, congrArg (·, notes) h.2⟩
  | fail e => exact ⟨notes, h.1, congrArg (·, notes) h.2⟩
  | call o k ih =>
    obtain ⟨a, u, hcall, h⟩ := h
    obtain ⟨notes', h⟩ := @ih a u (note o a notes) h
    exact ⟨notes', a, (u, note o a notes), ⟨hcall, rfl⟩, h⟩

end Noting

/-! ### Visited states -/

section Visits

variable {R : Outcomes ε Ret σ}

@[simp] theorem visits_ret {a : α} : Visits R (.ret a : Prog ε Op Ret α) s t ↔ t = s := Iff.rfl

@[simp] theorem visits_pure {a : α} : Visits R (pure a : Prog ε Op Ret α) s t ↔ t = s := Iff.rfl

@[simp] theorem visits_fail {e : ε} : Visits R (.fail e : Prog ε Op Ret α) s t ↔ t = s := Iff.rfl

/-- Every program visits the state it starts in. -/
theorem visits_refl (x : Prog ε Op Ret α) (s : σ) : Visits R x s s := by
  cases x with
  | ret a => rfl
  | fail e => rfl
  | call o k => exact Or.inl rfl

/-- The state a program ends in is one it visits. -/
theorem Executes.visits (h : Executes R x s r t) : Visits R x s t := by
  induction x generalizing s with
  | ret a => exact h.2
  | fail e => exact h.2
  | call o k ih =>
    obtain ⟨a, u, hcall, h⟩ := h
    exact Or.inr ⟨a, u, hcall, ih _ h⟩

/-- A call visits the state before it and those it may leave. -/
@[simp] theorem visits_perform :
    Visits R (.perform o : Prog ε Op Ret (Ret o)) s t ↔ t = s ∨ ∃ a, R o s a t := by
  simp only [Prog.perform, Visits]
  refine or_congr Iff.rfl ⟨?_, ?_⟩
  · rintro ⟨a | a, u, hr, rfl⟩ <;> exact ⟨_, hr⟩
  · rintro ⟨a | a, hr⟩ <;> exact ⟨_, t, hr, rfl⟩

/-- **Visited states of a composition**: those of the first program, then, if it ended well, those
of the second. -/
theorem visits_bind : Visits R (x >>= f) s t ↔
      Visits R x s t ∨ ∃ a u, Executes R x s (.ok a) u ∧ Visits R (f a) u t := by
  induction x generalizing s with
  | ret a =>
    simp only [Prog.ret_bind, visits_ret, executes_ret, Except.ok.injEq]
    constructor
    · exact fun ht ↦ Or.inr ⟨a, s, ⟨rfl, rfl⟩, ht⟩
    · rintro (rfl | ⟨_, _, ⟨rfl, rfl⟩, ht⟩)
      · exact visits_refl _ _
      · exact ht
  | fail e => simp
  | call o k ih =>
    simp only [Prog.call_bind, Visits, ih, Executes]
    constructor
    · rintro (rfl | ⟨a, u, hcall, hx | ⟨b, v, hx, hf⟩⟩)
      · exact Or.inl (Or.inl rfl)
      · exact Or.inl (Or.inr ⟨a, u, hcall, hx⟩)
      · exact Or.inr ⟨b, v, ⟨a, u, hcall, hx⟩, hf⟩
    · rintro ((rfl | ⟨a, u, hcall, hx⟩) | ⟨b, v, ⟨a, u, hcall, hx⟩, hf⟩)
      · exact Or.inl rfl
      · exact Or.inr ⟨a, u, hcall, Or.inl hx⟩
      · exact Or.inr ⟨a, u, hcall, Or.inr ⟨b, v, hx, hf⟩⟩

/-- Catching an error changes no state. -/
@[simp] theorem visits_attempt : Visits R x.attempt s t ↔ Visits R x s t := by
  induction x generalizing s with
  | ret a => rfl
  | fail e => rfl
  | call o k ih => simp only [Prog.attempt, Visits, ih]

@[simp] theorem visits_mapError {f : ε → ε} : Visits R (x.mapError f) s t ↔ Visits R x s t := by
  induction x generalizing s with
  | ret a => rfl
  | fail e => rfl
  | call o k ih => simp only [Prog.mapError, Visits, ih]

/-- With more outcomes a program visits more states. -/
theorem Visits.mono {R' : Outcomes ε Ret σ} (hR : ∀ o s r t, R o s r t → R' o s r t)
    (h : Visits R x s t) : Visits R' x s t := by
  induction x generalizing s with
  | ret a => exact h
  | fail e => exact h
  | call o k ih =>
    rcases h with rfl | ⟨a, u, hcall, h⟩
    · exact visits_refl _ _
    · exact Or.inr ⟨a, u, hR _ _ _ _ hcall, ih _ h⟩

/-- Visited states of a composition, by a handler. -/
theorem visits_bind_outcomes (hvisits : Visits h.outcomes (x >>= f) s t) :
    Visits h.outcomes x s t ∨ ∃ a u, run h x s = (.ok a, u) ∧ Visits h.outcomes (f a) u t := by
  rcases visits_bind.1 hvisits with hx | ⟨a, u, hx, hf⟩
  · exact Or.inl hx
  · exact Or.inr ⟨a, u, executes_outcomes.1 hx, hf⟩

/-- The states a run visits are among those visited when calls may fail. -/
theorem Visits.orFails (hvisits : Visits h.outcomes x s t) : Visits h.orFails x s t :=
  hvisits.mono fun _ _ _ _ ↦ Or.inl

end Visits

/-! ### What a program's calls preserve -/

/-- All calls of a program, whatever they answer, are among those of `C`. -/
def Only (C : Op → Prop) : Prog ε Op Ret α → Prop
  | .ret _ | .fail _ => True
  | .call o k => C o ∧ ∀ r, Only C (k r)

section Only

variable {C : Op → Prop} {R : Outcomes ε Ret σ}

@[simp] theorem only_ret {a : α} : Only C (.ret a : Prog ε Op Ret α) := trivial

@[simp] theorem only_pure {a : α} : Only C (pure a : Prog ε Op Ret α) := trivial

@[simp] theorem only_fail {e : ε} : Only C (.fail e : Prog ε Op Ret α) := trivial

@[simp] theorem only_perform : Only C (.perform o : Prog ε Op Ret (Ret o)) ↔ C o := by
  refine ⟨fun h ↦ h.1, fun h ↦ ⟨h, fun r ↦ ?_⟩⟩
  cases r <;> trivial

/-- One program after another. -/
theorem Only.bind (hx : Only C x) (hf : ∀ a, Only C (f a)) : Only C (x >>= f) := by
  induction x with
  | ret a => exact hf a
  | fail e => trivial
  | call o k ih => exact ⟨hx.1, fun r ↦ ih r (hx.2 r)⟩

@[simp] theorem only_attempt : Only C x.attempt ↔ Only C x := by
  induction x with
  | ret a => rfl
  | fail e => rfl
  | call o k ih => simp only [Prog.attempt, Only, ih]

@[simp] theorem only_mapError {f : ε → ε} : Only C (x.mapError f) ↔ Only C x := by
  induction x with
  | ret a => rfl
  | fail e => rfl
  | call o k ih => simp only [Prog.mapError, Only, ih]

/-- More calls may be allowed. -/
theorem Only.mono {C' : Op → Prop} (hx : Only C x) (hC : ∀ o, C o → C' o) : Only C' x := by
  induction x with
  | ret a => trivial
  | fail e => trivial
  | call o k ih => exact ⟨hC o hx.1, fun r ↦ ih r (hx.2 r)⟩

/-- Both conditions at once. -/
theorem Only.and {C' : Op → Prop} (hx : Only C x) (hx' : Only C' x) :
    Only (fun o ↦ C o ∧ C' o) x := by
  induction x with
  | ret a => trivial
  | fail e => trivial
  | call o k ih => exact ⟨⟨hx.1, hx'.1⟩, fun r ↦ ih r (hx.2 r) (hx'.2 r)⟩

/-- A loop over a list. -/
theorem Only.forEach {f : β → Prog ε Op Ret Unit} {bs : List β} (hf : ∀ b ∈ bs, Only C (f b)) :
    Only C (Prog.forEach f bs) := by
  induction bs with
  | nil => trivial
  | cons b rest ih =>
    exact (hf b List.mem_cons_self).bind fun _ ↦ ih fun b hb ↦ hf b (List.mem_cons_of_mem _ hb)

/-- A loop that carries a value along. -/
theorem Only.foldlM {f : α → β → Prog ε Op Ret α} {bs : List β} {a : α}
    (hf : ∀ a, ∀ b ∈ bs, Only C (f a b)) : Only C (bs.foldlM f a) := by
  induction bs generalizing a with
  | nil => trivial
  | cons b rest ih =>
    rw [List.foldlM_cons]
    exact (hf a b List.mem_cons_self).bind fun _ ↦ ih fun a b hb ↦
      hf a b (List.mem_cons_of_mem _ hb)

/-- **What every call of a program preserves holds in all states it visits.** -/
theorem Only.visits (hx : Only C x) (Inv : σ → Prop)
    (hpreserves : ∀ o s r t, C o → R o s r t → Inv s → Inv t) (hs : Inv s)
    (h : Visits R x s t) : Inv t := by
  induction x generalizing s with
  | ret a => exact h ▸ hs
  | fail e => exact h ▸ hs
  | call o k ih =>
    rcases h with rfl | ⟨a, u, hcall, h⟩
    · exact hs
    · exact ih a (hx.2 a) (hpreserves _ _ _ _ hx.1 hcall hs) h

end Only

/-! ### Runs of calls -/

/-- One state comes of another by calls among those of `C`. -/
def Steps (R : Outcomes ε Ret σ) (C : Op → Prop) : σ → σ → Prop :=
  Relation.ReflTransGen fun s t ↦ ∃ (o : Op) (r : Except ε (Ret o)), C o ∧ R o s r t

section Steps

variable {C : Op → Prop} {R : Outcomes ε Ret σ} {s t u : σ}

/-- The states a program visits come of its calls. -/
theorem Only.steps (hx : Only C x) (h : Visits R x s t) : Steps R C s t :=
  hx.visits (Steps R C s) (fun o _ r _ ho hstep hs ↦ hs.tail ⟨o, r, ho, hstep⟩) .refl h

/-- One run of calls after another. -/
theorem Steps.trans (h : Steps R C s t) (h' : Steps R C t u) : Steps R C s u :=
  Relation.ReflTransGen.trans h h'

/-- More calls may be among them. -/
theorem Steps.mono {C' : Op → Prop} (h : Steps R C s t) (hC : ∀ o, C o → C' o) :
    Steps R C' s t :=
  Relation.ReflTransGen.mono (fun _ _ ⟨o, r, ho, hstep⟩ ↦ ⟨o, r, hC o ho, hstep⟩) _ _ h

/-- What every call preserves holds at the end of a run of them. -/
theorem Steps.preserves (h : Steps R C s t) (Inv : σ → Prop)
    (hpreserves : ∀ o s r t, C o → R o s r t → Inv s → Inv t) (hs : Inv s) : Inv t := by
  induction h with
  | refl => exact hs
  | tail _ hstep ih =>
    obtain ⟨o, r, ho, hstep⟩ := hstep
    exact hpreserves o _ r _ ho hstep ih

end Steps

/-! ### Programs that fail only if a call does -/

/-- As long as its calls succeed the program does not fail. -/
def Faultless : Prog ε Op Ret α → Prop
  | .ret _ => True
  | .fail _ => False
  | .call _ k => ∀ a, Faultless (k (.ok a))

section Faultless

variable {C : Op → Prop} {R : Outcomes ε Ret σ}

@[simp] theorem faultless_pure {a : α} : Faultless (pure a : Prog ε Op Ret α) := trivial

@[simp] theorem faultless_perform : Faultless (.perform o : Prog ε Op Ret (Ret o)) :=
  fun _ ↦ trivial

/-- One program after another. -/
theorem Faultless.bind (hx : Faultless x) (hf : ∀ a, Faultless (f a)) : Faultless (x >>= f) := by
  induction x with
  | ret a => exact hf a
  | fail e => exact hx.elim
  | call o k ih => exact fun a ↦ ih _ (hx a)

/-- Rewording an error. -/
theorem Faultless.mapError {f : ε → ε} (hx : Faultless x) : Faultless (x.mapError f) := by
  induction x with
  | ret a => trivial
  | fail e => exact hx.elim
  | call o k ih => exact fun a ↦ ih _ (hx a)

/-- A loop over a list. -/
theorem Faultless.forEach {f : β → Prog ε Op Ret Unit} {bs : List β} (hf : ∀ b, Faultless (f b)) :
    Faultless (Prog.forEach f bs) := by
  induction bs with
  | nil => trivial
  | cons b rest ih => exact (hf b).bind fun _ ↦ ih

/-- **Such a program ends well where none of its calls fails.** -/
theorem Faultless.ends (hx : Faultless x) (hC : Only C x) (Inv : σ → Prop)
    (hsucceeds : ∀ o s e t, C o → Inv s → ¬ R o s (.error e) t)
    (hpreserves : ∀ o s r t, C o → R o s r t → Inv s → Inv t)
    (hs : Inv s) (h : Executes R x s r t) : ∃ a, r = .ok a := by
  induction x generalizing s with
  | ret a => exact ⟨a, h.1⟩
  | fail e => exact hx.elim
  | call o k ih =>
    obtain ⟨a, u, hcall, h⟩ := h
    rcases a with e | a
    · exact absurd hcall (hsucceeds _ _ _ _ hC.1 hs)
    · exact ih _ (hx a) (hC.2 _) (hpreserves _ _ _ _ hC.1 hcall hs) h

end Faultless

/-! ### The states in which calls are made -/

/-- In every execution of a program each of its calls is made in a state that `P` allows. -/
def Guarded (R : Outcomes ε Ret σ) (P : Op → σ → Prop) : Prog ε Op Ret α → σ → Prop
  | .ret _, _ | .fail _, _ => True
  | .call o k, s => P o s ∧ ∀ a u, R o s a u → Guarded R P (k a) u

section Guarded

variable {R : Outcomes ε Ret σ} {P : Op → σ → Prop}

/-- A call is made in the state the program is in. -/
@[simp] theorem guarded_perform {s : σ} :
    Guarded R P (.perform o : Prog ε Op Ret (Ret o)) s ↔ P o s := by
  refine ⟨fun h ↦ h.1, fun h ↦ ⟨h, fun a u _ ↦ ?_⟩⟩
  cases a <;> trivial

/-- One program after another, from whatever state the first one ends in. -/
theorem Guarded.bind (hx : Guarded R P x s)
    (hf : ∀ a u, Executes R x s (.ok a) u → Guarded R P (f a) u) : Guarded R P (x >>= f) s := by
  induction x generalizing s with
  | ret a => exact hf a s ⟨rfl, rfl⟩
  | fail e => trivial
  | call o k ih =>
    exact ⟨hx.1, fun a u hcall ↦ ih a (hx.2 a u hcall) fun b v hexec ↦
      hf b v ⟨a, u, hcall, hexec⟩⟩

@[simp] theorem guarded_attempt {s : σ} : Guarded R P x.attempt s ↔ Guarded R P x s := by
  induction x generalizing s with
  | ret a => rfl
  | fail e => rfl
  | call o k ih => simp only [Prog.attempt, Guarded, ih]

@[simp] theorem guarded_mapError {f : ε → ε} {s : σ} :
    Guarded R P (x.mapError f) s ↔ Guarded R P x s := by
  induction x generalizing s with
  | ret a => rfl
  | fail e => rfl
  | call o k ih => simp only [Prog.mapError, Guarded, ih]

/-- Calls of a kind that keeps the states allowed for them. -/
theorem Only.guarded {C : Op → Prop} (hx : Only C x) (Inv : σ → Prop)
    (hallows : ∀ o s, C o → Inv s → P o s)
    (hpreserves : ∀ o s r t, C o → R o s r t → Inv s → Inv t) {s : σ} (hs : Inv s) :
    Guarded R P x s := by
  induction x generalizing s with
  | ret a => trivial
  | fail e => trivial
  | call o k ih =>
    exact ⟨hallows o s hx.1 hs, fun a u hcall ↦
      ih a (hx.2 a) (hpreserves _ _ _ _ hx.1 hcall hs)⟩

/-- **What is preserved by calls in the states allowed for them holds in all states a program
visits.** -/
theorem Guarded.visits (hx : Guarded R P x s) (Inv : σ → Prop)
    (hpreserves : ∀ o s r t, P o s → R o s r t → Inv s → Inv t) (hs : Inv s)
    (h : Visits R x s t) : Inv t := by
  induction x generalizing s with
  | ret a => exact h ▸ hs
  | fail e => exact h ▸ hs
  | call o k ih =>
    rcases h with rfl | ⟨a, u, hcall, h⟩
    · exact hs
    · exact ih a (hx.2 a u hcall) (hpreserves _ _ _ _ hx.1 hcall hs) h

end Guarded

/-! ### Programs that take effect with their last call -/

/-- A program whose calls are among those of `C`, up to one that ends it: well if the call succeeds,
with an error if it does not. -/
def Transaction (C : Op → Prop) : Prog ε Op Ret α → Prop
  | .ret _ | .fail _ => True
  | .call o k => (C o ∧ ∀ r, Transaction C (k r)) ∨
      (∀ a, ∃ b, k (.ok a) = .ret b) ∧ ∀ e, ∃ e', k (.error e) = .fail e'

section Transaction

variable {C : Op → Prop} {R : Outcomes ε Ret σ}

@[simp] theorem transaction_perform : Transaction C (.perform o : Prog ε Op Ret (Ret o)) :=
  Or.inr ⟨fun a ↦ ⟨a, rfl⟩, fun e ↦ ⟨e, rfl⟩⟩

/-- Calls that have no effect may come before. -/
theorem Only.bind_transaction (hx : Only C x)
    (hf : ∀ a, Transaction C (f a)) : Transaction C (x >>= f) := by
  induction x with
  | ret a => exact hf a
  | fail e => trivial
  | call o k ih => exact Or.inl ⟨hx.1, fun r ↦ ih r (hx.2 r)⟩

/-- A value may be computed at the end. -/
theorem Transaction.bind_pure (hx : Transaction C x) (f : α → β) :
    Transaction C (x >>= fun a ↦ (pure (f a) : Prog ε Op Ret β)) := by
  induction x with
  | ret a => trivial
  | fail e => trivial
  | call o k ih =>
    rcases hx with ⟨ho, hk⟩ | ⟨hok, herror⟩
    · exact Or.inl ⟨ho, fun r ↦ ih r (hk r)⟩
    · refine Or.inr ⟨fun a ↦ ?_, fun e ↦ ?_⟩
      · obtain ⟨b, hb⟩ := hok a
        exact ⟨f b, by simp only [hb]; rfl⟩
      · obtain ⟨e', he⟩ := herror e
        exact ⟨e', by simp only [he]; rfl⟩

/-- An error may be reworded. -/
theorem Transaction.mapError {f : ε → ε} (hx : Transaction C x) : Transaction C (x.mapError f) := by
  induction x with
  | ret a => trivial
  | fail e => trivial
  | call o k ih =>
    rcases hx with ⟨ho, hk⟩ | ⟨hok, herror⟩
    · exact Or.inl ⟨ho, fun r ↦ ih r (hk r)⟩
    · refine Or.inr ⟨fun a ↦ ?_, fun e ↦ ?_⟩
      · obtain ⟨b, hb⟩ := hok a
        exact ⟨b, by simp only [hb]; rfl⟩
      · obtain ⟨e', he⟩ := herror e
        exact ⟨f e', by simp only [he]; rfl⟩

/-- **A transaction shows nothing before its end**: in every state it visits what its calls preserve
still holds, or it has ended well there. -/
theorem Transaction.visits (hx : Transaction C x) (Inv : σ → Prop)
    (hpreserves : ∀ o s r t, C o → R o s r t → Inv s → Inv t)
    (herrors : ∀ o s e t, R o s (.error e) t → Inv s → Inv t) (hs : Inv s)
    (h : Visits R x s t) : Inv t ∨ ∃ a, Executes R x s (.ok a) t := by
  induction x generalizing s with
  | ret a => exact Or.inl (h ▸ hs)
  | fail e => exact Or.inl (h ▸ hs)
  | call o k ih =>
    rcases h with rfl | ⟨a, u, hcall, h⟩
    · exact Or.inl hs
    rcases hx with ⟨ho, hk⟩ | ⟨hok, herror⟩
    · rcases ih a (hk a) (hpreserves _ _ _ _ ho hcall hs) h with ht | ⟨b, hexec⟩
      · exact Or.inl ht
      · exact Or.inr ⟨b, a, u, hcall, hexec⟩
    · rcases a with e | a
      · obtain ⟨e', he⟩ := herror e
        rw [he] at h
        exact Or.inl (h ▸ herrors _ _ _ _ hcall hs)
      · obtain ⟨b, hb⟩ := hok a
        rw [hb] at h
        exact Or.inr ⟨b, .ok a, u, hcall, by rw [hb]; exact ⟨rfl, h⟩⟩

end Transaction

/-! ### Programs that pass errors on -/

/-- A program that ends with an error as soon as a call does. -/
def FailFast : Prog ε Op Ret α → Prop
  | .ret _ | .fail _ => True
  | .call _ k => (∀ e, ∃ e', k (.error e) = .fail e') ∧ ∀ a, FailFast (k (.ok a))

section FailFast

@[simp] theorem failFast_ret {a : α} : FailFast (.ret a : Prog ε Op Ret α) := trivial

@[simp] theorem failFast_pure {a : α} : FailFast (pure a : Prog ε Op Ret α) := trivial

@[simp] theorem failFast_fail {e : ε} : FailFast (.fail e : Prog ε Op Ret α) := trivial

@[simp] theorem failFast_perform : FailFast (.perform o : Prog ε Op Ret (Ret o)) :=
  ⟨fun e ↦ ⟨e, rfl⟩, fun _ ↦ trivial⟩

/-- One program after another. -/
theorem FailFast.bind (hx : FailFast x) (hf : ∀ a, FailFast (f a)) : FailFast (x >>= f) := by
  induction x with
  | ret a => exact hf a
  | fail e => trivial
  | call o k ih =>
    refine ⟨fun e ↦ ?_, fun a ↦ ih _ (hx.2 a)⟩
    obtain ⟨e', he⟩ := hx.1 e
    exact ⟨e', by simp only [he]; rfl⟩

/-- Rewording an error passes it on all the same. -/
theorem FailFast.mapError {f : ε → ε} (hx : FailFast x) : FailFast (x.mapError f) := by
  induction x with
  | ret a => trivial
  | fail e => trivial
  | call o k ih =>
    refine ⟨fun e ↦ ?_, fun a ↦ ih _ (hx.2 a)⟩
    obtain ⟨e', he⟩ := hx.1 e
    exact ⟨f e', by simp only [he]; rfl⟩

/-- A loop over a list. -/
theorem FailFast.forEach {f : β → Prog ε Op Ret Unit} {bs : List β} (hf : ∀ b, FailFast (f b)) :
    FailFast (Prog.forEach f bs) := by
  induction bs with
  | nil => trivial
  | cons b rest ih => exact (hf b).bind fun _ ↦ ih

/-- A loop that carries a value along. -/
theorem FailFast.foldlM {f : α → β → Prog ε Op Ret α} {bs : List β} {a : α}
    (hf : ∀ a b, FailFast (f a b)) : FailFast (bs.foldlM f a) := by
  induction bs generalizing a with
  | nil => trivial
  | cons b rest ih =>
    rw [List.foldlM_cons]
    exact (hf a b).bind fun _ ↦ ih

/-- **Errors passed on cut a run off**: when its calls may fail, such a program either ends as if
none did, or with an error in a state of that run. -/
theorem FailFast.executes (hx : FailFast x) (hexec : Executes h.orFails x s r t) :
    run h x s = (r, t) ∨ (∃ e, r = .error e) ∧ Visits h.outcomes x s t := by
  induction x generalizing s with
  | ret a => exact Or.inl (by rw [hexec.1, hexec.2]; rfl)
  | fail e => exact Or.inl (by rw [hexec.1, hexec.2]; rfl)
  | call o k ih =>
    obtain ⟨a, u, hcall | ⟨⟨e, rfl⟩, rfl⟩, hrest⟩ := hexec
    · rcases a with e | a
      · obtain ⟨e', he⟩ := hx.1 e
        rw [he] at hrest
        refine Or.inl ?_
        rw [run, hcall, he, run_fail, hrest.1, hrest.2]
      · rcases ih _ (hx.2 a) hrest with hrun | ⟨herror, hvisits⟩
        · exact Or.inl (by rw [run, hcall, hrun])
        · exact Or.inr ⟨herror, Or.inr ⟨_, _, hcall, hvisits⟩⟩
    · obtain ⟨e', he⟩ := hx.1 e
      rw [he] at hrest
      exact Or.inr ⟨⟨e', hrest.1⟩, Or.inl hrest.2⟩

/-- Such a program ends well only if no call failed. -/
theorem FailFast.run_of_ok {a : α} (hx : FailFast x) (hexec : Executes h.orFails x s (.ok a) t) :
    run h x s = (.ok a, t) := by
  rcases hx.executes hexec with hrun | ⟨⟨e, he⟩, -⟩
  · exact hrun
  · cases he

/-- When its calls may fail, such a program visits no other states than its run does. -/
theorem FailFast.visits (hx : FailFast x) (hvisits : Visits h.orFails x s t) :
    Visits h.outcomes x s t := by
  induction x generalizing s with
  | ret a => exact hvisits
  | fail e => exact hvisits
  | call o k ih =>
    rcases hvisits with rfl | ⟨a, u, hcall | ⟨⟨e, rfl⟩, rfl⟩, hrest⟩
    · exact Or.inl rfl
    · rcases a with e | a
      · obtain ⟨e', he⟩ := hx.1 e
        rw [he] at hrest
        exact Or.inr ⟨_, _, hcall, by rw [he]; exact hrest⟩
      · exact Or.inr ⟨_, _, hcall, ih _ (hx.2 a) hrest⟩
    · obtain ⟨e', he⟩ := hx.1 e
      rw [he] at hrest
      exact Or.inl hrest

end FailFast

end Effect
