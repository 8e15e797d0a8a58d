import RustCodeMcp.Effect.Execution

/-!
# Pre- and postconditions

A triple says of a program what holds when it ends, well or with an error, and that each of its
calls is made in a state in which it is allowed. The rules follow the program: a call, one program
after another, an error that is caught, a loop.

What the calls do is a parameter, so one proof about a program serves for calls that never fail and
for calls that may; and as the states in which calls are made are in it, so does it for a program
that is cut off, or whose calls others look at one by one (`Guarded.visits`).

Three places are spoken of, and each has its own condition: the states in which calls are made,
those in which the program ends well, and those in which it ends with an error. The middle one also
names the value. **An error is a postcondition like any other**, so what a program leaves behind
when it fails half-way is proved with the same rules and in the same induction.
-/

namespace Effect

variable {ε Op α β σ : Type} {Ret : Op → Type}

/-- From states that meet `Pre`, the calls are made where `P` allows them, and the ends meet `Post`
and `Err`. -/
structure Triple (R : Outcomes ε Ret σ) (P : Op → σ → Prop) (Pre : σ → Prop) (x : Prog ε Op Ret α)
    (Post : α → σ → Prop) (Err : σ → Prop) : Prop where
  guarded : ∀ s, Pre s → Guarded R P x s
  post : ∀ s a t, Pre s → Executes R x s (.ok a) t → Post a t
  err : ∀ s e t, Pre s → Executes R x s (.error e) t → Err t

namespace Triple

variable {R : Outcomes ε Ret σ} {P : Op → σ → Prop} {Pre Pre' Err Err' : σ → Prop}
    {x : Prog ε Op Ret α}
  {f : α → Prog ε Op Ret β} {M M' : α → σ → Prop} {Post : β → σ → Prop}

theorem ret {a : α} (h : ∀ s, Pre s → M a s) : Triple R P Pre (.ret a) M Err where
  guarded _ _ := trivial
  post s b t hs hexec := by
    obtain ⟨hb, rfl⟩ := hexec
    obtain rfl := Except.ok.inj hb
    exact h t hs
  err _ _ _ _ hexec := nomatch hexec.1

theorem fail {e : ε} (h : ∀ s, Pre s → Err s) : Triple R P Pre (.fail e) M Err where
  guarded _ _ := trivial
  post _ _ _ _ hexec := nomatch hexec.1
  err s _ t hs hexec := by
    rw [hexec.2]
    exact h s hs

/-- A call that is allowed, with what may come of it. -/
theorem perform {o : Op} {M : Ret o → σ → Prop} (hallowed : ∀ s, Pre s → P o s)
    (hok : ∀ s a t, Pre s → R o s (.ok a) t → M a t)
    (herr : ∀ s e t, Pre s → R o s (.error e) t → Err t) : Triple R P Pre (.perform o) M Err where
  guarded s hs := guarded_perform.2 (hallowed s hs)
  post s a t hs hexec := hok s a t hs (executes_perform.1 hexec)
  err s e t hs hexec := herr s e t hs (executes_perform.1 hexec)

/-- **One program after another.** -/
theorem bind (hx : Triple R P Pre x M Err) (hf : ∀ a, Triple R P (M a) (f a) Post Err) :
    Triple R P Pre (x >>= f) Post Err where
  guarded s hs := (hx.guarded s hs).bind fun a t hexec ↦ (hf a).guarded t (hx.post s a t hs hexec)
  post s b u hs hexec := by
    obtain ⟨a, t, hfirst, hsecond⟩ := executes_bind_ok.1 hexec
    exact (hf a).post t b u (hx.post s a t hs hfirst) hsecond
  err s e u hs hexec := by
    rcases executes_bind.1 hexec with ⟨a, t, hfirst, hsecond⟩ | ⟨e', hfirst, -⟩
    · exact (hf a).err t e u (hx.post s a t hs hfirst) hsecond
    · exact hx.err s e' u hs hfirst

/-- An error that is caught becomes a value. -/
theorem attempt (hx : Triple R P Pre x M Err') {Post : Except ε α → σ → Prop}
    (hok : ∀ a s, M a s → Post (.ok a) s) (herr : ∀ e s, Err' s → Post (.error e) s) :
    Triple R P Pre x.attempt Post Err where
  guarded s hs := guarded_attempt.2 (hx.guarded s hs)
  post s r t hs hexec := by
    obtain ⟨r', hr, hexec⟩ := executes_attempt.1 hexec
    obtain rfl := Except.ok.inj hr
    rcases r with e | a
    · exact herr e t (hx.err s e t hs hexec)
    · exact hok a t (hx.post s a t hs hexec)
  err s e t hs hexec := by
    obtain ⟨r', hr, -⟩ := executes_attempt.1 hexec
    cases hr

/-- The conditions may be weakened, the precondition strengthened. -/
theorem conseq (hx : Triple R P Pre x M Err) (hpre : ∀ s, Pre' s → Pre s)
    (hpost : ∀ a s, M a s → M' a s) (herr : ∀ s, Err s → Err' s) : Triple R P Pre' x M' Err' where
  guarded s hs := hx.guarded s (hpre s hs)
  post s a t hs hexec := hpost a t (hx.post s a t (hpre s hs) hexec)
  err s e t hs hexec := herr t (hx.err s e t (hpre s hs) hexec)

/-- A triple for each state of the precondition. -/
theorem of_forall (h : ∀ s₀, Pre s₀ → Triple R P (· = s₀) x M Err) : Triple R P Pre x M Err where
  guarded s hs := (h s hs).guarded s rfl
  post s a t hs hexec := (h s hs).post s a t rfl hexec
  err s e t hs hexec := (h s hs).err s e t rfl hexec

theorem from_state (hx : Triple R P Pre x M Err) {s : σ} (hs : Pre s) :
    Triple R P (· = s) x M Err := by
  refine hx.conseq ?_ (fun _ _ h ↦ h) fun _ h ↦ h
  rintro _ rfl
  exact hs

/-- A loop, with an invariant over what is left of the list. -/
theorem forEach {g : β → Prog ε Op Ret Unit} {I : List β → σ → Prop}
    (hg : ∀ b rest, Triple R P (I (b :: rest)) (g b) (fun _ ↦ I rest) Err) (bs : List β) :
    Triple R P (I bs) (Prog.forEach g bs) (fun _ ↦ I []) Err := by
  induction bs with
  | nil => exact .ret fun _ hs ↦ hs
  | cons b rest ih => exact (hg b rest).bind fun _ ↦ ih

end Triple

end Effect
