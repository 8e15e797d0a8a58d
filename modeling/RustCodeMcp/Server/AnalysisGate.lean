import RustCodeMcp.Machine.Counting
import RustCodeMcp.Machine.Pool
import RustCodeMcp.Machine.Runs

/-!
# The gate of rust-analyzer

Every piece of rust-analyzer work runs on a thread of its own and behind one process-wide gate: an
analysis takes it shared, a garbage collection exclusively. A collection does not wait for the gate
but is skipped when anybody is inside, so an analysis is held up by a collection that runs and by
nothing else. A daemon that has retired admits no new analysis.

The calls are the members of a pool. A call that goes away before its answer comes does not stop
its thread, so it makes no difference here. A panic of the work is caught while the thread still
holds the gate, which is therefore never poisoned.

A call is answered once, however it ends: it is refused, skipped, or its work is begun once and
comes to a value or a panic. Its thread goes on from phase to phase and never back, which is why
five turns bring it to its end, and why the number of its turns in a run is bounded whatever the
others do.

Retirement looks at the flag and not at the gate: an analysis that has looked already is let in, and
whoever looks later is refused.
-/

namespace RustCodeMcp.AnalysisGate

open Machine

/-- What a call is for. -/
inductive Kind
  /-- `run_analysis` -/
  | analysis
  /-- `try_run_exclusive_analysis` -/
  | collection
  deriving DecidableEq

/-- What a caller is told. -/
inductive Answer
  /-- The daemon has retired. -/
  | refused
  /-- "{what}: failed to spawn analysis thread: {error}" -/
  | notSpawned
  /-- `Ok(None)`: somebody was inside. -/
  | skipped
  | value
  /-- "{what}: analysis thread panicked: {message}" -/
  | panicked
  deriving DecidableEq

/-- Where a call is. -/
inductive Phase
  /-- An analysis that has not looked at the flag yet. -/
  | called
  | admitted
  /-- The thread is at the gate. -/
  | spawned
  /-- The thread is inside, and works. -/
  | inside
  /-- The outcome is sent, and the gate still held. -/
  | sent
  | done
  deriving DecidableEq

/-- A call, with how far it has come. -/
structure Call where
  kind : Kind
  phase : Phase
  answer : Option Answer
  /-- How often its work was begun. -/
  begun : ℕ
  deriving DecidableEq

/-- Whether the call holds the gate. -/
def Call.holds (call : Call) : Bool :=
  call.phase = .inside || call.phase = .sent

/-- What the work came to. -/
def outcome (ok : Bool) : Answer :=
  if ok then .value else .panicked

/-- The flag and the calls. -/
structure State where
  /-- `RETIRED` -/
  retired : Bool
  calls : List Call
  deriving DecidableEq

/-- What happens next. -/
inductive Action
  /-- Somebody calls. -/
  | call (kind : Kind)
  /-- `refuse_new_analyses` -/
  | retire
  /-- The call goes on; `ok` is whether its thread can be spawned or its work ends without a
  panic. -/
  | go (i : ℕ) (ok : Bool)
  deriving DecidableEq

namespace State

variable (s : State)

/-- A collection is inside. -/
def swept : Bool :=
  s.calls.any fun call ↦ call.kind = .collection && call.holds

/-- Anybody is inside. -/
def occupied : Bool :=
  s.calls.any Call.holds

/-- The next step of a call, where it has one. -/
def next (ok : Bool) (call : Call) : Option Call :=
  match call.phase with
  | .called =>
    some (if s.retired then { call with phase := .done, answer := some .refused }
      else { call with phase := .admitted })
  | .admitted =>
    some (if ok then { call with phase := .spawned }
      else { call with phase := .done, answer := some .notSpawned })
  | .spawned =>
    match call.kind with
    | .analysis =>
      if s.swept then none else some { call with phase := .inside, begun := call.begun + 1 }
    | .collection =>
      some (if s.occupied then { call with phase := .done, answer := some .skipped }
        else { call with phase := .inside, begun := call.begun + 1 })
  | .inside =>
    some { call with phase := .sent, answer := some (outcome ok) }
  | .sent => some { call with phase := .done }
  | .done => none

/-- One step. -/
def step : Action → Option State
  | .call kind => some { s with
      calls := s.calls ++ [⟨kind, if kind = .analysis then .called else .admitted, none, 0⟩] }
  | .retire => some { s with retired := true }
  | .go i ok => do
    let call ← s.calls[i]?
    let call ← s.next ok call
    some { s with calls := s.calls.set i call }

end State

/-- The gate of a process, from its start. -/
def machine : Machine State Action where
  start := ⟨false, []⟩
  step := State.step

/-! ### Calls -/

/-- How far a call can come: it is answered once, and its work is begun at most once, and then
answers it. -/
inductive Call.Sound : Call → Prop
  | called : Sound ⟨.analysis, .called, none, 0⟩
  | refused : Sound ⟨.analysis, .done, some .refused, 0⟩
  | admitted (kind : Kind) : Sound ⟨kind, .admitted, none, 0⟩
  | notSpawned (kind : Kind) : Sound ⟨kind, .done, some .notSpawned, 0⟩
  | spawned (kind : Kind) : Sound ⟨kind, .spawned, none, 0⟩
  | skipped : Sound ⟨.collection, .done, some .skipped, 0⟩
  | inside (kind : Kind) : Sound ⟨kind, .inside, none, 1⟩
  | sent (kind : Kind) (ok : Bool) : Sound ⟨kind, .sent, some (outcome ok), 1⟩
  | finished (kind : Kind) (ok : Bool) : Sound ⟨kind, .done, some (outcome ok), 1⟩

variable {s t : State} {call call' : Call} {i j : ℕ} {ok : Bool} {a : Action}

theorem Call.Sound.next (h : call.Sound) (hnext : s.next ok call = some call') : call'.Sound := by
  cases h with
  | called =>
    rw [State.next] at hnext
    obtain rfl := Option.some.inj hnext
    split
    · exact .refused
    · exact .admitted _
  | admitted kind =>
    obtain rfl := Option.some.inj hnext
    split
    · exact .spawned kind
    · exact .notSpawned kind
  | spawned kind =>
    cases kind with
    | analysis =>
      simp only [State.next] at hnext
      split at hnext
      · exact absurd hnext (by simp)
      · obtain rfl := Option.some.inj hnext
        exact .inside _
    | collection =>
      obtain rfl := Option.some.inj hnext
      split
      · exact .skipped
      · exact .inside _
  | inside kind =>
    obtain rfl := Option.some.inj hnext
    exact .sent kind ok
  | sent kind ok' =>
    obtain rfl := Option.some.inj hnext
    exact .finished kind ok'
  | refused => exact absurd hnext (by simp [State.next])
  | notSpawned kind => exact absurd hnext (by simp [State.next])
  | skipped => exact absurd hnext (by simp [State.next])
  | finished kind ok' => exact absurd hnext (by simp [State.next])

/-- A call stays what it is, and who comes inside finds nobody there, or is an analysis and finds
no collection. -/
theorem next_cases (hnext : s.next ok call = some call') : call'.kind = call.kind ∧
    (call'.holds = true → call.holds = true ∨ s.occupied = false ∨
      call.kind = .analysis ∧ s.swept = false) := by
  obtain ⟨kind, phase, answer, begun⟩ := call
  cases phase with
  | called =>
    obtain rfl := Option.some.inj hnext
    split <;> exact ⟨rfl, fun hholds ↦ absurd hholds (by simp [Call.holds])⟩
  | admitted =>
    obtain rfl := Option.some.inj hnext
    split <;> exact ⟨rfl, fun hholds ↦ absurd hholds (by simp [Call.holds])⟩
  | spawned =>
    cases kind with
    | analysis =>
      simp only [State.next] at hnext
      split at hnext
      · exact absurd hnext (by simp)
      · rename_i hswept
        obtain rfl := Option.some.inj hnext
        exact ⟨rfl, fun _ ↦ .inr (.inr ⟨rfl, by simpa using hswept⟩)⟩
    | collection =>
      obtain rfl := Option.some.inj hnext
      split
      · exact ⟨rfl, fun hholds ↦ absurd hholds (by simp [Call.holds])⟩
      · rename_i hoccupied
        exact ⟨rfl, fun _ ↦ .inr (.inl (by simpa using hoccupied))⟩
  | inside =>
    obtain rfl := Option.some.inj hnext
    exact ⟨rfl, fun _ ↦ .inl rfl⟩
  | sent =>
    obtain rfl := Option.some.inj hnext
    exact ⟨rfl, fun hholds ↦ absurd hholds (by simp [Call.holds])⟩
  | done => exact absurd hnext (by simp [State.next])

/-- **A call can always go on**, unless it is over, or an analysis at the gate with a collection
inside. -/
theorem next_isSome : (s.next ok call).isSome = true ↔ call.phase ≠ .done ∧
    ¬(call.kind = .analysis ∧ call.phase = .spawned ∧ s.swept = true) := by
  obtain ⟨kind, phase, answer, begun⟩ := call
  cases phase <;> cases kind <;> simp [State.next]

/-! ### Steps -/

/-- A step of the machine: somebody calls, the daemon retires, or a call goes on. -/
theorem step_cases (h : s.step a = some t) :
    (∃ kind, a = .call kind ∧ t = { s with
      calls := s.calls ++ [⟨kind, if kind = .analysis then .called else .admitted, none, 0⟩] }) ∨
    (a = .retire ∧ t = { s with retired := true }) ∨
    ∃ i ok call call', a = .go i ok ∧ s.calls[i]? = some call ∧ s.next ok call = some call' ∧
      t = { s with calls := s.calls.set i call' } := by
  cases a with
  | call kind => exact .inl ⟨kind, rfl, (Option.some.inj h).symm⟩
  | retire => exact .inr (.inl ⟨rfl, (Option.some.inj h).symm⟩)
  | go i ok =>
    obtain ⟨call, hcall, h⟩ := Option.bind_eq_some_iff.1 h
    obtain ⟨call', hnext, h⟩ := Option.bind_eq_some_iff.1 h
    exact .inr (.inr ⟨i, ok, call, call', rfl, hcall, hnext, (Option.some.inj h).symm⟩)

theorem not_holds_of_not_occupied (h : s.occupied = false) (hj : s.calls[j]? = some call) :
    call.holds = false := by
  have hnot := List.any_eq_false.1 h call (List.mem_of_getElem? hj)
  simpa using hnot

theorem swept_of_holds (hj : s.calls[j]? = some call) (hkind : call.kind = .collection)
    (hholds : call.holds = true) : s.swept = true :=
  List.any_eq_true.2 ⟨call, List.mem_of_getElem? hj, by simp [hkind, hholds]⟩

/-- The calls are sound, and a collection is inside alone. -/
structure State.Inv (s : State) : Prop where
  sound : ∀ call ∈ s.calls, call.Sound
  alone : ∀ (i j : ℕ) (call other : Call), i ≠ j → s.calls[i]? = some call →
    s.calls[j]? = some other → call.kind = .collection → call.holds = true → other.holds = false

theorem State.Inv.add (h : s.Inv) (kind : Kind) : State.Inv { s with
    calls := s.calls ++ [⟨kind, if kind = .analysis then .called else .admitted, none, 0⟩] } := by
  refine ⟨fun call hcall ↦ ?_, fun i j call other hne hi hj hkind hholds ↦ ?_⟩
  · rcases List.mem_append.1 hcall with hcall | hcall
    · exact h.sound call hcall
    · rw [List.mem_singleton.1 hcall]
      cases kind
      · exact .called
      · exact .admitted _
  · have hnew : ∀ call : Call, call = ⟨kind, if kind = .analysis then .called else .admitted, none,
        0⟩ → call.holds = false := by
      rintro call rfl
      cases kind <;> rfl
    rcases Pool.getElem?_concat_cases hi with hi | hi
    · rcases Pool.getElem?_concat_cases hj with hj | hj
      · exact h.alone i j call other hne hi hj hkind hholds
      · exact hnew other hj
    · rw [hnew call hi] at hholds
      exact absurd hholds Bool.false_ne_true

theorem State.Inv.go (h : s.Inv) (hi : s.calls[i]? = some call)
    (hnext : s.next ok call = some call') : State.Inv { s with calls := s.calls.set i call' } := by
  obtain ⟨hkind, henter⟩ := next_cases hnext
  refine ⟨fun c hc ↦ ?_, fun k j c other hne hk hj hc hholds ↦ ?_⟩
  · rcases List.mem_or_eq_of_mem_set hc with hc | rfl
    · exact h.sound c hc
    · exact (h.sound call (List.mem_of_getElem? hi)).next hnext
  rcases Pool.getElem?_set_cases hk with ⟨rfl, rfl⟩ | ⟨-, hk'⟩
  · rcases Pool.getElem?_set_cases hj with ⟨rfl, rfl⟩ | ⟨-, hj'⟩
    · exact absurd rfl hne
    · -- The collection inside is the call that goes on.
      rcases henter hholds with hheld | hfree | ⟨hanalysis, -⟩
      · exact h.alone k j call other hne hi hj' (hkind ▸ hc) hheld
      · exact not_holds_of_not_occupied hfree hj'
      · rw [hkind, hanalysis] at hc
        exact absurd hc (by decide)
  · rcases Pool.getElem?_set_cases hj with ⟨rfl, rfl⟩ | ⟨-, hj'⟩
    · -- A collection is inside, and the call that goes on does not come in.
      by_contra hother
      rcases henter (by simpa using hother) with hheld | hfree | ⟨-, hfree⟩
      · rw [h.alone k j c call hne hk' hi hc hholds] at hheld
        exact Bool.false_ne_true hheld
      · rw [not_holds_of_not_occupied hfree hk'] at hholds
        exact Bool.false_ne_true hholds
      · rw [swept_of_holds hk' hc hholds] at hfree
        exact absurd hfree (by decide)
    · exact h.alone k j c other hne hk' hj' hc hholds

/-- **Every step keeps the calls sound and a collection alone.** -/
theorem State.Inv.step (h : s.Inv) (hstep : s.step a = some t) : t.Inv := by
  rcases step_cases hstep with ⟨kind, -, rfl⟩ | ⟨-, rfl⟩ | ⟨i, ok, call, call', -, hi, hnext, rfl⟩
  · exact h.add kind
  · exact ⟨h.sound, h.alone⟩
  · exact h.go hi hnext

/-! ### Turns -/

/-- A turn of the call at `i`. -/
def isTurn (i : ℕ) : State → Action → Bool
  | _, .go j _ => j = i
  | _, _ => false

/-- How often a call can go on. -/
def Phase.turns : Phase → ℕ
  | .called => 5
  | .admitted => 4
  | .spawned => 3
  | .inside => 2
  | .sent => 1
  | .done => 0

/-- How often the call at `i` can still go on; one that has not been made yet, as often as any. -/
def State.turns (i : ℕ) (s : State) : ℕ :=
  s.calls[i]?.elim 5 fun call ↦ call.phase.turns

theorem Phase.turns_le (phase : Phase) : phase.turns ≤ 5 := by
  cases phase <;> decide

/-- A call that goes on has one turn less. -/
theorem turns_next (hnext : s.next ok call = some call') :
    call'.phase.turns + 1 ≤ call.phase.turns := by
  obtain ⟨kind, phase, answer, begun⟩ := call
  cases phase with
  | called =>
    obtain rfl := Option.some.inj hnext
    split <;> simp [Phase.turns]
  | admitted =>
    obtain rfl := Option.some.inj hnext
    split <;> simp [Phase.turns]
  | spawned =>
    cases kind with
    | analysis =>
      simp only [State.next] at hnext
      split at hnext
      · exact absurd hnext (by simp)
      · obtain rfl := Option.some.inj hnext
        simp [Phase.turns]
    | collection =>
      obtain rfl := Option.some.inj hnext
      split <;> simp [Phase.turns]
  | inside =>
    obtain rfl := Option.some.inj hnext
    simp [Phase.turns]
  | sent =>
    obtain rfl := Option.some.inj hnext
    simp [Phase.turns]
  | done => exact absurd hnext (by simp [State.next])

/-- A turn of the call uses one of its turns up, and no other step gives it any. -/
theorem turns_step (i : ℕ) (h : s.step a = some t) :
    (isTurn i s a).toNat + t.turns i ≤ s.turns i := by
  rcases step_cases h with ⟨kind, rfl, rfl⟩ | ⟨rfl, rfl⟩ | ⟨j, ok, call, call', rfl, hj, hnext, rfl⟩
  · show 0 + State.turns i _ ≤ _
    rw [Nat.zero_add, State.turns, State.turns]
    cases hi : s.calls[i]? with
    | some call => exact Nat.le_of_eq (by rw [Pool.getElem?_concat _ hi])
    | none =>
      -- If it is the new call, it has no more turns than any.
      cases hnew : (s.calls ++ [_])[i]? with
      | none => exact Nat.le_refl _
      | some call => exact call.phase.turns_le
  · exact Nat.le_of_eq (Nat.zero_add _)
  · show (decide (j = i)).toNat + State.turns i _ ≤ _
    rw [State.turns, State.turns]
    by_cases hij : j = i
    · subst hij
      have hlt := (List.getElem?_eq_some_iff.1 hj).1
      rw [List.getElem?_set_self hlt, hj, decide_eq_true rfl, Bool.toNat_true, Nat.add_comm]
      exact turns_next hnext
    · exact Nat.le_of_eq
        (by rw [List.getElem?_set_ne hij, decide_eq_false hij, Bool.toNat_false, Nat.zero_add])

/-! ### Runs -/

/-- What holds of the gate at any time: a collection is inside alone; and a call that is not over
can go on, unless it is an analysis and a collection is inside, which can. -/
structure State.Guarded (s : State) : Prop extends s.Inv where
  moves : ∀ (i : ℕ) (call : Call), s.calls[i]? = some call → call.phase ≠ .done →
    (∀ ok, (s.step (.go i ok)).isSome = true) ∨
    call.kind = .analysis ∧ call.phase = .spawned ∧ ∃ (j : ℕ) (other : Call),
      s.calls[j]? = some other ∧ other.kind = .collection ∧ other.holds = true ∧
      ∀ ok, (s.step (.go j ok)).isSome = true

theorem go_isSome (hi : s.calls[i]? = some call) (h : (s.next ok call).isSome = true) :
    (s.step (.go i ok)).isSome = true := by
  obtain ⟨call', hnext⟩ := Option.isSome_iff_exists.1 h
  simp [State.step, hi, hnext]

theorem State.Inv.guarded (h : s.Inv) : s.Guarded := by
  refine ⟨h, fun i call hi hphase ↦ ?_⟩
  by_cases hwaits : call.kind = .analysis ∧ call.phase = .spawned ∧ s.swept = true
  · obtain ⟨hkind, hspawned, hswept⟩ := hwaits
    refine .inr ⟨hkind, hspawned, ?_⟩
    obtain ⟨other, hmem, hother⟩ := List.any_eq_true.1 hswept
    obtain ⟨hcollection, hholds⟩ : other.kind = .collection ∧ other.holds = true := by
      simpa using hother
    obtain ⟨j, hj⟩ := List.mem_iff_getElem?.1 hmem
    refine ⟨j, other, hj, hcollection, hholds, fun ok ↦ go_isSome hj (next_isSome.2 ⟨?_, ?_⟩)⟩
    · intro hdone
      simp [Call.holds, hdone] at hholds
    · rintro ⟨hanalysis, -, -⟩
      rw [hcollection] at hanalysis
      exact absurd hanalysis (by decide)
  · exact .inl fun ok ↦ go_isSome hi (next_isSome.2 ⟨hphase, hwaits⟩)

variable {actions : List Action}

theorem inv_of_runs (h : machine.Runs Any machine.start actions s) : s.Inv :=
  h.invariant ⟨by simp [machine], by simp [machine]⟩ fun _ _ _ _ hstep ih ↦ ih.step hstep

/-- **The gate over whole runs.** Whatever the calls are and however their threads interleave, a
collection is inside alone, each call is answered once and for what became of its work, nobody waits
but for a collection that is inside and can go on, and no call takes more than five turns. -/
theorem guarded_of_runs (h : machine.Runs Any machine.start actions s) :
    s.Guarded ∧ ∀ i, machine.count (isTurn i) machine.start actions ≤ 5 := by
  refine ⟨(inv_of_runs h).guarded, fun i ↦ ?_⟩
  have hcount := h.count_le (f := isTurn i) (g := fun _ _ ↦ false) (c := 0) (State.turns i)
    fun _ _ _ _ hstep ↦ Nat.le_trans (turns_step i hstep) (Nat.le_add_right _ _)
  have hstart : machine.start.turns i = 5 := rfl
  omega

/-- An analysis and a collection that finds it inside. -/
def crossed : List Action :=
  [.call .analysis, .go 0 true, .go 0 true, .go 0 true, .call .collection, .go 1 true, .go 1 true]

theorem guarded_crossed : ∃ s, machine.run machine.start crossed = some s ∧ s.Guarded ∧
    machine.count (isTurn 0) machine.start crossed ≤ 5 :=
  have h := guarded_of_runs
    (runs_of_run (show machine.run machine.start crossed = some _ from rfl))
  ⟨_, rfl, h.1, h.2 0⟩

/-! ### Retirement -/

/-- The calls that have looked at the flag. -/
def State.Passed (s : State) (i : ℕ) : Prop :=
  ∃ call, s.calls[i]? = some call ∧ call.phase ≠ .called

/-- The analyses that are refused, or will be: all but those of `passed`, which had passed the flag
before it was set. -/
def State.Refuses (passed : ℕ → Prop) (s : State) : Prop :=
  ∀ (i : ℕ) (call : Call), s.calls[i]? = some call → call.kind = .analysis → ¬passed i →
    call = ⟨.analysis, .called, none, 0⟩ ∨ call = ⟨.analysis, .done, some .refused, 0⟩

variable {passed : ℕ → Prop}

/-- A retired daemon goes on to refuse them. -/
theorem State.Refuses.step (h : s.Refuses passed) (hretired : s.retired = true)
    (hstep : s.step a = some t) : t.retired = true ∧ t.Refuses passed := by
  rcases step_cases hstep with ⟨kind, -, rfl⟩ | ⟨-, rfl⟩ | ⟨i, ok, call, call', -, hi, hnext, rfl⟩
  · refine ⟨hretired, fun k c hk hc hpassed ↦ ?_⟩
    rcases Pool.getElem?_concat_cases hk with hk' | rfl
    · exact h k c hk' hc hpassed
    · obtain rfl : kind = .analysis := hc
      exact .inl rfl
  · exact ⟨rfl, h⟩
  · refine ⟨hretired, fun k c hk hc hpassed ↦ ?_⟩
    rcases Pool.getElem?_set_cases hk with ⟨rfl, rfl⟩ | ⟨-, hk'⟩
    · rw [(next_cases hnext).1] at hc
      rcases h k call hi hc hpassed with rfl | rfl
      · rw [State.next, if_pos hretired] at hnext
        exact .inr (Option.some.inj hnext).symm
      · exact absurd hnext (by simp [State.next])
    · exact h k c hk' hc hpassed

/-- **A retired daemon begins no new analysis.** From a state in which the flag is set, and in which
`s` leaves an analysis either unseen or before its look at the flag, no run lets that analysis get
further than its refusal. -/
theorem refuses_of_runs {actions' : List Action}
    (h : machine.Runs Any machine.start actions s) (hretired : s.retired = true)
    (h' : machine.Runs Any s actions' t) :
    t.retired = true ∧ ∀ (i : ℕ) (call : Call), t.calls[i]? = some call → call.kind = .analysis →
      (∀ c, s.calls[i]? = some c → c.phase = .called) →
        call.begun = 0 ∧ (call.answer = none ∧ call.phase = .called ∨
          call.answer = some .refused ∧ call.phase = .done) := by
  have hinv := inv_of_runs h
  have hstart : s.Refuses s.Passed := by
    intro i call hi _ hpassed
    have hcalled : call.phase = .called := by
      by_contra hphase
      exact hpassed ⟨call, hi, hphase⟩
    have hsound := hinv.sound call (List.mem_of_getElem? hi)
    cases hsound with
    | called => exact .inl rfl
    | refused | admitted | notSpawned | spawned | skipped | inside | sent | finished =>
      exact absurd hcalled (by simp)
  have hend : t.retired = true ∧ t.Refuses s.Passed :=
    h'.invariant (P := fun t ↦ t.retired = true ∧ t.Refuses s.Passed) ⟨hretired, hstart⟩
      fun _ _ _ _ hstep ih ↦ ih.2.step ih.1 hstep
  refine ⟨hend.1, fun i call hi hkind hcalled ↦ ?_⟩
  have hpassed : ¬s.Passed i := by
    rintro ⟨c, hc, hphase⟩
    exact hphase (hcalled c hc)
  rcases hend.2 i call hi hkind hpassed with rfl | rfl
  · exact ⟨rfl, .inl ⟨rfl, rfl⟩⟩
  · exact ⟨rfl, .inr ⟨rfl, rfl⟩⟩

/-- One analysis is inside when the daemon retires, and another has just been called. -/
def late : List Action :=
  [.call .analysis, .go 0 true, .go 0 true, .go 0 true, .call .analysis, .retire]

theorem refuses_late : ∃ s t, machine.run machine.start late = some s ∧
    machine.run s [.go 1 true, .go 0 true] = some t ∧ t.retired = true ∧
    t.calls[1]? = some ⟨.analysis, .done, some .refused, 0⟩ :=
  ⟨_, _, rfl, rfl, (refuses_of_runs
    (runs_of_run (show machine.run machine.start late = some _ from rfl)) rfl
    (runs_of_run (show machine.run _ [.go 1 true, .go 0 true] = some _ from rfl))).1, rfl⟩

end RustCodeMcp.AnalysisGate
