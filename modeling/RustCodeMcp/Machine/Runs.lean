import Mathlib.Data.List.Basic

/-!
# Machines and their runs

A machine takes labelled steps from a state. A step is a function of the state and the label:
whatever the state leaves open — who moves, what the surroundings answer, which of two things
happens first — is in the label, so a statement about every run is a statement about every order and
every answer. A run may be asked to keep to steps that meet a condition, which is how a result about
the runs in which something does not happen is stated.

An invariant is proved once for the steps; `Runs.invariant` and `Reachable.invariant` carry it to
runs.

There are two ways to say that a run exists. `runs_of_runIf` computes one: the steps of a list of
labels are taken, and the condition on each is checked. `Runs.cons` builds one by hand, step by
step. Both give a `Runs`, and its last state is reachable.

Every condition on steps can be weakened (`Runs.mono`), down to none at all (`Any`).
-/

universe u v

/-- A start and labelled steps; `none` says that the label's step cannot be taken. -/
structure Machine (σ : Type u) (ι : Type v) where
  start : σ
  step : σ → ι → Option σ

namespace Machine

variable {σ : Type u} {ι : Type v} (M : Machine σ ι)

/-- Take the steps of the labels, one after another, as long as each is one of those that `ok`
picks. -/
def runIf (ok : σ → ι → Bool) : σ → List ι → Option σ
  | s, [] => some s
  | s, i :: is => if ok s i then (M.step s i).bind fun t ↦ runIf ok t is else none

/-- Take the steps of the labels, one after another. -/
def run : σ → List ι → Option σ :=
  M.runIf fun _ _ ↦ true

/-- A run from `s` to the second state whose every step meets `Ok`. -/
inductive Runs (Ok : σ → ι → Prop) (s : σ) : List ι → σ → Prop
  | nil : Runs Ok s [] s
  | snoc {is : List ι} {i : ι} {t u : σ} (h : Runs Ok s is t) (hok : Ok t i)
      (hstep : M.step t i = some u) : Runs Ok s (is ++ [i]) u

/-- The condition on no step. -/
def Any : σ → ι → Prop := fun _ _ ↦ True

/-- Reached from the start by steps that meet `Ok`. -/
def Reachable (Ok : σ → ι → Prop) (s : σ) : Prop :=
  ∃ is, M.Runs Ok M.start is s

variable {M} {Ok Ok' : σ → ι → Prop} {s t u : σ} {is js : List ι} {i : ι}

/-- **What holds at first and is kept by every step holds after every run.** -/
theorem Runs.invariant {P : σ → Prop} (h : M.Runs Ok s is t) (hs : P s)
    (hstep : ∀ t i u, Ok t i → M.step t i = some u → P t → P u) : P t := by
  induction h with
  | nil => exact hs
  | snoc _ hok hnext ih => exact hstep _ _ _ hok hnext ih

/-- A run meets every weaker condition. -/
theorem Runs.mono (h : M.Runs Ok s is t) (hmono : ∀ s i, Ok s i → Ok' s i) :
    M.Runs Ok' s is t := by
  induction h with
  | nil => exact nil
  | snoc _ hok hstep ih => exact ih.snoc (hmono _ _ hok) hstep

/-- Two runs in turn are a run. -/
theorem Runs.append (h : M.Runs Ok s is t) (h' : M.Runs Ok t js u) :
    M.Runs Ok s (is ++ js) u := by
  induction h' with
  | nil => rwa [List.append_nil]
  | snoc _ hok hstep ih =>
    rw [← List.append_assoc]
    exact ih.snoc hok hstep

theorem Runs.cons (hok : Ok s i) (hstep : M.step s i = some t) (h : M.Runs Ok t is u) :
    M.Runs Ok s (i :: is) u :=
  (nil.snoc hok hstep : M.Runs Ok s ([] ++ [i]) t).append h

theorem Reachable.start : M.Reachable Ok M.start :=
  ⟨[], Runs.nil⟩

/-- What a step leads to is reached as well. -/
theorem Reachable.step (h : M.Reachable Ok s) (hok : Ok s i) (hstep : M.step s i = some t) :
    M.Reachable Ok t := by
  obtain ⟨is, his⟩ := h
  exact ⟨is ++ [i], his.snoc hok hstep⟩

/-- **The same for the reachable states.** -/
theorem Reachable.invariant {P : σ → Prop} (h : M.Reachable Ok s) (hstart : P M.start)
    (hstep : ∀ t i u, Ok t i → M.step t i = some u → P t → P u) : P s := by
  obtain ⟨is, his⟩ := h
  exact his.invariant hstart hstep

/-- What is reached by some steps is reached if more are allowed. -/
theorem Reachable.mono (h : M.Reachable Ok s) (hmono : ∀ s i, Ok s i → Ok' s i) :
    M.Reachable Ok' s := by
  obtain ⟨is, his⟩ := h
  exact ⟨is, his.mono hmono⟩

theorem Reachable.any (h : M.Reachable Ok s) : M.Reachable Any s :=
  h.mono fun _ _ _ ↦ trivial

/-- A run can be computed, and the condition on its steps checked on the way. -/
theorem runs_of_runIf {ok : σ → ι → Bool} (hok : ∀ s i, ok s i = true → Ok s i)
    (h : M.runIf ok s is = some t) : M.Runs Ok s is t := by
  induction is generalizing s with
  | nil =>
    obtain rfl := Option.some.inj h
    exact Runs.nil
  | cons i is ih =>
    rw [runIf] at h
    split_ifs at h with hi
    obtain ⟨u, hu, hrest⟩ := Option.bind_eq_some_iff.1 h
    exact Runs.cons (hok s i hi) hu (ih hrest)

theorem runs_of_run (h : M.run s is = some t) : M.Runs Any s is t :=
  runs_of_runIf (fun _ _ _ ↦ trivial) h

/-- What it ends in is reached. -/
theorem reachable_of_run (h : M.run M.start is = some t) : M.Reachable Any t :=
  ⟨is, runs_of_run h⟩

theorem reachable_get (h : (M.run M.start is).isSome = true) :
    M.Reachable Any ((M.run M.start is).get h) :=
  reachable_of_run (Option.some_get h).symm

end Machine
