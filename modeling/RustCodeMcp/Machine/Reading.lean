import Mathlib.Data.List.Basic

/-!
# Computations that read

A computation that asks for values, one key after another, each question depending on the answers so
far. It is a tree, so that two stores that agree on the keys it asked one of them for give the same
result, and are asked the same (`run_congr`, `reads_congr`).

This is what makes a record of what was asked worth keeping: as long as the recorded keys have their
old values, the computation need not be run again, whatever else has changed.
-/

/-- The next key to ask for, or the result. -/
inductive Reading (κ ν α : Type*)
  | done (a : α)
  | read (k : κ) (next : ν → Reading κ ν α)

namespace Reading

variable {κ ν α : Type*} {f f' : κ → ν} {r : Reading κ ν α}

/-- The result, with the values from a store. -/
def run (f : κ → ν) : Reading κ ν α → α
  | done a => a
  | read k next => (next (f k)).run f

/-- The keys asked for. -/
def reads (f : κ → ν) : Reading κ ν α → List κ
  | done _ => []
  | read k next => k :: (next (f k)).reads f

/-- **The result depends on the keys that were asked for.** -/
theorem run_congr (h : ∀ k ∈ r.reads f, f k = f' k) : r.run f = r.run f' := by
  induction r with
  | done a => rfl
  | read k next ih =>
    rw [run, run, ← h k List.mem_cons_self]
    exact ih (f k) fun k' hk' ↦ h k' (List.mem_cons_of_mem _ hk')

theorem reads_congr (h : ∀ k ∈ r.reads f, f k = f' k) : r.reads f = r.reads f' := by
  induction r with
  | done a => rfl
  | read k next ih =>
    rw [reads, reads, ← h k List.mem_cons_self]
    exact congrArg _ (ih (f k) fun k' hk' ↦ h k' (List.mem_cons_of_mem _ hk'))

end Reading
