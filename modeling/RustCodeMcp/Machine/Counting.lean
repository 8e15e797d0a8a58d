import RustCodeMcp.Machine.Runs

/-!
# Counting the steps of a run

How often steps of one kind are taken can be bounded by how often those of another are: by a
potential that the first use up and only the second fill again (`Runs.count_le`).

Only steps of the two kinds may be told apart here: whatever else happens leaves the potential as it
is, or lowers it. So a bound on the dear steps follows from one on the cheap ones, whatever their
order, and it is a bound on every part of a run as well, since the potential is not negative
(`Runs.count_append`).
-/

namespace Machine

variable {σ ι : Type*} {M : Machine σ ι} {Ok : σ → ι → Prop} {f g : σ → ι → Bool} {s t : σ}
  {is : List ι}

/-- How many of the steps are of a kind. -/
def count (M : Machine σ ι) (f : σ → ι → Bool) : σ → List ι → ℕ
  | _, [] => 0
  | s, i :: is => (f s i).toNat + (M.step s i).elim 0 fun t ↦ M.count f t is

theorem count_cons {i : ι} (hstep : M.step s i = some t) :
    M.count f s (i :: is) = (f s i).toNat + M.count f t is := by
  rw [count, hstep, Option.elim_some]

/-- The steps of two runs in turn add up. -/
theorem Runs.count_append (h : M.Runs Ok s is t) (js : List ι) :
    M.count f s (is ++ js) = M.count f s is + M.count f t js := by
  induction h generalizing js with
  | nil => exact (Nat.zero_add _).symm
  | snoc _ _ hstep ih =>
    rw [List.append_assoc, ih, ih, List.singleton_append, count_cons hstep, count_cons hstep, count]
    omega

/-- **A potential that steps of one kind use up, and steps of another fill by at most `c`.** -/
theorem Runs.count_le {c : ℕ} (potential : σ → ℕ) (h : M.Runs Ok s is t)
    (hstep : ∀ s i t, Ok s i → M.step s i = some t →
      (f s i).toNat + potential t ≤ potential s + c * (g s i).toNat) :
    M.count f s is + potential t ≤ potential s + c * M.count g s is := by
  induction h with
  | nil =>
    show 0 + potential s ≤ potential s + c * 0
    omega
  | snoc h hok hnext ih =>
    have hlast := hstep _ _ _ hok hnext
    rw [h.count_append, h.count_append, count_cons hnext, count_cons hnext, count, count,
      Nat.add_zero, Nat.add_zero, Nat.mul_add]
    omega

end Machine
