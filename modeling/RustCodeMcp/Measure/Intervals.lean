import Mathlib.MeasureTheory.Measure.Lebesgue.Basic
import Mathlib.Order.CompletePartialOrder

/-!
# Lengths of unions of intervals

Half-open intervals with rational ends, and what a list of them covers of the line. The length of
what is covered counts every point once, however often it is covered.

Lengths are Lebesgue measure of a set of reals, so that no rational algorithm is trusted: whatever
adds up lengths has to show that its sum is the measure of the union. The ends are rational because
they are read from text.
-/

open MeasureTheory

namespace Intervals

variable {parts rest : List (ℚ × ℚ)} {a b c d : ℚ}

/-- The points of an interval. -/
def points (part : ℚ × ℚ) : Set ℝ :=
  Set.Ico part.1 part.2

/-- The points that at least one of the intervals has. -/
def covered (parts : List (ℚ × ℚ)) : Set ℝ :=
  {x | ∃ part ∈ parts, x ∈ points part}

theorem covered_nil : covered [] = ∅ :=
  Set.eq_empty_of_forall_notMem fun _ ⟨_, hmem, _⟩ ↦ List.not_mem_nil hmem

/-- An interval covers its points, besides what the others do. -/
theorem covered_cons (part : ℚ × ℚ) (parts : List (ℚ × ℚ)) :
    covered (part :: parts) = points part ∪ covered parts := by
  ext x
  simp only [covered, Set.mem_ofPred_eq, Set.mem_union, List.mem_cons, or_and_right, exists_or,
    exists_eq_left]

theorem covered_of_perm (h : parts.Perm rest) : covered parts = covered rest := by
  ext x
  exact exists_congr fun part ↦ and_congr_left' h.mem_iff

theorem measurableSet_points (part : ℚ × ℚ) : MeasurableSet (points part) :=
  measurableSet_Ico

/-- The length is the difference of its ends, or none. -/
theorem volume_points (a b : ℚ) : volume (points (a, b)) = ENNReal.ofReal ((b - a : ℚ) : ℝ) := by
  rw [points, Real.volume_Ico, Rat.cast_sub]

/-- Two intervals that meet are one. -/
theorem points_union (hac : a ≤ c) (hcb : c ≤ b) (hcd : c ≤ d) :
    points (a, b) ∪ points (c, d) = points (a, max b d) := by
  have hcast : ((max b d : ℚ) : ℝ) = max (b : ℝ) d := Rat.cast_max b d
  rw [points, points, points, hcast, Set.Ico_union_Ico' (Rat.cast_le.2 hcb)
    (Rat.cast_le.2 (hac.trans hcd)), min_eq_left (Rat.cast_le.2 hac)]

/-- What begins after an interval has no point with it in common. -/
theorem disjoint_points (h : ∀ part ∈ parts, b ≤ part.1) :
    Disjoint (points (a, b)) (covered parts) := by
  refine Set.disjoint_left.2 fun x hx ⟨part, hmem, hpart⟩ ↦ ?_
  have hle : (b : ℝ) ≤ x := (Rat.cast_le.2 (h part hmem)).trans hpart.1
  exact hle.not_gt hx.2

end Intervals
