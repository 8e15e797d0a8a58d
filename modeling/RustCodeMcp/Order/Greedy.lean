import Mathlib.Data.List.Basic
import Mathlib.Order.Nat

/-!
# Greedy divisions

A line of elements, given by their places, is divided into ranges from left to right. Every range
starts with one element, whether or not that fits, and takes the elements after it for as long as
what it would be fits; the first element that it cannot take starts the next range. Nothing is
asked of what fits: a longer range may fit where a shorter one does not, and the same number of
elements may fit in one place and not in another.

A loop that divides greedily has at any time ranges that are full (`Full`) and one that is growing
(`Grown`); at the end it has a division (`Full.division`). There is only one for a start and an end
(`Division.unique`), so that what is said of the ranges of any division is said of those of the
loop.
-/

namespace Greedy

variable {fits : ℕ → ℕ → Prop} {s m e n : ℕ} {runs runs' : List (ℕ × ℕ)}

/-- A range from `s` to before `e` that has grown element by element: from its second on, what it
was with each of them fits. -/
structure Grown (fits : ℕ → ℕ → Prop) (s e : ℕ) : Prop where
  lt : s < e
  fits : ∀ k, s + 1 < k → k ≤ e → fits s k

theorem Grown.single (fits : ℕ → ℕ → Prop) (s : ℕ) : Grown fits s (s + 1) :=
  ⟨Nat.lt_succ_self s, fun _ hlt hle ↦ absurd (hlt.trans_le hle) (lt_irrefl _)⟩

/-- One element more, which fits. -/
theorem Grown.succ (h : Grown fits s e) (hfits : fits s (e + 1)) : Grown fits s (e + 1) := by
  refine ⟨h.lt.trans (Nat.lt_succ_self e), fun k hlt hle ↦ ?_⟩
  rcases hle.lt_or_eq with hk | rfl
  · exact h.fits k hlt (Nat.lt_succ_iff.1 hk)
  · exact hfits

/-- Ranges one after another from `s` to before `e`, none of which can take the element after it. -/
inductive Full (fits : ℕ → ℕ → Prop) : ℕ → List (ℕ × ℕ) → ℕ → Prop
  | nil (s : ℕ) : Full fits s [] s
  | cons {s m e : ℕ} {runs : List (ℕ × ℕ)} (hgrown : Grown fits s m) (hfull : ¬ fits s (m + 1))
      (h : Full fits m runs e) : Full fits s ((s, m) :: runs) e

/-- The ranges of a division of the elements from `s` to before `n`: all are full but the last. -/
inductive Division (fits : ℕ → ℕ → Prop) (n : ℕ) : ℕ → List (ℕ × ℕ) → Prop
  | last {s : ℕ} (hgrown : Grown fits s n) : Division fits n s [(s, n)]
  | cons {s m : ℕ} {runs : List (ℕ × ℕ)} (hgrown : Grown fits s m) (hfull : ¬ fits s (m + 1))
      (h : Division fits n m runs) : Division fits n s ((s, m) :: runs)

namespace Full

/-- The range that has grown after full ones is full once it cannot take the next element. -/
theorem concat (h : Full fits s runs m) (hgrown : Grown fits m e) (hfull : ¬ fits m (e + 1)) :
    Full fits s (runs ++ [(m, e)]) e := by
  induction h with
  | nil s => exact .cons hgrown hfull (.nil e)
  | cons hgrown' hfull' _ ih => exact .cons hgrown' hfull' (ih hgrown hfull)

theorem le (h : Full fits s runs e) : s ≤ e := by
  induction h with
  | nil s => exact le_rfl
  | cons hgrown _ _ ih => exact hgrown.lt.le.trans ih

/-- There are none exactly between a place and itself. -/
theorem eq_nil_iff (h : Full fits s runs e) : runs = [] ↔ s = e := by
  cases h with
  | nil s => simp
  | cons hgrown _ h => simpa using (hgrown.lt.trans_le h.le).ne

/-- **What a greedy loop ends with**: full ranges, and the last one as it has grown to the end. -/
theorem division (h : Full fits s runs m) (hgrown : Grown fits m n) :
    Division fits n s (runs ++ [(m, n)]) := by
  induction h with
  | nil s => exact .last hgrown
  | cons hgrown' hfull' _ ih => exact .cons hgrown' hfull' (ih hgrown)

end Full

namespace Division

theorem lt (h : Division fits n s runs) : s < n := by
  induction h with
  | last hgrown => exact hgrown.lt
  | cons hgrown _ _ ih => exact hgrown.lt.trans ih

theorem ne_nil (h : Division fits n s runs) : runs ≠ [] := by
  cases h <;> exact List.cons_ne_nil _ _

/-- Each of its ranges has grown element by element. -/
theorem grown (h : Division fits n s runs) : ∀ run ∈ runs, Grown fits run.1 run.2 := by
  induction h with
  | last hgrown => simpa using hgrown
  | cons hgrown _ _ ih => exact List.forall_mem_cons.2 ⟨hgrown, ih⟩

/-- A range that has grown further than a full one has taken the element that does not fit. -/
theorem not_lt_of_full (hgrown : Grown fits s e) (hm : s < m) (hfull : ¬ fits s (m + 1)) :
    ¬ m < e := fun hlt ↦ hfull (hgrown.fits (m + 1) (Nat.succ_lt_succ hm) hlt)

/-- **There is one division.** -/
theorem unique (h : Division fits n s runs) (h' : Division fits n s runs') : runs = runs' := by
  induction h generalizing runs' with
  | last hgrown =>
    cases h' with
    | last _ => rfl
    | cons hgrown' hfull' h' => exact absurd h'.lt (not_lt_of_full hgrown hgrown'.lt hfull')
  | @cons s m runs hgrown hfull h ih =>
    cases h' with
    | last hgrown' => exact absurd h.lt (not_lt_of_full hgrown' hgrown.lt hfull)
    | @cons _ m' runs' hgrown' hfull' h' =>
      obtain rfl : m = m' := le_antisymm
        (Nat.not_lt.1 (not_lt_of_full hgrown hgrown'.lt hfull'))
        (Nat.not_lt.1 (not_lt_of_full hgrown' hgrown.lt hfull))
      rw [ih h']

end Division

end Greedy
