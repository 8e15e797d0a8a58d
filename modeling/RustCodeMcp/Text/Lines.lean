import Mathlib.Data.List.Basic
import Mathlib.Data.List.Count

/-!
# Lines

`starts nl text` are the positions at which the lines of a text begin. The line of a position is the
number of line ends before it, and the two are related by `starts_le_iff`: a line begins at or
before a position exactly when the position is not on an earlier line.

A program that keeps a list of line starts looks a position up in it, and one that does not counts
line ends; the relation between the two is all that is needed to read either as the other.
-/

namespace Lines

variable {α : Type} [DecidableEq α] {nl : α} {text : List α} {i j k : ℕ}

/-- Where the lines begin that come after the line ends of a text. -/
def startsFrom (nl : α) : ℕ → List α → List ℕ
  | _, [] => []
  | i, c :: rest =>
    if c = nl then (i + 1) :: startsFrom nl (i + 1) rest else startsFrom nl (i + 1) rest

/-- Where the lines begin, the first one at zero. -/
def starts (nl : α) (text : List α) : List ℕ :=
  0 :: startsFrom nl 0 text

/-- The line of a position, from zero on. -/
def lineOf (nl : α) (text : List α) (i : ℕ) : ℕ :=
  (text.take i).count nl

theorem length_startsFrom (nl : α) (i : ℕ) (text : List α) :
    (startsFrom nl i text).length = text.count nl := by
  induction text generalizing i with
  | nil => rfl
  | cons c rest ih =>
    rw [startsFrom, List.count_cons]
    by_cases hc : c = nl
    · rw [if_pos hc, List.length_cons, ih, if_pos (by rw [hc]; exact BEq.rfl)]
    · rw [if_neg hc, ih, if_neg (by rw [beq_iff_eq]; exact hc)]
      rfl

/-- There is one line more than there are line ends. -/
theorem length_starts (nl : α) (text : List α) : (starts nl text).length = text.count nl + 1 := by
  rw [starts, List.length_cons, length_startsFrom]

theorem lt_of_mem_startsFrom (h : j ∈ startsFrom nl i text) : i < j := by
  induction text generalizing i with
  | nil => exact absurd h List.not_mem_nil
  | cons c rest ih =>
    rw [startsFrom] at h
    split at h
    · rcases List.mem_cons.1 h with rfl | h
      · exact Nat.lt_succ_self i
      · exact Nat.lt_of_succ_lt (ih h)
    · exact Nat.lt_of_succ_lt (ih h)

/-- One of them is at or before a position if enough line ends are before it. -/
theorem startsFrom_le_iff (hk : k < (startsFrom nl i text).length) :
    (startsFrom nl i text)[k] ≤ i + j ↔ k < lineOf nl text j := by
  induction text generalizing i j k with
  | nil => exact absurd hk (Nat.not_lt_zero _)
  | cons c rest ih =>
    rcases j with - | j
    · have hlt := lt_of_mem_startsFrom (List.getElem_mem hk)
      exact ⟨fun h ↦ absurd h (Nat.not_le.2 hlt), fun h ↦ absurd h (Nat.not_lt_zero k)⟩
    have hsum : i + (j + 1) = i + 1 + j := by omega
    have hline : lineOf nl (c :: rest) (j + 1) = lineOf nl rest j + if c = nl then 1 else 0 := by
      rw [lineOf, List.take_succ_cons, List.count_cons]
      simp [lineOf]
    rw [hsum, hline]
    by_cases hc : c = nl
    · simp only [startsFrom, if_pos hc] at hk ⊢
      rcases k with - | k
      · exact ⟨fun _ ↦ Nat.succ_pos _, fun _ ↦ Nat.le_add_right _ _⟩
      · rw [List.getElem_cons_succ, ih, Nat.add_lt_add_iff_right]
    · simp only [startsFrom, if_neg hc] at hk ⊢
      exact ih hk

/-- **A line begins at or before a position** exactly when the position is not on an earlier one. -/
theorem starts_le_iff (hk : k < (starts nl text).length) :
    (starts nl text)[k] ≤ i ↔ k ≤ lineOf nl text i := by
  rcases k with - | k
  · exact ⟨fun _ ↦ Nat.zero_le _, fun _ ↦ Nat.zero_le _⟩
  · have h := startsFrom_le_iff (i := 0) (j := i) (Nat.lt_of_succ_lt_succ hk)
    rw [Nat.zero_add] at h
    exact h

theorem lineOf_mono (h : i ≤ j) : lineOf nl text i ≤ lineOf nl text j :=
  ((List.take_prefix_take_left h).sublist).count_le nl

theorem lineOf_le (i : ℕ) : lineOf nl text i ≤ text.count nl :=
  (List.take_sublist i text).count_le nl

/-- A line end begins a line. -/
theorem lineOf_succ (nl : α) (text : List α) (i : ℕ) :
    lineOf nl text (i + 1) = lineOf nl text i + if text[i]? = some nl then 1 else 0 := by
  rw [lineOf, lineOf, List.take_add_one, List.count_append]
  rcases text[i]? with - | c
  · rfl
  · by_cases hc : c = nl <;> simp [hc]

/-- A line begins on itself. -/
theorem lineOf_start (hk : k < (starts nl text).length) :
    lineOf nl text (starts nl text)[k] = k := by
  refine Nat.le_antisymm ?_ ((starts_le_iff hk).1 (Nat.le_refl _))
  rcases hstart : (starts nl text)[k] with - | t
  · exact Nat.zero_le _
  · have hbefore : ¬ k ≤ lineOf nl text t := by
      rw [← starts_le_iff hk, hstart]
      exact Nat.not_succ_le_self t
    rw [lineOf_succ]
    split <;> omega

/-- A line that is not the first begins behind a line end. -/
theorem getElem?_start_pred (hk : k < (starts nl text).length) (hpos : 0 < k) :
    text[(starts nl text)[k] - 1]? = some nl := by
  have hstart := lineOf_start hk
  have hne : (starts nl text)[k] ≠ 0 := by
    intro hzero
    rw [hzero] at hstart
    exact absurd hstart.symm (Nat.ne_of_gt hpos)
  by_contra hother
  have hsucc := lineOf_succ nl text ((starts nl text)[k] - 1)
  rw [Nat.sub_add_cancel (Nat.one_le_iff_ne_zero.2 hne), if_neg hother, hstart] at hsucc
  have hle := (starts_le_iff hk).2 (Nat.le_of_eq hsucc)
  omega

/-- Where a line begins. -/
theorem start_eq_iff (hk : k < (starts nl text).length) :
    (starts nl text)[k] = i ↔ lineOf nl text i = k ∧ (i = 0 ∨ text[i - 1]? = some nl) := by
  constructor
  · rintro rfl
    refine ⟨lineOf_start hk, ?_⟩
    rcases Nat.eq_zero_or_pos k with rfl | hpos
    · exact .inl rfl
    · exact .inr (getElem?_start_pred hk hpos)
  · rintro ⟨hline, hbefore⟩
    refine Nat.le_antisymm ((starts_le_iff hk).2 (Nat.le_of_eq hline.symm)) ?_
    rcases hbefore with rfl | hbefore
    · exact Nat.zero_le _
    · by_contra hlt
      have hle := (starts_le_iff (i := i - 1) hk).1 (by omega)
      have hsucc := lineOf_succ nl text (i - 1)
      rw [if_pos hbefore, Nat.sub_add_cancel (by omega), hline] at hsucc
      omega

end Lines
