import Mathlib.Data.List.Basic
import Mathlib.Order.Basic
import Mathlib.Order.Lattice

/-!
# Increasing lists

Lists in which every entry is less than those behind it: the rows of an ordered table. Two of them
can be compared in one pass (`without_cons_cons`, `without_cons_of_lt`, `without_cons_right`), and
one can be read on from its last entry (`filter_lt_append_cons`).

The loop of such a comparison has one case for each of these lemmas, and they are stated in the form
in which the loop asks for them: by the first entries of both lists.
-/

namespace Increasing

open List

variable {α : Type*} [LinearOrder α] {a b : α} {l r done rest : List α}

/-- The entries of one list that the other lacks. -/
def without (l r : List α) : List α :=
  l.filter fun a ↦ a ∉ r

@[simp] theorem nil_without : without [] r = [] := rfl

@[simp] theorem without_nil : without l [] = l := by
  simp [without]

theorem mem_without : a ∈ without l r ↔ a ∈ l ∧ a ∉ r := by
  simp [without]

/-- An entry of both. -/
theorem without_cons_cons (hl : (a :: l).Pairwise (· < ·)) (hr : (a :: r).Pairwise (· < ·)) :
    without (a :: l) (a :: r) = without l r ∧ without (a :: r) (a :: l) = without r l := by
  have hlt := (pairwise_cons.1 hl).1
  have hrt := (pairwise_cons.1 hr).1
  have hne : ∀ {l r : List α}, (∀ b ∈ l, a < b) → without (a :: l) (a :: r) = without l r := by
    intro l r hlt
    rw [without, filter_cons_of_neg (by simp)]
    refine filter_congr fun b hb ↦ ?_
    simp [(hlt b hb).ne']
  exact ⟨hne hlt, hne hrt⟩

/-- What is less than all entries is none of them. -/
theorem notMem_of_lt (h : ∀ b ∈ r, a < b) : a ∉ r := fun ha ↦ lt_irrefl a (h a ha)

/-- An entry that is less than all of the other list. -/
theorem without_cons_of_lt (h : ∀ b ∈ r, a < b) : without (a :: l) r = a :: without l r := by
  rw [without, filter_cons_of_pos (by simpa using notMem_of_lt h), without]

/-- An entry that is less than all of the list takes nothing away from it. -/
theorem without_cons_right (h : ∀ b ∈ l, a < b) : without l (a :: r) = without l r := by
  refine filter_congr fun b hb ↦ ?_
  simp [(h b hb).ne']

/-- What is less than the first is less than all of them. -/
theorem lt_of_pairwise_cons (h : (b :: r).Pairwise (· < ·)) (hab : a < b) :
    ∀ c ∈ b :: r, a < c := by
  refine forall_mem_cons.2 ⟨hab, fun c hc ↦ ?_⟩
  exact hab.trans ((pairwise_cons.1 h).1 c hc)

/-- **What lies behind an entry is what is greater.** -/
theorem filter_lt_append_cons (h : (done ++ a :: rest).Pairwise (· < ·)) :
    (done ++ a :: rest).filter (a < ·) = rest := by
  obtain ⟨-, hrest, hdone⟩ := pairwise_append.1 h
  rw [filter_append, filter_cons_of_neg (by simp)]
  have hnil : done.filter (a < ·) = [] := by
    refine filter_eq_nil_iff.2 fun b hb ↦ ?_
    simpa using (hdone b hb a mem_cons_self).le
  have hall : rest.filter (a < ·) = rest := by
    refine filter_eq_self.2 fun b hb ↦ ?_
    simpa using (pairwise_cons.1 hrest).1 b hb
  rw [hnil, hall, nil_append]

end Increasing
