import Mathlib.Data.List.Basic
import Mathlib.Data.List.Nodup

/-!
# Pools

A pool is a list whose members are named by their positions and change one at a time: the threads of
a process, the slots of a table. How many members satisfy a predicate changes by at most one when a
member changes (`countP_set_add`), which is how the counters kept beside a pool are shown to be
right; and a count of at most one makes the member unique (`eq_of_countP_le_one`).

Positions are never reused: a member that is gone leaves a member that says so, and a new one is put
at the end. Two lemmas tell what a pool holds at a position after a change (`getElem?_set_cases`)
and after an addition (`getElem?_concat_cases`).
-/

namespace Pool

variable {α : Type*} {p : α → Bool} {l : List α} {i j : ℕ} {a b : α}

/-- The count with a member changed, stated without subtraction. -/
theorem countP_set_add (p : α → Bool) (b : α) (h : l[i]? = some a) :
    (l.set i b).countP p + (p a).toNat = l.countP p + (p b).toNat := by
  obtain ⟨hlt, rfl⟩ := List.getElem?_eq_some_iff.1 h
  have hpos : (p l[i]).toNat ≤ l.countP p := by
    rcases hp : p l[i] with - | -
    · exact Nat.zero_le _
    · exact List.countP_pos_iff.2 ⟨l[i], List.getElem_mem hlt, hp⟩
  have hite : ∀ c : Bool, (if c = true then 1 else 0) = c.toNat := fun c ↦ by cases c <;> rfl
  rw [List.countP_set hlt, hite, hite]
  omega

theorem countP_pos_of_getElem? (h : l[i]? = some a) (hp : p a = true) : 0 < l.countP p :=
  List.countP_pos_iff.2 ⟨a, List.mem_of_getElem? h, hp⟩

theorem exists_of_countP_pos (h : 0 < l.countP p) : ∃ (i : ℕ) (a : α), l[i]? = some a ∧
    p a = true := by
  obtain ⟨a, ha, hp⟩ := List.countP_pos_iff.1 h
  obtain ⟨i, hi⟩ := List.mem_iff_getElem?.1 ha
  exact ⟨i, a, hi, hp⟩

/-- **A predicate that counts at most one member names it.** -/
theorem eq_of_countP_le_one (h : l.countP p ≤ 1) (hi : l[i]? = some a) (hpa : p a = true)
    (hj : l[j]? = some b) (hpb : p b = true) : i = j := by
  induction l generalizing i j with
  | nil => simp at hi
  | cons c l ih =>
    rw [List.countP_cons] at h
    rcases i with - | i <;> rcases j with - | j
    · rfl
    · obtain rfl : c = a := by simpa using hi
      have := countP_pos_of_getElem? (l := l) (by simpa using hj) hpb
      rw [if_pos hpa] at h
      omega
    · obtain rfl : c = b := by simpa using hj
      have := countP_pos_of_getElem? (l := l) (by simpa using hi) hpa
      rw [if_pos hpb] at h
      omega
    · have heq : i = j := ih (by omega) (by simpa using hi) (by simpa using hj)
      rw [heq]

/-- What a changed pool holds at a position. -/
theorem getElem?_set_cases {k : ℕ} {c : α} (h : (l.set i b)[k]? = some c) :
    k = i ∧ c = b ∨ k ≠ i ∧ l[k]? = some c := by
  rw [List.getElem?_set] at h
  split_ifs at h with hik hlt
  · exact .inl ⟨hik.symm, (Option.some.inj h).symm⟩
  · exact .inr ⟨fun heq ↦ hik heq.symm, h⟩

/-- What a grown pool holds at a position. -/
theorem getElem?_concat_cases (h : (l ++ [b])[i]? = some a) : l[i]? = some a ∨ a = b := by
  rcases Nat.lt_or_ge i l.length with hlt | hge
  · exact .inl (by rwa [List.getElem?_append_left hlt] at h)
  · rw [List.getElem?_append_right hge] at h
    exact .inr (List.mem_singleton.1 (List.mem_of_getElem? h))

/-- A pool that grows keeps its members where they are. -/
theorem getElem?_concat (b : α) (h : l[i]? = some a) : (l ++ [b])[i]? = some a := by
  rwa [List.getElem?_append_left (List.getElem?_eq_some_iff.1 h).1]

end Pool
