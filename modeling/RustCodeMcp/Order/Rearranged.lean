import Mathlib.Data.List.MinMax
import Mathlib.Data.List.Perm.Subperm

/-!
# Lists up to their order

Lists compared key by key, two images of one list, and the least element of two lists together.

Lists that are collected from a hash map, or key by key, are known up to their order only. What is
shown here is how much of them is known then.

The first part goes by keys: a list is known up to its order when the elements of each key are. The
second asks when two functions give the same list up to its order, and the third which of several
least elements is the first.
-/

namespace RustCodeMcp.Rearranged

variable {α β κ : Type}

/-! ### Key by key -/

/-- What is contained in a list key by key is contained in it. -/
theorem subperm_of_filter [DecidableEq α] [DecidableEq κ] (key : α → κ) {l l' : List α}
    (h : ∀ x ∈ l, (l.filter fun y ↦ key y = key x).Subperm (l'.filter fun y ↦ key y = key x)) :
    l.Subperm l' := by
  refine List.subperm_ext_iff.2 fun x hx ↦ ?_
  have hcount := (h x hx).count_le x
  have hfilter : ∀ ys : List α, (ys.filter fun y ↦ key y = key x).count x = ys.count x := fun ys ↦
    List.count_filter (decide_eq_true rfl)
  rwa [hfilter, hfilter] at hcount

theorem perm_of_filter [DecidableEq α] [DecidableEq κ] (key : α → κ) {l l' : List α}
    (h : ∀ x, x ∈ l ∨ x ∈ l' →
      (l.filter fun y ↦ key y = key x).Perm (l'.filter fun y ↦ key y = key x)) : l.Perm l' :=
  (subperm_of_filter key fun x hx ↦ (h x (.inl hx)).subperm).antisymm
    (subperm_of_filter key fun x hx ↦ (h x (.inr hx)).symm.subperm)

/-- Where a list contains another of the same length key by key, the two agree at each key. -/
theorem filter_perm_of_length_eq [DecidableEq α] [DecidableEq κ] (key : α → κ) {l l' : List α}
    (h : ∀ x ∈ l, (l.filter fun y ↦ key y = key x).Subperm (l'.filter fun y ↦ key y = key x))
    (hlength : l.length = l'.length) (k : κ) :
    (l.filter fun y ↦ key y = k).Perm (l'.filter fun y ↦ key y = k) :=
  ((subperm_of_filter key h).perm_of_length_le hlength.ge).filter _

/-! ### Two images -/

/-- Two functions give rearranged images only where they agree, when an element that they take to
different values is the only one that the first takes to the value of the second. -/
theorem map_perm_map_iff {f g : α → β} {l : List α} {p : α → Bool}
    (hsame : ∀ x ∈ l, p x = false → f x = g x)
    (hkey : ∀ x ∈ l, ∀ y ∈ l, p x = true → p y = true → f y = g x → f x = g x) :
    (l.map f).Perm (l.map g) ↔ ∀ x ∈ l, f x = g x := by
  constructor
  · intro hperm x hx
    cases hpx : p x with
    | false => exact hsame x hx hpx
    | true =>
      -- the others have the same image under both, and can be left out
      have hsplit : ∀ h : α → β, (l.map h).Perm
          ((l.filter p).map h ++ (l.filter fun y ↦ !p y).map h) := fun h ↦ by
        rw [← List.map_append]
        exact ((List.filter_append_perm p l).map h).symm
      have hrest : (l.filter fun y ↦ !p y).map f = (l.filter fun y ↦ !p y).map g :=
        List.map_congr_left fun y hy ↦ by
          obtain ⟨hmem, hpy⟩ := List.mem_filter.1 hy
          exact hsame y hmem (Bool.not_eq_true' _ ▸ hpy)
      have hpicked : ((l.filter p).map f).Perm ((l.filter p).map g) := by
        have hboth := (hsplit f).symm.trans (hperm.trans (hsplit g))
        rw [hrest] at hboth
        exact (List.perm_append_right_iff _).1 hboth
      have hmem : g x ∈ (l.filter p).map f :=
        hpicked.mem_iff.2 (List.mem_map_of_mem (List.mem_filter.2 ⟨hx, hpx⟩))
      obtain ⟨y, hy, heq⟩ := List.mem_map.1 hmem
      exact hkey x hx y (List.mem_filter.1 hy).1 hpx (List.mem_filter.1 hy).2 heq
  · exact fun h ↦ .of_eq (List.map_congr_left h)

/-! ### The least element -/

/-- The first of the least elements of two lists is that of the first list, unless the second has
a smaller one. -/
theorem argmin_append {γ : Type} [LinearOrder γ] (f : α → γ) (l l' : List α) :
    (l ++ l').argmin f = match l.argmin f, l'.argmin f with
      | none, other => other
      | some own, none => some own
      | some own, some other => if f other < f own then some other else some own := by
  induction l' using List.reverseRecOn with
  | nil =>
    rw [List.append_nil, List.argmin_nil]
    cases l.argmin f <;> rfl
  | append_singleton l' last ih =>
    rw [← List.append_assoc, List.argmin_concat, List.argmin_concat, ih]
    cases l.argmin f with
    | none => rfl
    | some own =>
      cases l'.argmin f with
      | none => rfl
      | some other =>
        show Option.rec (some last) _ (if f other < f own then some other else some own) =
          match some own, if f last < f other then some last else some other with
          | none, other => other
          | some own, none => some own
          | some own, some other => if f other < f own then some other else some own
        by_cases hother : f other < f own
        · rw [if_pos hother]
          show (if f last < f other then some last else some other) = _
          by_cases hlast : f last < f other
          · rw [if_pos hlast]
            exact (if_pos (hlast.trans hother)).symm
          · rw [if_neg hlast]
            exact (if_pos hother).symm
        · rw [if_neg hother]
          show (if f last < f own then some last else some own) = _
          by_cases hlast : f last < f other
          · rw [if_pos hlast]
          · rw [if_neg hlast, if_neg fun h ↦ hlast (h.trans_le (not_lt.1 hother))]
            exact (if_neg hother).symm

end RustCodeMcp.Rearranged
