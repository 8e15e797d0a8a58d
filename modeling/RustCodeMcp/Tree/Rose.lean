import Mathlib.Algebra.BigOperators.Group.List.Basic
import Mathlib.Algebra.GroupWithZero.Nat
import Mathlib.Algebra.Order.BigOperators.Group.List
import Mathlib.Algebra.Order.Group.Nat
import Mathlib.Data.List.Basic
import Mathlib.Data.List.Perm.Basic

/-!
# Rose trees

A label with a list of trees below it. A tree is cut at a depth, or down to the branches that lead
to a label that is wanted. What is left of the cut is counted without making it (`size_prune`), and
what is left of the branches is told by the subtrees of the whole tree (`labels_keep`).

Each function has a companion on lists of trees, which is a `map`, a `flatMap`, a `filterMap` or a
sum (`sizeAll_eq` and so on), so that a proof by `Rose.induction` does not see it.

The root is at depth zero. Functions on trees are defined together with their companions, as the
recursion is nested; `Rose.induction` is the principle that hides this: what holds of a tree when it
holds of all its children holds of all trees.
-/

/-- A label, and the trees below it. -/
inductive Rose (α : Type*)
  | node (label : α) (children : List (Rose α))

namespace Rose

variable {α β : Type*}

/-- **What holds of a tree if it holds of its children** holds of every tree. -/
theorem induction {motive : Rose α → Prop}
    (h : ∀ a ts, (∀ t ∈ ts, motive t) → motive (node a ts)) (t : Rose α) : motive t :=
  @Rose.rec α motive (fun ts ↦ ∀ t ∈ ts, motive t) h (fun _ ht ↦ absurd ht List.not_mem_nil)
    (fun _ _ ht hts ↦ List.forall_mem_cons.2 ⟨ht, hts⟩) t

/-- The label at the root. -/
def label : Rose α → α
  | node a _ => a

/-- The trees below the root. -/
def children : Rose α → List (Rose α)
  | node _ ts => ts

mutual

/-- How many nodes the tree has. -/
def size : Rose α → ℕ
  | node _ ts => 1 + sizeAll ts

def sizeAll : List (Rose α) → ℕ
  | [] => 0
  | t :: ts => t.size + sizeAll ts

end

mutual

/-- How many nodes there are down to a depth; that of the root is `0`. -/
def sizeTo : Rose α → ℕ → ℕ
  | node _ _, 0 => 1
  | node _ ts, depth + 1 => 1 + sizeToAll ts depth

def sizeToAll : List (Rose α) → ℕ → ℕ
  | [], _ => 0
  | t :: ts, depth => t.sizeTo depth + sizeToAll ts depth

end

mutual

/-- What is no deeper. -/
def prune : Rose α → ℕ → Rose α
  | node a _, 0 => node a []
  | node a ts, depth + 1 => node a (pruneAll ts depth)

def pruneAll : List (Rose α) → ℕ → List (Rose α)
  | [], _ => []
  | t :: ts, depth => t.prune depth :: pruneAll ts depth

end

mutual

/-- The labels, each before those below it. -/
def labels : Rose α → List α
  | node a ts => a :: labelsAll ts

def labelsAll : List (Rose α) → List α
  | [] => []
  | t :: ts => t.labels ++ labelsAll ts

end

mutual

/-- The tree and all trees in it, in the order of their labels. -/
def subtrees : Rose α → List (Rose α)
  | node a ts => node a ts :: subtreesAll ts

def subtreesAll : List (Rose α) → List (Rose α)
  | [] => []
  | t :: ts => t.subtrees ++ subtreesAll ts

end

mutual

/-- The branches that lead to a label that is wanted. -/
def keep (p : α → Bool) : Rose α → Option (Rose α)
  | node a ts => if p a || !(keepAll p ts).isEmpty then some (node a (keepAll p ts)) else none

def keepAll (p : α → Bool) : List (Rose α) → List (Rose α)
  | [] => []
  | t :: ts =>
    match t.keep p with
    | some t => t :: keepAll p ts
    | none => keepAll p ts

end

/-- The sizes of several trees add up. -/
theorem sizeAll_eq (ts : List (Rose α)) : sizeAll ts = (ts.map size).sum := by
  induction ts with
  | nil => rfl
  | cons t ts ih => rw [sizeAll, ih, List.map_cons, List.sum_cons]

theorem sizeToAll_eq (ts : List (Rose α)) (depth : ℕ) :
    sizeToAll ts depth = (ts.map fun t ↦ t.sizeTo depth).sum := by
  induction ts with
  | nil => rfl
  | cons t ts ih => rw [sizeToAll, ih, List.map_cons, List.sum_cons]

/-- Several trees are cut one by one. -/
theorem pruneAll_eq (ts : List (Rose α)) (depth : ℕ) :
    pruneAll ts depth = ts.map fun t ↦ t.prune depth := by
  induction ts with
  | nil => rfl
  | cons t ts ih => rw [pruneAll, ih, List.map_cons]

/-- Their labels come one tree after the other. -/
theorem labelsAll_eq (ts : List (Rose α)) : labelsAll ts = ts.flatMap labels := by
  induction ts with
  | nil => rfl
  | cons t ts ih => rw [labelsAll, ih, List.flatMap_cons]

theorem subtreesAll_eq (ts : List (Rose α)) : subtreesAll ts = ts.flatMap subtrees := by
  induction ts with
  | nil => rfl
  | cons t ts ih => rw [subtreesAll, ih, List.flatMap_cons]

/-- Trees without a wanted label are left out. -/
theorem keepAll_eq (p : α → Bool) (ts : List (Rose α)) : keepAll p ts = ts.filterMap (keep p) := by
  induction ts with
  | nil => rfl
  | cons t ts ih =>
    rw [keepAll, ih, List.filterMap_cons]
    cases t.keep p <;> rfl

theorem flatMap_labels_filterMap {γ : Type*} (f : γ → Option (Rose α)) (l : List γ) :
    (l.filterMap f).flatMap labels = l.flatMap fun c ↦ (f c).elim [] labels := by
  induction l with
  | nil => rfl
  | cons c l ih =>
    rw [List.filterMap_cons, List.flatMap_cons, ← ih]
    cases f c <;> rfl

/-! ### Depths -/

/-- **What is left of a cut** is counted without making it. -/
theorem size_prune (t : Rose α) : ∀ depth, (t.prune depth).size = t.sizeTo depth := by
  induction t using induction with
  | h a ts ih =>
    intro depth
    cases depth with
    | zero => rfl
    | succ depth =>
      rw [prune, size, sizeTo, sizeAll_eq, sizeToAll_eq, pruneAll_eq, List.map_map]
      exact congrArg (1 + List.sum ·) (List.map_congr_left fun t ht ↦ ih t ht depth)

/-- There is no less down to a greater depth. -/
theorem sizeTo_mono (t : Rose α) : ∀ {depth depth' : ℕ}, depth ≤ depth' →
    t.sizeTo depth ≤ t.sizeTo depth' := by
  induction t using induction with
  | h a ts ih =>
    intro depth depth' h
    cases depth with
    | zero => cases depth' with
      | zero => exact Nat.le_refl _
      | succ depth' => exact Nat.le_add_right 1 _
    | succ depth => cases depth' with
      | zero => exact absurd h (Nat.not_succ_le_zero _)
      | succ depth' =>
        rw [sizeTo, sizeTo, sizeToAll_eq, sizeToAll_eq]
        exact Nat.add_le_add_left
          (List.sum_le_sum fun t ht ↦ ih t ht (Nat.le_of_succ_le_succ h)) 1

/-- No tree is deeper than it is large. -/
theorem sizeTo_of_size_le (t : Rose α) : ∀ {depth : ℕ}, t.size ≤ depth + 1 →
    t.sizeTo depth = t.size := by
  induction t using induction with
  | h a ts ih =>
    intro depth h
    rw [size, sizeAll_eq] at h
    cases depth with
    | zero =>
      have hzero : (ts.map size).sum = 0 := by omega
      rw [size, sizeAll_eq, hzero]
      rfl
    | succ depth =>
      rw [sizeTo, size, sizeAll_eq, sizeToAll_eq]
      refine congrArg (1 + List.sum ·) (List.map_congr_left fun t ht ↦ ih t ht ?_)
      have hle := List.single_le_sum (fun n _ ↦ Nat.zero_le n) t.size (List.mem_map_of_mem ht)
      omega

/-! ### Branches -/

/-- The labels are those of the subtrees. -/
theorem labels_eq_map (t : Rose α) : t.labels = t.subtrees.map label := by
  induction t using induction with
  | h a ts ih =>
    rw [labels, subtrees, labelsAll_eq, subtreesAll_eq, List.map_cons, List.map_flatMap]
    exact congrArg (a :: ·) (List.flatMap_congr fun t ht ↦ ih t ht)

theorem label_mem_labels (t : Rose α) : t.label ∈ t.labels := by
  cases t
  rw [labels]
  exact List.mem_cons_self

/-- A subtree has no other labels. -/
theorem labels_subset (t : Rose α) : ∀ s ∈ t.subtrees, s.labels ⊆ t.labels := by
  induction t using induction with
  | h a ts ih =>
    intro s hs
    rw [subtrees, subtreesAll_eq, List.mem_cons, List.mem_flatMap] at hs
    obtain rfl | ⟨t, ht, hs⟩ := hs
    · exact List.Subset.refl _
    · intro b hb
      rw [labels, labelsAll_eq]
      exact List.mem_cons_of_mem a (List.mem_flatMap.2 ⟨t, ht, ih t ht s hs hb⟩)

/-- A tree is kept if a label in it is wanted. -/
theorem isSome_keep (p : α → Bool) (t : Rose α) : (t.keep p).isSome = t.labels.any p := by
  induction t using induction with
  | h a ts ih =>
    have hall : ((keepAll p ts).isEmpty = false) ↔ (labelsAll ts).any p := by
      rw [keepAll_eq, labelsAll_eq, List.any_flatMap, List.any_eq_true]
      simp only [← Bool.not_eq_true, List.isEmpty_iff, List.filterMap_eq_nil_iff, not_forall]
      refine exists_congr fun t ↦ ?_
      rw [exists_prop, and_congr_right_iff]
      intro ht
      rw [← ih t ht]
      exact Option.isSome_iff_ne_none.symm
    rw [keep, labels, List.any_cons, Bool.eq_iff_iff]
    split <;> simp_all

/-- A node is kept with what is kept of its children. -/
theorem keep_node (p : α → Bool) (a : α) (ts : List (Rose α)) :
    (node a ts).keep p =
      if (node a ts).labels.any p then some (node a (keepAll p ts)) else none := by
  rw [← isSome_keep, keep]
  split <;> rfl

/-- **What is left of the branches**: the nodes with a wanted label at or below them, in their
order. -/
theorem labels_keep (p : α → Bool) (t : Rose α) :
    (t.keep p).elim [] labels = (t.subtrees.filter fun s ↦ s.labels.any p).map label := by
  induction t using induction with
  | h a ts ih =>
    have hall : labelsAll (keepAll p ts) =
        ((subtreesAll ts).filter fun s ↦ s.labels.any p).map label := by
      rw [keepAll_eq, labelsAll_eq, subtreesAll_eq, List.filter_flatMap, List.map_flatMap,
        flatMap_labels_filterMap]
      exact List.flatMap_congr ih
    rw [keep_node, subtrees, List.filter_cons]
    split
    · rw [List.map_cons, ← hall]
      rfl
    · -- no label below a root is wanted that is not so below its tree
      rename_i hnone
      refine (List.map_eq_nil_iff.2 (List.filter_eq_nil_iff.2 fun s hs hany ↦ hnone ?_)).symm
      obtain ⟨b, hb, hp⟩ := List.any_eq_true.1 hany
      refine List.any_eq_true.2 ⟨b, labels_subset (node a ts) s ?_ hb, hp⟩
      rw [subtrees]
      exact List.mem_cons_of_mem _ hs

end Rose
