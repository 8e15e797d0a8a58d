import RustCodeMcp.Order.Grouping
import Mathlib.Data.List.Perm.Basic

/-!
# The pairs of a list

`collect g l` goes over all pairs of elements of `l`, the earlier one first. When `g` does not tell
the two apart, the order of the list does not matter (`collect_perm`), and the pairs of a list that
is cut into groups are those within a group and those across two (`collect_within`,
`collect_across`).

Pairs are looked for within groups because there are fewer of them: elements with different keys
need not be compared. The two theorems at the end say what is lost by that, which is nothing for
pairs that need equal keys, and all of the others.
-/

namespace Pairs

open Grouping
open scoped List

variable {α β κ : Type} {g g' : α → α → Option β} {l : List α}

/-- `for i in 0..n { for j in (i + 1)..n { .. } }` -/
def pairsOf : List α → List (α × α)
  | [] => []
  | a :: l => l.map (fun b ↦ (a, b)) ++ pairsOf l

/-- What the pairs of a list give. -/
def collect (g : α → α → Option β) (l : List α) : List β :=
  (pairsOf l).filterMap fun p ↦ g p.1 p.2

/-- The pairs across two lists. -/
def cross (g : α → α → Option β) (l l' : List α) : List β :=
  l.flatMap fun a ↦ l'.filterMap (g a)

/-- The pairs with the first element, and those of the rest. -/
theorem collect_cons (g : α → α → Option β) (a : α) (l : List α) :
    collect g (a :: l) = l.filterMap (g a) ++ collect g l := by
  rw [collect, pairsOf, List.filterMap_append, List.filterMap_map]
  rfl

theorem mem_of_mem_pairsOf {p : α × α} (h : p ∈ pairsOf l) : p.1 ∈ l ∧ p.2 ∈ l := by
  induction l with
  | nil => exact absurd h List.not_mem_nil
  | cons a l ih =>
    rcases List.mem_append.1 h with h | h
    · obtain ⟨b, hb, rfl⟩ := List.mem_map.1 h
      exact ⟨List.mem_cons_self, List.mem_cons_of_mem _ hb⟩
    · exact (ih h).imp (List.mem_cons_of_mem _) (List.mem_cons_of_mem _)

theorem collect_congr (h : ∀ a ∈ l, ∀ b ∈ l, g a b = g' a b) : collect g l = collect g' l :=
  List.filterMap_congr fun p hp ↦ h p.1 (mem_of_mem_pairsOf hp).1 p.2 (mem_of_mem_pairsOf hp).2

theorem cross_congr {l l' : List α} (h : ∀ a ∈ l, ∀ b ∈ l', g a b = g' a b) :
    cross g l l' = cross g' l l' :=
  List.flatMap_congr fun a ha ↦ List.filterMap_congr fun b hb ↦ h a ha b hb

theorem collect_eq_nil (h : ∀ a ∈ l, ∀ b ∈ l, g a b = none) : collect g l = [] :=
  List.filterMap_eq_nil_iff.2 fun p hp ↦
    h p.1 (mem_of_mem_pairsOf hp).1 p.2 (mem_of_mem_pairsOf hp).2

theorem cross_eq_nil {l l' : List α} (h : ∀ a ∈ l, ∀ b ∈ l', g a b = none) :
    cross g l l' = [] :=
  List.flatMap_eq_nil_iff.2 fun a ha ↦ List.filterMap_eq_nil_iff.2 fun b hb ↦ h a ha b hb

/-- What holds between an element and all later ones holds in a pair. -/
theorem rel_of_mem_pairsOf {R : α → α → Prop} (h : l.Pairwise R) {p : α × α}
    (hp : p ∈ pairsOf l) : R p.1 p.2 := by
  induction l with
  | nil => exact absurd hp List.not_mem_nil
  | cons a l ih =>
    rcases List.mem_append.1 hp with hp | hp
    · obtain ⟨b, hb, rfl⟩ := List.mem_map.1 hp
      exact (List.pairwise_cons.1 h).1 b hb
    · exact ih (List.pairwise_cons.1 h).2 hp

/-- Two kinds of pairs. -/
theorem collect_or (h : ∀ a b, g a b = none ∨ g' a b = none) (l : List α) :
    (collect g l ++ collect g' l).Perm (collect (fun a b ↦ (g a b).or (g' a b)) l) := by
  rw [collect, collect, collect]
  induction pairsOf l with
  | nil => exact .refl _
  | cons p ps ih =>
    rw [List.filterMap_cons, List.filterMap_cons, List.filterMap_cons]
    rcases h p.1 p.2 with hnone | hnone
    · rw [hnone, Option.none_or]
      rcases g' p.1 p.2 with - | c
      · exact ih
      · exact List.perm_middle.trans (ih.cons c)
    · rw [hnone, Option.or_none]
      rcases g p.1 p.2 with - | c
      · exact ih
      · exact ih.cons c

/-- **The order of the list does not matter** to the pairs. -/
theorem collect_perm (hsymm : ∀ a b, g a b = g b a) {l l' : List α} (h : l.Perm l') :
    (collect g l).Perm (collect g l') := by
  induction h with
  | nil => exact .refl _
  | cons a h ih =>
    rw [collect_cons, collect_cons]
    exact (h.filterMap _).append ih
  | swap a b l =>
    rw [collect_cons, collect_cons, collect_cons, collect_cons, List.filterMap_cons,
      List.filterMap_cons, hsymm b a]
    rcases g a b with - | c
    · rw [← List.append_assoc, ← List.append_assoc]
      exact List.perm_append_comm.append_right _
    · show (c :: (l.filterMap (g b) ++ (l.filterMap (g a) ++ collect g l))).Perm
        (c :: (l.filterMap (g a) ++ (l.filterMap (g b) ++ collect g l)))
      rw [← List.append_assoc, ← List.append_assoc]
      exact (List.perm_append_comm.append_right _).cons c
  | trans _ _ ih ih' => exact ih.trans ih'

theorem cross_nil (g : α → α → Option β) (l : List α) : cross g l [] = [] :=
  List.flatMap_eq_nil_iff.2 fun _ _ ↦ rfl

/-- The pairs with the elements of two lists in turn. -/
theorem cross_append (g : α → α → Option β) (l m m' : List α) :
    (cross g l (m ++ m')).Perm (cross g l m ++ cross g l m') := by
  induction l with
  | nil => exact .refl _
  | cons a l ih =>
    show ((m ++ m').filterMap (g a) ++ cross g l (m ++ m')).Perm
      ((m.filterMap (g a) ++ cross g l m) ++ (m'.filterMap (g a) ++ cross g l m'))
    rw [List.filterMap_append]
    calc m.filterMap (g a) ++ m'.filterMap (g a) ++ cross g l (m ++ m') ~
        m.filterMap (g a) ++ m'.filterMap (g a) ++ (cross g l m ++ cross g l m') :=
          ih.append_left _
      _ = m.filterMap (g a) ++ ((m'.filterMap (g a) ++ cross g l m) ++ cross g l m') := by
          simp only [List.append_assoc]
      _ ~ m.filterMap (g a) ++ ((cross g l m ++ m'.filterMap (g a)) ++ cross g l m') :=
          (List.perm_append_comm.append_right _).append_left _
      _ = _ := by simp only [List.append_assoc]

/-- The pairs of two lists in turn: those of each, and those across. -/
theorem collect_append (g : α → α → Option β) (l l' : List α) :
    (collect g (l ++ l')).Perm (collect g l ++ cross g l l' ++ collect g l') := by
  induction l with
  | nil => exact .refl _
  | cons a l ih =>
    show (collect g (a :: (l ++ l'))).Perm
      (collect g (a :: l) ++ (l'.filterMap (g a) ++ cross g l l') ++ collect g l')
    rw [collect_cons, collect_cons, List.filterMap_append]
    calc l.filterMap (g a) ++ l'.filterMap (g a) ++ collect g (l ++ l') ~
        l.filterMap (g a) ++ l'.filterMap (g a) ++ (collect g l ++ cross g l l' ++ collect g l') :=
          ih.append_left _
      _ = l.filterMap (g a) ++
          ((l'.filterMap (g a) ++ collect g l) ++ (cross g l l' ++ collect g l')) := by
          simp only [List.append_assoc]
      _ ~ l.filterMap (g a) ++
          ((collect g l ++ l'.filterMap (g a)) ++ (cross g l l' ++ collect g l')) :=
          (List.perm_append_comm.append_right _).append_left _
      _ = _ := by simp only [List.append_assoc]

/-- **The pairs of a list that is cut into groups.** -/
theorem collect_flatten (g : α → α → Option β) (groups : List (List α)) :
    (collect g groups.flatten).Perm
      (groups.flatMap (collect g) ++ (pairsOf groups).flatMap fun p ↦ cross g p.1 p.2) := by
  have hcross : ∀ (l : List α) (groups : List (List α)),
      (cross g l groups.flatten).Perm (groups.flatMap (cross g l)) := by
    intro l groups
    induction groups with
    | nil => exact .of_eq (cross_nil g l)
    | cons m groups ih => exact (cross_append g l m _).trans (ih.append_left _)
  induction groups with
  | nil => exact .refl _
  | cons l groups ih =>
    rw [List.flatten_cons, List.flatMap_cons, pairsOf, List.flatMap_append, List.flatMap_map]
    refine (collect_append g l _).trans ?_
    calc collect g l ++ cross g l groups.flatten ++ collect g groups.flatten ~
        collect g l ++ groups.flatMap (cross g l) ++ (groups.flatMap (collect g) ++
          (pairsOf groups).flatMap fun p ↦ cross g p.1 p.2) :=
          ((hcross l groups).append_left _).append ih
      _ = collect g l ++ ((groups.flatMap (cross g l) ++ groups.flatMap (collect g)) ++
          (pairsOf groups).flatMap fun p ↦ cross g p.1 p.2) := by simp only [List.append_assoc]
      _ ~ collect g l ++ ((groups.flatMap (collect g) ++ groups.flatMap (cross g l)) ++
          (pairsOf groups).flatMap fun p ↦ cross g p.1 p.2) :=
          (List.perm_append_comm.append_right _).append_left _
      _ = _ := by simp only [List.append_assoc]

/-! ### Groups of a key -/

section Groups

variable [DecidableEq κ] {key : α → κ} {l : List α} {groups : List (κ × List α)}

/-- An element is in the group of its key. -/
theorem key_of_mem_group (h : groups.Perm (groupBy key l)) {group : κ × List α}
    (hgroup : group ∈ groups) {a : α} (ha : a ∈ group.2) : key a = group.1 := by
  rw [(groups_groupBy key l).values group (h.mem_iff.1 hgroup)] at ha
  exact of_decide_eq_true (List.mem_filter.1 ha).2

/-- The pairs of a list, from its groups. -/
theorem collect_groupBy (hsymm : ∀ a b, g a b = g b a) (h : groups.Perm (groupBy key l)) :
    (collect g l).Perm ((groups.map Prod.snd).flatMap (collect g) ++
      (pairsOf (groups.map Prod.snd)).flatMap fun p ↦ cross g p.1 p.2) := by
  have hflatten : (groups.map Prod.snd).flatten.Perm l :=
    (h.map _).flatten.trans (flatten_groupBy key l)
  exact (collect_perm hsymm hflatten.symm).trans (collect_flatten g _)

/-- Elements of two groups have different keys. -/
theorem keys_of_mem_pairsOf (h : groups.Perm (groupBy key l)) {p : List α × List α}
    (hp : p ∈ pairsOf (groups.map Prod.snd)) {a b : α} (ha : a ∈ p.1) (hb : b ∈ p.2) :
    key a ≠ key b := by
  have hnodup : (groups.map Prod.fst).Nodup := (h.map _).nodup_iff.2 (groups_groupBy key l).nodup
  have hapart : (groups.map Prod.snd).Pairwise fun m m' ↦ ∀ a ∈ m, ∀ b ∈ m', key a ≠ key b := by
    rw [List.pairwise_map]
    refine (List.pairwise_map.1 hnodup).imp_of_mem fun hm hm' hne a ha b hb heq ↦ hne ?_
    rw [← key_of_mem_group h hm ha, heq, key_of_mem_group h hm' hb]
  exact rel_of_mem_pairsOf hapart hp a ha b hb

/-- **The pairs with equal keys** are those within the groups. -/
theorem collect_within (hsymm : ∀ a b, g a b = g b a) (hkey : ∀ a b, key a ≠ key b → g a b = none)
    (h : groups.Perm (groupBy key l)) :
    (collect g l).Perm (groups.flatMap fun group ↦ collect g group.2) := by
  have hacross : ((pairsOf (groups.map Prod.snd)).flatMap fun p ↦ cross g p.1 p.2) = [] :=
    List.flatMap_eq_nil_iff.2 fun p hp ↦
      cross_eq_nil fun a ha b hb ↦ hkey a b (keys_of_mem_pairsOf h hp ha hb)
  have hpairs := collect_groupBy hsymm h
  rw [hacross, List.append_nil, List.flatMap_map] at hpairs
  exact hpairs

/-- **The pairs with different keys** are those across two groups. -/
theorem collect_across (hsymm : ∀ a b, g a b = g b a) (hkey : ∀ a b, key a = key b → g a b = none)
    (h : groups.Perm (groupBy key l)) :
    (collect g l).Perm ((pairsOf (groups.map Prod.snd)).flatMap fun p ↦ cross g p.1 p.2) := by
  have hwithin : (groups.map Prod.snd).flatMap (collect g) = [] := by
    refine List.flatMap_eq_nil_iff.2 fun m hm ↦ ?_
    obtain ⟨group, hgroup, rfl⟩ := List.mem_map.1 hm
    refine collect_eq_nil fun a ha b hb ↦ hkey a b ?_
    rw [key_of_mem_group h hgroup ha, key_of_mem_group h hgroup hb]
  have hpairs := collect_groupBy hsymm h
  rw [hwithin, List.nil_append] at hpairs
  exact hpairs

end Groups

end Pairs
