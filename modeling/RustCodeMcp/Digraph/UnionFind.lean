import Mathlib.Data.List.Basic
import Mathlib.Order.Nat
import Mathlib.Logic.Function.Basic

/-!
# Union-find with path halving

A forest is a function that takes an element to its parent and a root to itself. `find` goes to the
root, and on its way hangs every element it stops at from the parent of its parent. This moves no
root (`rootOf_halve`). What ends the loop is a rank that is zero at the roots and falls towards
them; a link raises the ranks by one at most, so after `n` unions `n + 1` rounds are enough.

The elements that have one root after some unions are those that every map identifies which
identifies the pairs (`same_unions`, `eq_of_same_unions`).

**The algorithm keeps no ranks** and links the roots as they come; they are chosen in the proof,
from what a link does to the heights, and serve only to bound the loop.

The results, for any parents and any pairs:

* `rootOf_halve`: moving a parent up by one on the way of a search changes the root of nobody, so
  that a search may rewrite the parents as it goes;
* `same_unions`: the two elements of each pair come to have one root;
* `eq_of_same_unions`: and no elements do that no chain of pairs connects.
-/

namespace UnionFind

variable {ι β : Type} [DecidableEq ι] {parent : ι → ι} {rank : ι → ℕ} {height : ℕ} {x y r s : ι}
  {fuel : ℕ}

/-- `while parent[x] != x`, so many times at most. -/
def find : ℕ → (ι → ι) → ι → ι × (ι → ι)
  | 0, parent, x => (x, parent)
  | fuel + 1, parent, x =>
    if parent x = x then (x, parent)
    else find fuel (Function.update parent x (parent (parent x))) (parent (parent x))

/-- The two elements are found, and one root is hung from the other. -/
def union (fuel : ℕ) (parent : ι → ι) (a b : ι) : ι → ι :=
  let (ra, parent) := find fuel parent a
  let (rb, parent) := find fuel parent b
  if ra ≠ rb then Function.update parent ra rb else parent

/-- Unions of some pairs, one after another. -/
def unions (fuel : ℕ) (parent : ι → ι) (pairs : List (ι × ι)) : ι → ι :=
  pairs.foldl (fun parent p ↦ union fuel parent p.1 p.2) parent

/-! ### Roots -/

/-- The root above an element. -/
inductive RootOf (parent : ι → ι) : ι → ι → Prop
  | root {x : ι} (h : parent x = x) : RootOf parent x x
  | step {x r : ι} (h : parent x ≠ x) (hr : RootOf parent (parent x) r) : RootOf parent x r

/-- The two elements have one root. -/
def Same (parent : ι → ι) (x y : ι) : Prop :=
  ∃ r, RootOf parent x r ∧ RootOf parent y r

/-- Ranks are zero at the roots, fall towards them, and are no more than `height`. -/
structure Ranked (parent : ι → ι) (rank : ι → ℕ) (height : ℕ) : Prop where
  root : ∀ x, parent x = x → rank x = 0
  lt : ∀ x, parent x ≠ x → rank (parent x) < rank x
  le : ∀ x, rank x ≤ height

omit [DecidableEq ι] in
theorem RootOf.isRoot (h : RootOf parent x r) : parent r = r := by
  induction h with
  | root h => exact h
  | step _ _ ih => exact ih

omit [DecidableEq ι] in
theorem RootOf.eq (h : RootOf parent x r) (hs : RootOf parent x s) : r = s := by
  induction h with
  | root h =>
    cases hs with
    | root => rfl
    | step hne => exact absurd h hne
  | step hne _ ih =>
    cases hs with
    | root h => exact absurd h hne
    | step _ hs => exact ih hs

omit [DecidableEq ι] in
/-- An element and its parent have the same root. -/
theorem rootOf_parent : RootOf parent (parent x) r ↔ RootOf parent x r := by
  by_cases h : parent x = x
  · rw [h]
  · refine ⟨.step h, fun hr ↦ ?_⟩
    cases hr with
    | root hroot => exact absurd hroot h
    | step _ hr => exact hr

omit [DecidableEq ι] in
/-- With ranks every element has a root. -/
theorem Ranked.exists_rootOf (h : Ranked parent rank height) (x : ι) :
    ∃ r, RootOf parent x r := by
  induction hn : rank x using Nat.strongRecOn generalizing x with
  | _ n ih =>
    by_cases hx : parent x = x
    · exact ⟨x, .root hx⟩
    · obtain ⟨r, hr⟩ := ih _ (hn ▸ h.lt x hx) (parent x) rfl
      exact ⟨r, .step hx hr⟩

omit [DecidableEq ι] in
theorem Same.eq (h : Same parent x y) (hr : RootOf parent x r) (hs : RootOf parent y s) :
    r = s := by
  obtain ⟨t, hx, hy⟩ := h
  rw [hr.eq hx, hs.eq hy]

omit [DecidableEq ι] in
theorem Same.symm (h : Same parent x y) : Same parent y x := by
  obtain ⟨r, hx, hy⟩ := h
  exact ⟨r, hy, hx⟩

omit [DecidableEq ι] in
theorem Same.trans {z : ι} (h : Same parent x y) (h' : Same parent y z) : Same parent x z := by
  obtain ⟨r, hx, hy⟩ := h
  obtain ⟨s, hy', hz⟩ := h'
  exact ⟨r, hx, hy.eq hy' ▸ hz⟩

/-! ### Halving -/

theorem rank_grandparent_lt (h : Ranked parent rank height) (hx : parent x ≠ x) :
    rank (parent (parent x)) < rank x := by
  by_cases hp : parent (parent x) = parent x
  · rw [hp]
    exact h.lt x hx
  · exact (h.lt _ hp).trans (h.lt x hx)

theorem Ranked.halve (h : Ranked parent rank height) (hx : parent x ≠ x) :
    Ranked (Function.update parent x (parent (parent x))) rank height where
  root y hy := by
    rcases eq_or_ne y x with rfl | hyx
    · rw [Function.update_self] at hy
      exact absurd (hy ▸ rank_grandparent_lt h hx) (lt_irrefl _)
    · rw [Function.update_of_ne hyx] at hy
      exact h.root y hy
  lt y hy := by
    rcases eq_or_ne y x with rfl | hyx
    · rw [Function.update_self]
      exact rank_grandparent_lt h hx
    · rw [Function.update_of_ne hyx] at hy ⊢
      exact h.lt y hy
  le := h.le

/-- **Halving moves no root.** -/
theorem rootOf_halve (h : Ranked parent rank height) (hx : parent x ≠ x) :
    RootOf (Function.update parent x (parent (parent x))) y r ↔ RootOf parent y r := by
  have hmp : ∀ {y r}, RootOf (Function.update parent x (parent (parent x))) y r →
      RootOf parent y r := by
    intro y r hr
    induction hr with
    | @root y hy =>
      rcases eq_or_ne y x with rfl | hyx
      · rw [Function.update_self] at hy
        exact absurd (hy ▸ rank_grandparent_lt h hx) (lt_irrefl _)
      · rw [Function.update_of_ne hyx] at hy
        exact .root hy
    | @step y r _ _ ih =>
      rcases eq_or_ne y x with rfl | hyx
      · rw [Function.update_self, rootOf_parent, rootOf_parent] at ih
        exact ih
      · rw [Function.update_of_ne hyx, rootOf_parent] at ih
        exact ih
  refine ⟨hmp, fun hr ↦ ?_⟩
  obtain ⟨s, hs⟩ := (h.halve hx).exists_rootOf y
  rw [hr.eq (hmp hs)]
  exact hs

/-- `find` comes to the root, if it has as many turns as ranks, and changes no root. -/
theorem find_spec (h : Ranked parent rank height) (hfuel : rank x < fuel) :
    RootOf parent x (find fuel parent x).1 ∧ Ranked (find fuel parent x).2 rank height ∧
      ∀ y r, RootOf (find fuel parent x).2 y r ↔ RootOf parent y r := by
  induction fuel generalizing parent x with
  | zero => exact absurd hfuel (Nat.not_lt_zero _)
  | succ fuel ih =>
    rw [find]
    by_cases hx : parent x = x
    · rw [if_pos hx]
      exact ⟨.root hx, h, fun _ _ ↦ Iff.rfl⟩
    · rw [if_neg hx]
      have hlt := rank_grandparent_lt h hx
      obtain ⟨hroot, hranked, hsame⟩ := ih (x := parent (parent x)) (h.halve hx) (by omega)
      refine ⟨?_, hranked, fun y r ↦ (hsame y r).trans (rootOf_halve h hx)⟩
      rw [rootOf_halve h hx, rootOf_parent, rootOf_parent] at hroot
      exact hroot

/-! ### Links -/

section Link

variable {ra rb : ι}

/-- Hanging one root from another moves the elements below it. -/
theorem rootOf_link (hra : parent ra = ra) (hrb : parent rb = rb) (hne : ra ≠ rb)
    (h : RootOf parent x r) :
    RootOf (Function.update parent ra rb) x (if r = ra then rb else r) := by
  induction h with
  | @root x hx =>
    rcases eq_or_ne x ra with rfl | hxa
    · rw [if_pos rfl]
      refine .step (by rw [Function.update_self]; exact hne.symm) ?_
      rw [Function.update_self]
      exact .root (by rw [Function.update_of_ne hne.symm, hrb])
    · rw [if_neg hxa]
      exact .root (by rw [Function.update_of_ne hxa, hx])
  | @step x r hx _ ih =>
    have hxa : x ≠ ra := by
      rintro rfl
      exact hx hra
    refine .step (by rw [Function.update_of_ne hxa]; exact hx) ?_
    rw [Function.update_of_ne hxa]
    exact ih

open Classical in
theorem Ranked.link (h : Ranked parent rank height) (hra : parent ra = ra) (hrb : parent rb = rb)
    (hne : ra ≠ rb) :
    Ranked (Function.update parent ra rb)
      (fun y ↦ if RootOf parent y ra then rank y + 1 else rank y) (height + 1) where
  root y hy := by
    have hya : y ≠ ra := by
      rintro rfl
      rw [Function.update_self] at hy
      exact hne hy.symm
    rw [Function.update_of_ne hya] at hy
    rw [if_neg fun hr ↦ hya ((RootOf.root hy).eq hr), h.root y hy]
  lt y hy := by
    rcases eq_or_ne y ra with rfl | hya
    · rw [Function.update_self, if_neg fun hr ↦ hne (hr.eq (.root hrb)), if_pos (.root hra),
        h.root rb hrb]
      exact Nat.succ_pos _
    · rw [Function.update_of_ne hya] at hy ⊢
      have hlt := h.lt y hy
      simp only [rootOf_parent]
      split <;> omega
  le y := by
    have hle := h.le y
    split <;> omega

end Link

/-! ### Unions -/

/-- After a union the two roots are one, and all others as they were. -/
theorem union_spec {a b : ι} (h : Ranked parent rank height) (hfuel : height < fuel) :
    (∃ rank', Ranked (union fuel parent a b) rank' (height + 1)) ∧
      ∃ ra rb, RootOf parent a ra ∧ RootOf parent b rb ∧
        ∀ {x r}, RootOf parent x r →
          RootOf (union fuel parent a b) x (if r = ra then rb else r) := by
  obtain ⟨hra, hranked, hsame⟩ := find_spec h (x := a) ((h.le a).trans_lt hfuel)
  obtain ⟨hrb, hranked', hsame'⟩ := find_spec hranked (x := b) ((h.le b).trans_lt hfuel)
  set ra := (find fuel parent a).1
  set parent₁ := (find fuel parent a).2
  set rb := (find fuel parent₁ b).1
  set parent₂ := (find fuel parent₁ b).2
  have hroots : ∀ x r, RootOf parent₂ x r ↔ RootOf parent x r := fun x r ↦
    (hsame' x r).trans (hsame x r)
  rw [hsame] at hrb
  have hunion : union fuel parent a b =
      if ra ≠ rb then Function.update parent₂ ra rb else parent₂ := rfl
  rw [hunion]
  have hra' : parent₂ ra = ra := ((hroots ra ra).2 (.root hra.isRoot)).isRoot
  have hrb' : parent₂ rb = rb := ((hroots rb rb).2 (.root hrb.isRoot)).isRoot
  by_cases hne : ra ≠ rb
  · rw [if_pos hne]
    exact ⟨⟨_, hranked'.link hra' hrb' hne⟩, ra, rb, hra, hrb, fun hr ↦
      rootOf_link hra' hrb' hne ((hroots _ _).2 hr)⟩
  · rw [if_neg hne]
    refine ⟨⟨rank, hranked'.root, hranked'.lt, fun x ↦ (hranked'.le x).trans (Nat.le_succ _)⟩, ra,
      rb, hra, hrb, fun {x r} hr ↦ ?_⟩
    rw [hroots]
    split
    · rename_i heq
      rw [← not_not.1 hne, ← heq]
      exact hr
    · exact hr

/-- The two elements of a union have one root. -/
theorem same_union {a b : ι} (h : Ranked parent rank height) (hfuel : height < fuel) :
    Same (union fuel parent a b) a b := by
  obtain ⟨-, ra, rb, ha, hb, hroots⟩ := union_spec h hfuel (a := a) (b := b)
  have ha' := hroots ha
  have hb' := hroots hb
  rw [if_pos rfl] at ha'
  rw [ite_self] at hb'
  exact ⟨rb, ha', hb'⟩

/-- What had one root before has one still. -/
theorem Same.union {a b : ι} (hsame : Same parent x y) (h : Ranked parent rank height)
    (hfuel : height < fuel) : Same (union fuel parent a b) x y := by
  obtain ⟨-, ra, rb, -, -, hroots⟩ := union_spec h hfuel (a := a) (b := b)
  obtain ⟨r, hx, hy⟩ := hsame
  exact ⟨_, hroots hx, hroots hy⟩

/-- A map that identifies the elements of each tree, and the two that are united. -/
theorem eq_of_same_union {a b : ι} (h : Ranked parent rank height)
    (hfuel : height < fuel) {f : ι → β} (hf : ∀ {x y}, Same parent x y → f x = f y)
    (hab : f a = f b) (hsame : Same (UnionFind.union fuel parent a b) x y) : f x = f y := by
  obtain ⟨-, ra, rb, ha, hb, hroots⟩ := union_spec h hfuel (a := a) (b := b)
  obtain ⟨r, hx⟩ := h.exists_rootOf x
  obtain ⟨s, hy⟩ := h.exists_rootOf y
  have hrs := hsame.eq (hroots hx) (hroots hy)
  have hfab : f ra = f rb :=
    (hf ⟨ra, ha, .root ha.isRoot⟩).symm.trans (hab.trans (hf ⟨rb, hb, .root hb.isRoot⟩))
  have hmoved : ∀ t, f (if t = ra then rb else t) = f t := by
    intro t
    split
    · rename_i ht
      rw [ht, hfab]
    · rfl
  calc f x = f r := hf ⟨r, hx, .root hx.isRoot⟩
    _ = f (if r = ra then rb else r) := (hmoved r).symm
    _ = f (if s = ra then rb else s) := by rw [hrs]
    _ = f s := hmoved s
    _ = f y := (hf ⟨s, hy, .root hy.isRoot⟩).symm

/-- Unions keep ranks, one higher each. -/
theorem exists_ranked_unions {pairs : List (ι × ι)} (h : Ranked parent rank height)
    (hfuel : height + pairs.length ≤ fuel) :
    ∃ rank', Ranked (unions fuel parent pairs) rank' (height + pairs.length) := by
  induction pairs generalizing parent rank height with
  | nil => exact ⟨rank, h⟩
  | cons p pairs ih =>
    rw [List.length_cons] at hfuel ⊢
    obtain ⟨⟨rank', h'⟩, -⟩ := union_spec h (by omega : height < fuel) (a := p.1) (b := p.2)
    obtain ⟨rank'', h''⟩ := ih h' (by omega)
    exact ⟨rank'', by rw [← Nat.add_assoc, Nat.add_right_comm]; exact h''⟩

/-- What had one root before some unions has one after them. -/
theorem Same.unions {pairs : List (ι × ι)} (hsame : Same parent x y)
    (h : Ranked parent rank height) (hfuel : height + pairs.length ≤ fuel) :
    Same (unions fuel parent pairs) x y := by
  induction pairs generalizing parent rank height with
  | nil => exact hsame
  | cons p pairs ih =>
    rw [List.length_cons] at hfuel
    obtain ⟨⟨rank', h'⟩, -⟩ := union_spec h (by omega : height < fuel) (a := p.1) (b := p.2)
    exact ih (hsame.union h (by omega)) h' (by omega)

/-- **The two elements of each pair come to have one root.** -/
theorem same_unions {pairs : List (ι × ι)} (h : Ranked parent rank height)
    (hfuel : height + pairs.length ≤ fuel) {p : ι × ι} (hp : p ∈ pairs) :
    Same (unions fuel parent pairs) p.1 p.2 := by
  induction pairs generalizing parent rank height with
  | nil => exact absurd hp List.not_mem_nil
  | cons q pairs ih =>
    rw [List.length_cons] at hfuel
    obtain ⟨⟨rank', h'⟩, -⟩ := union_spec h (by omega : height < fuel) (a := q.1) (b := q.2)
    rcases List.mem_cons.1 hp with rfl | hp
    · exact (same_union h (by omega)).unions h' (by omega)
    · exact ih h' (by omega) hp

/-- **No others do.** -/
theorem eq_of_same_unions {pairs : List (ι × ι)} (h : Ranked parent rank height)
    (hfuel : height + pairs.length ≤ fuel) {f : ι → β} (hf : ∀ {x y}, Same parent x y → f x = f y)
    (hpairs : ∀ p ∈ pairs, f p.1 = f p.2) (hsame : Same (UnionFind.unions fuel parent pairs) x y) :
    f x = f y := by
  induction pairs generalizing parent rank height with
  | nil => exact hf hsame
  | cons p pairs ih =>
    rw [List.length_cons] at hfuel
    obtain ⟨⟨rank', h'⟩, -⟩ := union_spec h (by omega : height < fuel) (a := p.1) (b := p.2)
    exact ih h' (by omega)
      (fun hsame' ↦ eq_of_same_union h (by omega) hf (hpairs p List.mem_cons_self) hsame')
      (fun q hq ↦ hpairs q (List.mem_cons_of_mem _ hq)) hsame

/-! ### From single elements -/

omit [DecidableEq ι] in
/-- At first every element is a root of rank zero. -/
theorem ranked_id : Ranked (id : ι → ι) (fun _ ↦ 0) 0 where
  root _ _ := rfl
  lt _ h := absurd rfl h
  le _ := Nat.le_refl _

omit [DecidableEq ι] in
/-- At first no two elements have one root. -/
theorem same_id : Same (id : ι → ι) x y ↔ x = y := by
  refine ⟨fun h ↦ h.eq (.root rfl) (.root rfl), ?_⟩
  rintro rfl
  exact ⟨x, .root rfl, .root rfl⟩

end UnionFind
