import Mathlib.Data.List.Nodup
import Mathlib.Data.List.Perm.Subperm
import Mathlib.Order.Defs.LinearOrder
import Mathlib.Order.Lattice

/-!
# Rankings by a key

`rankBy key l` sorts a list so that larger keys come first, stably: elements with equal keys stay in
the order they came in. So what a ranking says depends on the order of its input only through ties,
and the first `n` places depend on it exactly when a tie reaches into them: when two elements have
equal keys and fewer than `n` elements have a larger one (`take_rankBy_eq_iff`). Which elements are
there depends on it exactly when a tie lies across the cut (`take_rankBy_perm_iff`).

A list can also be sorted by a comparison (`sortBy`). One that compares keys orders the list
totally (`TotalOn.of_key`), which is what sorting it asks for.

Two questions are kept apart. Whether the first places are the *same list* for every order of the
input is asked by `take_rankBy_eq_iff`, and a tie among the first places is already in the way.
Whether they have the *same elements* is asked by `take_rankBy_perm_iff`, and only a tie across the
cut is.
-/

namespace Ranking

variable {α κ : Type} [LinearOrder κ] {key : α → κ} {l : List α} {l l' : List α} {n : ℕ}

/-- Sort by a key, larger keys first; a stable sort. -/
def rankBy (key : α → κ) (l : List α) : List α :=
  l.mergeSort fun a b ↦ decide (key b ≤ key a)

/-- How many elements have a larger key than this one. -/
def above (key : α → κ) (l : List α) (x : α) : ℕ :=
  l.countP fun z ↦ decide (key x < key z)

theorem rankBy_perm (key : α → κ) (l : List α) : (rankBy key l).Perm l :=
  List.mergeSort_perm l _

/-- The comparison of keys is transitive. -/
theorem decide_trans (a b c : α) (hab : decide (key b ≤ key a) = true)
    (hbc : decide (key c ≤ key b) = true) : decide (key c ≤ key a) = true := by
  rw [decide_eq_true_iff] at *
  exact le_trans hbc hab

theorem decide_total (a b : α) :
    (decide (key b ≤ key a) || decide (key a ≤ key b)) = true := by
  rw [Bool.or_eq_true, decide_eq_true_iff, decide_eq_true_iff]
  exact le_total _ _

theorem pairwise_rankBy (key : α → κ) (l : List α) :
    (rankBy key l).Pairwise fun a b ↦ key b ≤ key a := by
  have h : (rankBy key l).Pairwise fun a b ↦ decide (key b ≤ key a) = true :=
    List.pairwise_mergeSort decide_trans decide_total l
  exact h.imp fun hab ↦ of_decide_eq_true hab

theorem rankBy_of_pairwise (h : l.Pairwise fun a b ↦ key b ≤ key a) : rankBy key l = l :=
  List.mergeSort_of_pairwise (h.imp decide_eq_true)

/-- A map that keeps the keys keeps the places. -/
theorem map_rankBy {β : Type} {key' : β → κ} {f : α → β} (h : ∀ a, key' (f a) = key a)
    (l : List α) : (rankBy key l).map f = rankBy key' (l.map f) :=
  List.map_mergeSort fun a _ b _ ↦ by rw [h a, h b]

/-- Elements with equal keys stay in the order they came in. -/
theorem pairwise_rankBy_of_pairwise {R : α → α → Prop} (h : l.Pairwise R) :
    (rankBy key l).Pairwise fun a b ↦ key b < key a ∨ key a = key b ∧ R a b := by
  induction l with
  | nil => simp [rankBy]
  | cons a l ih =>
    obtain ⟨hfirst, hrest⟩ := List.pairwise_cons.1 h
    have hsorted := pairwise_rankBy key (a :: l)
    obtain ⟨before, after, hcons, hl, hlarger⟩ :=
      List.mergeSort_cons (@decide_trans α κ _ key) decide_total a l
    have hpairs := ih hrest
    have hperm := rankBy_perm key l
    rw [rankBy, hl] at hpairs hperm
    rw [rankBy, hcons] at hsorted ⊢
    obtain ⟨hbefore, hafter, hacross⟩ := List.pairwise_append.1 hpairs
    refine List.pairwise_append.2 ⟨hbefore, List.pairwise_cons.2 ⟨fun c hc ↦ ?_, hafter⟩,
      fun b hb c hc ↦ ?_⟩
    · have hle := (List.pairwise_cons.1 (List.pairwise_append.1 hsorted).2.1).1 c hc
      rcases lt_or_eq_of_le hle with hlt | heq
      · exact .inl hlt
      · exact .inr ⟨heq.symm, hfirst c (hperm.mem_iff.1 (List.mem_append_right _ hc))⟩
    · rcases List.mem_cons.1 hc with rfl | hc
      · have hnot := hlarger b hb
        rw [Bool.not_eq_true', decide_eq_false_iff_not] at hnot
        exact .inl (lt_of_not_ge hnot)
      · exact hacross b hb c hc

/-! ### Ties that stay out -/

/-- **Two sorted lists of the same elements begin alike**, as far as no tie reaches. -/
theorem take_eq_of_perm (hl : l.Pairwise fun a b ↦ key b ≤ key a)
    (hl' : l'.Pairwise fun a b ↦ key b ≤ key a) (hperm : l.Perm l')
    (hties : ∀ x ∈ l, ∀ y ∈ l, x ≠ y → key x = key y → n ≤ above key l x) :
    l.take n = l'.take n := by
  classical
  induction l generalizing l' n with
  | nil => rw [hperm.nil_eq]
  | cons x rest ih =>
    rcases l' with - | ⟨y, rest'⟩
    · exact absurd hperm.symm.nil_eq.symm (List.cons_ne_nil _ _)
    by_cases hxy : x = y
    · subst hxy
      rcases n with - | n
      · rfl
      rw [List.take_succ_cons, List.take_succ_cons,
        ih (List.pairwise_cons.1 hl).2 (List.pairwise_cons.1 hl').2 (List.perm_cons x |>.1 hperm)]
      intro a ha b hb hne heq
      have hcount := hties a (List.mem_cons_of_mem _ ha) b (List.mem_cons_of_mem _ hb) hne heq
      rw [above, List.countP_cons] at hcount
      show n ≤ above key rest a
      rw [above]
      split at hcount <;> omega
    · -- Both heads are largest, so they tie, and nothing is above them.
      have hy : y ∈ x :: rest := hperm.mem_iff.2 List.mem_cons_self
      have hx : x ∈ y :: rest' := hperm.mem_iff.1 List.mem_cons_self
      have hyx : key y ≤ key x := by
        rcases List.mem_cons.1 hy with rfl | hy
        · exact le_rfl
        · exact (List.pairwise_cons.1 hl).1 y hy
      have hxy' : key x ≤ key y := by
        rcases List.mem_cons.1 hx with rfl | hx
        · exact le_rfl
        · exact (List.pairwise_cons.1 hl').1 x hx
      have hcount := hties x List.mem_cons_self y hy hxy (le_antisymm hxy' hyx)
      have habove : above key (x :: rest) x = 0 := by
        refine List.countP_eq_zero.2 fun z hz ↦ ?_
        rw [decide_eq_true_iff, not_lt]
        rcases List.mem_cons.1 hz with rfl | hz
        · exact le_rfl
        · exact (List.pairwise_cons.1 hl).1 z hz
      rw [habove, Nat.le_zero] at hcount
      rw [hcount, List.take_zero, List.take_zero]

/-! ### Ties that reach in -/

/-- Of the elements with its key, the first of the input comes first. -/
theorem getElem?_rankBy_cons (x : α) (l : List α) :
    (rankBy key (x :: l))[above key (x :: l) x]? = some x := by
  obtain ⟨before, after, hsorted, -, hbefore⟩ :=
    List.mergeSort_cons (@decide_trans α κ _ key) decide_total x l
  have hrank : rankBy key (x :: l) = before ++ x :: after := hsorted
  have hpairwise := pairwise_rankBy key (x :: l)
  rw [hrank, List.pairwise_append] at hpairwise
  have hcount : above key (x :: l) x = before.length := by
    rw [above, ← (rankBy_perm key (x :: l)).countP_eq, hrank, List.countP_append,
      List.countP_eq_length.2, List.countP_eq_zero.2, Nat.add_zero]
    · intro z hz
      rw [decide_eq_true_iff, not_lt]
      rcases List.mem_cons.1 hz with rfl | hz
      · exact le_rfl
      · exact (List.pairwise_cons.1 hpairwise.2.1).1 z hz
    · intro z hz
      have h := hbefore z hz
      rw [Bool.not_eq_true', decide_eq_false_iff_not, not_le] at h
      exact decide_eq_true h
  rw [hrank, hcount, List.getElem?_append_right (Nat.le_refl _), Nat.sub_self]
  rfl

theorem above_perm (h : l.Perm l') (x : α) : above key l x = above key l' x :=
  h.countP_eq _

/-- **The first places of a ranking do not depend on the order of the input exactly when no tie
reaches into them.** -/
theorem take_rankBy_eq_iff :
    (∀ l₁ l₂, l₁.Perm l → l₂.Perm l → (rankBy key l₁).take n = (rankBy key l₂).take n) ↔
      ∀ x ∈ l, ∀ y ∈ l, x ≠ y → key x = key y → n ≤ above key l x := by
  classical
  constructor
  · intro h x hx y hy hne heq
    by_contra hlt
    rw [Nat.not_le] at hlt
    have hy' : y ∈ l.erase x := (List.mem_erase_of_ne hne.symm).2 hy
    -- The input with the two in front, in both orders.
    have hfirst : (x :: y :: (l.erase x).erase y).Perm l :=
      ((List.perm_cons_erase hy').symm.cons x).trans (List.perm_cons_erase hx).symm
    have hsecond : (y :: x :: (l.erase x).erase y).Perm l := (List.Perm.swap x y _).trans hfirst
    have habove : above key l y = above key l x := by
      rw [above, above, heq]
    have hx' : (rankBy key (x :: y :: (l.erase x).erase y))[_]? = some x := getElem?_rankBy_cons x _
    have hy'' : (rankBy key (y :: x :: (l.erase x).erase y))[_]? = some y :=
      getElem?_rankBy_cons y _
    rw [above_perm hfirst] at hx'
    rw [above_perm hsecond, habove] at hy''
    have hsame := congrArg (fun l' ↦ l'[above key l x]?) (h _ _ hfirst hsecond)
    simp only [List.getElem?_take_of_lt hlt, hx', hy'', Option.some.injEq] at hsame
    exact hne hsame
  · intro hties l₁ l₂ h₁ h₂
    have hperm₁ := (rankBy_perm key l₁).trans h₁
    refine take_eq_of_perm (pairwise_rankBy key l₁) (pairwise_rankBy key l₂)
      (hperm₁.trans ((rankBy_perm key l₂).trans h₂).symm) fun x hx y hy hne heq ↦ ?_
    rw [above_perm hperm₁]
    exact hties x (hperm₁.mem_iff.1 hx) y (hperm₁.mem_iff.1 hy) hne heq

theorem above_lt_length {x : α} (hx : x ∈ l) : above key l x < l.length :=
  Nat.lt_of_le_of_ne List.countP_le_length fun h ↦
    lt_irrefl (key x) (of_decide_eq_true (List.countP_eq_length.1 h x hx))

/-- Without ties between different elements, a ranking does not depend on the order of its input. -/
theorem rankBy_eq_of_perm (h : l.Perm l')
    (hties : ∀ x ∈ l, ∀ y ∈ l, key x = key y → x = y) : rankBy key l = rankBy key l' := by
  have hperm := (rankBy_perm key l).trans (h.trans (rankBy_perm key l').symm)
  have htake := take_eq_of_perm (n := l.length) (pairwise_rankBy key l) (pairwise_rankBy key l')
    hperm fun x hx y hy hne heq ↦ absurd
      (hties x ((rankBy_perm key l).mem_iff.1 hx) y ((rankBy_perm key l).mem_iff.1 hy) heq) hne
  rw [List.take_of_length_le (Nat.le_of_eq (rankBy_perm key l).length_eq),
    List.take_of_length_le (Nat.le_of_eq ((rankBy_perm key l').trans h.symm).length_eq)] at htake
  exact htake

/-- **A ranking does not depend on the order of its input exactly when no two elements tie.** -/
theorem rankBy_eq_iff : (∀ l₁ l₂, l₁.Perm l → l₂.Perm l → rankBy key l₁ = rankBy key l₂) ↔
      ∀ x ∈ l, ∀ y ∈ l, key x = key y → x = y := by
  constructor
  · intro h x hx y hy heq
    by_contra hne
    have hties := take_rankBy_eq_iff.1 (fun l₁ l₂ h₁ h₂ ↦
      congrArg (List.take l.length) (h l₁ l₂ h₁ h₂)) x hx y hy hne heq
    exact absurd hties (Nat.not_le.2 (above_lt_length hx))
  · intro hties l₁ l₂ h₁ h₂
    refine rankBy_eq_of_perm (h₁.trans h₂.symm) fun x hx y hy ↦ ?_
    exact hties x (h₁.mem_iff.1 hx) y (h₁.mem_iff.1 hy)

/-! ### Cuts -/

/-- How many elements have the key of this one. -/
def ties (key : α → κ) (l : List α) (x : α) : ℕ :=
  l.countP fun z ↦ decide (key z = key x)

/-- No tie lies across the first `n` places. -/
def CleanCut (key : α → κ) (l : List α) (n : ℕ) : Prop :=
  ∀ x ∈ l, n ≤ above key l x ∨ above key l x + ties key l x ≤ n

/-- Whether a cut is clean does not depend on the order. -/
theorem CleanCut.of_perm (h : CleanCut key l n) (hperm : l'.Perm l) : CleanCut key l' n := by
  intro x hx
  rw [above_perm hperm, ties, hperm.countP_eq]
  exact h x (hperm.mem_iff.1 hx)

/-- Those above and those with the same key are those that are not below. -/
theorem above_add_ties (key : α → κ) (l : List α) (x : α) :
    above key l x + ties key l x = l.countP fun z ↦ decide (key x ≤ key z) := by
  rw [above, ties]
  induction l with
  | nil => rfl
  | cons z l ih =>
    rw [List.countP_cons, List.countP_cons, List.countP_cons, ← ih]
    rcases lt_trichotomy (key x) (key z) with h | h | h
    · simp only [decide_eq_true h, decide_eq_true (le_of_lt h), decide_eq_false (ne_of_lt h).symm,
        if_true, Bool.false_eq_true, if_false]
      omega
    · simp only [h, lt_irrefl, le_refl, decide_true, decide_false, if_true, Bool.false_eq_true,
        if_false]
      omega
    · simp only [decide_eq_false (lt_asymm h), decide_eq_false (not_le_of_gt h),
        decide_eq_false (ne_of_lt h), Bool.false_eq_true, if_false]
      omega

/-- Where an element of a sorted list is. -/
theorem above_le_of_sorted {before after : List α} {x : α}
    (h : (before ++ x :: after).Pairwise fun a b ↦ key b ≤ key a) :
    above key (before ++ x :: after) x ≤ before.length ∧
      before.length < above key (before ++ x :: after) x + ties key (before ++ x :: after) x := by
  obtain ⟨-, hafter, hbefore⟩ := List.pairwise_append.1 h
  have hzero : (x :: after).countP (fun z ↦ decide (key x < key z)) = 0 := by
    refine List.countP_eq_zero.2 fun z hz ↦ ?_
    rw [decide_eq_true_iff, not_lt]
    rcases List.mem_cons.1 hz with rfl | hz
    · exact le_rfl
    · exact (List.pairwise_cons.1 hafter).1 z hz
  have hlength : above key before x + ties key before x = before.length := by
    rw [above_add_ties, List.countP_eq_length]
    exact fun z hz ↦ decide_eq_true (hbefore z hz x List.mem_cons_self)
  have hx : (x :: after).countP (fun z ↦ decide (key z = key x)) =
      after.countP (fun z ↦ decide (key z = key x)) + 1 :=
    List.countP_cons_of_pos (decide_eq_true rfl)
  rw [above, ties] at hlength
  rw [above, ties, List.countP_append, List.countP_append, hzero, hx]
  omega

/-- What a clean cut of a sorted list has. -/
theorem take_eq_filter (hl : l.Pairwise fun a b ↦ key b ≤ key a)
    (hcut : CleanCut key l n) : l.take n = l.filter fun x ↦ above key l x < n := by
  have hplace : ∀ i (hi : i < l.length), above key l l[i] < n ↔ i < n := by
    intro i hi
    have hsplit : l = l.take i ++ l[i] :: l.drop (i + 1) := by
      rw [← List.drop_eq_getElem_cons hi, List.take_append_drop]
    have hat := above_le_of_sorted (hsplit ▸ hl)
    rw [← hsplit, List.length_take_of_le (Nat.le_of_lt hi)] at hat
    rcases hcut l[i] (List.getElem_mem hi) with h | h <;> omega
  calc l.take n
    _ = (l.take n).filter (fun x ↦ decide (above key l x < n)) ++
          (l.drop n).filter fun x ↦ decide (above key l x < n) := by
        rw [List.filter_eq_self.2, List.filter_eq_nil_iff.2, List.append_nil]
        · intro x hx
          obtain ⟨i, hi, rfl⟩ := List.mem_iff_getElem.1 hx
          rw [List.length_drop] at hi
          rw [List.getElem_drop, decide_eq_true_iff, hplace]
          omega
        · intro x hx
          obtain ⟨i, hi, rfl⟩ := List.mem_iff_getElem.1 hx
          rw [List.length_take] at hi
          rw [List.getElem_take, decide_eq_true_iff, hplace]
          omega
    _ = l.filter fun x ↦ above key l x < n := by rw [← List.filter_append, List.take_append_drop]

/-- **The first places hold the same elements for every order of the input exactly when no tie lies
across them.** -/
theorem take_rankBy_perm_iff (hnodup : l.Nodup) :
    (∀ l₁ l₂, l₁.Perm l → l₂.Perm l → ((rankBy key l₁).take n).Perm ((rankBy key l₂).take n)) ↔
      CleanCut key l n := by
  classical
  constructor
  · intro h x hx
    by_contra hacross
    rw [not_or, Nat.not_le, Nat.not_le] at hacross
    -- Each element with such a key or a larger one is among them in some order, so in every one.
    have hfirst : ∀ y ∈ l, key x ≤ key y → y ∈ (rankBy key l).take n := by
      intro y hy hle
      have hperm : (y :: l.erase y).Perm l := (List.perm_cons_erase hy).symm
      have hplace : (rankBy key (y :: l.erase y))[_]? = some y := getElem?_rankBy_cons y _
      rw [above_perm hperm] at hplace
      have habove : above key l y ≤ above key l x :=
        List.countP_mono_left fun z _ hz ↦
          decide_eq_true (lt_of_le_of_lt hle (of_decide_eq_true hz))
      refine (h _ _ hperm (.refl l)).mem_iff.1 (List.mem_of_getElem? (i := above key l y) ?_)
      rw [List.getElem?_take_of_lt (Nat.lt_of_le_of_lt habove hacross.1), hplace]
    have hsub : (l.filter fun y ↦ decide (key x ≤ key y)).length ≤ n := by
      refine Nat.le_trans (List.Nodup.subperm (hnodup.filter _) fun y hy ↦ ?_).length_le
        (List.length_take_le n (rankBy key l))
      exact hfirst y (List.mem_of_mem_filter hy) (of_decide_eq_true (List.mem_filter.1 hy).2)
    rw [← List.countP_eq_length_filter, ← above_add_ties] at hsub
    omega
  · intro hcut l₁ l₂ h₁ h₂
    have hperm₁ := (rankBy_perm key l₁).trans h₁
    have hperm₂ := (rankBy_perm key l₂).trans h₂
    rw [take_eq_filter (pairwise_rankBy key l₁) (hcut.of_perm hperm₁),
      take_eq_filter (pairwise_rankBy key l₂) (hcut.of_perm hperm₂)]
    have habove : ∀ x, above key (rankBy key l₁) x = above key (rankBy key l₂) x := fun x ↦
      above_perm (hperm₁.trans hperm₂.symm) x
    simp only [habove]
    exact (hperm₁.trans hperm₂.symm).filter _

/-! ### Sorting by a comparison -/

section Comparison

variable {β : Type} {cmp : α → α → Ordering} {l : List α}

/-- Sort by a comparison, smaller elements first; a stable sort. -/
def sortBy (cmp : α → α → Ordering) (l : List α) : List α :=
  l.mergeSort fun a b ↦ (cmp a b).isLE

theorem sortBy_perm (cmp : α → α → Ordering) (l : List α) : (sortBy cmp l).Perm l :=
  List.mergeSort_perm l _

/-- The elements of a list are totally ordered by a comparison, up to those that it takes for
equal. -/
structure TotalOn (cmp : α → α → Ordering) (l : List α) : Prop where
  swap : ∀ a ∈ l, ∀ b ∈ l, cmp b a = (cmp a b).swap
  trans : ∀ a ∈ l, ∀ b ∈ l, ∀ c ∈ l,
    (cmp a b).isLE = true → (cmp b c).isLE = true → (cmp a c).isLE = true

/-- A comparison of keys orders a list, whatever it does elsewhere. -/
theorem TotalOn.of_key {cmp' : β → β → Ordering} [Std.TransCmp cmp'] (key : α → β)
    (h : ∀ a ∈ l, ∀ b ∈ l, cmp a b = cmp' (key a) (key b)) : TotalOn cmp l where
  swap a ha b hb := by
    rw [h a ha b hb, h b hb a ha]
    exact Std.OrientedCmp.eq_swap
  trans a ha b hb c hc hab hbc := by
    rw [h a ha b hb] at hab
    rw [h b hb c hc] at hbc
    rw [h a ha c hc]
    exact Std.TransCmp.isLE_trans hab hbc

end Comparison

end Ranking
