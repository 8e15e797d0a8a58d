import Mathlib.Data.Finset.Fold
import Mathlib.Data.Finset.Card
import Mathlib.Data.Finset.Dedup
import RustCodeMcp.Order.Ranking

/-!
# Iterations of a hash set

A hash set hands out its elements once each, in an order that it does not promise (`Iteration`).
What is computed from them is the same on every run when it depends on the set alone: a ranking
where no two elements tie (`rankBy_list_eq_iff`), and its first places where no tie lies across the
cut (`take_rankBy_list_iff`), where they hold what has too few elements above it (`firstOf`).

The order is a function of the set, one for each iteration: two sets with the same elements come in
the same order within an iteration, and in any other one in the next. A result that holds for two
iterations therefore says that a program gives the same when it is run again.
-/

namespace Ranking

variable {α κ : Type}

/-- In which order a hash set is iterated. -/
structure Iteration (α : Type) where
  list : Finset α → List α
  nodup : ∀ s, (list s).Nodup
  mem : ∀ s a, a ∈ list s ↔ a ∈ s

namespace Iteration

variable (it it' : Iteration α) {s : Finset α} {l : List α} {n : ℕ}

theorem perm (h : l.Nodup) (hmem : ∀ a, a ∈ l ↔ a ∈ s) : (it.list s).Perm l :=
  (List.perm_ext_iff_of_nodup (it.nodup s) h).2 fun a ↦ (it.mem s a).trans (hmem a).symm

theorem list_perm (s : Finset α) : (it.list s).Perm (it'.list s) :=
  it.perm (it'.nodup s) (it'.mem s)

instance : Nonempty (Iteration α) :=
  ⟨⟨Finset.toList, Finset.nodup_toList, fun _ _ ↦ Finset.mem_toList⟩⟩

/-- Every order can come. -/
theorem exists_list_eq (h : l.Nodup) (hmem : ∀ a, a ∈ l ↔ a ∈ s) :
    ∃ it : Iteration α, it.list s = l := by
  classical
  obtain ⟨it⟩ : Nonempty (Iteration α) := inferInstance
  refine ⟨⟨fun t ↦ if t = s then l else it.list t, fun t ↦ ?_, fun t a ↦ ?_⟩, if_pos rfl⟩
  · split
    · exact h
    · exact it.nodup t
  · split
    · rename_i ht
      rw [ht]
      exact hmem a
    · exact it.mem t a

/-- Every order of a part can come. -/
theorem exists_filter_list_eq {p : α → Bool} (h : l.Nodup) (hmem : ∀ a, a ∈ l ↔ a ∈ s ∧ p a) :
    ∃ it : Iteration α, (it.list s).filter p = l := by
  obtain ⟨base⟩ : Nonempty (Iteration α) := inferInstance
  have hdisjoint : ((base.list s).filter fun a ↦ !p a).Disjoint l := by
    intro a ha hal
    have hnot : (!p a) = true := (List.mem_filter.1 ha).2
    rw [((hmem a).1 hal).2] at hnot
    cases hnot
  obtain ⟨it, hit⟩ := exists_list_eq (s := s)
    (((base.nodup s).filter fun a ↦ !p a).append h hdisjoint) fun a ↦ by
      rw [List.mem_append, List.mem_filter, base.mem, hmem]
      cases p a <;> simp
  refine ⟨it, ?_⟩
  rw [hit, List.filter_append, List.filter_filter,
    List.filter_eq_self.2 fun a ha ↦ ((hmem a).1 ha).2]
  simp

/-- One element comes in one order. -/
theorem list_eq_of_perm (h : ∀ a ∈ s, ∀ b ∈ s, a = b) (hperm : (it.list s).Perm l) :
    it.list s = l :=
  hperm.eq_of_pairwise
    (fun a b ha hb (_ : True) _ ↦
      h a ((it.mem s a).1 ha) b ((it.mem s b).1 (hperm.mem_iff.2 hb)))
    (List.pairwise_of_forall fun _ _ ↦ trivial) (List.pairwise_of_forall fun _ _ ↦ trivial)

/-- **The first places are the same on every run exactly when there is nothing to choose.** -/
theorem take_list_eq_iff (hpos : 0 < n) :
    (∀ it it' : Iteration α, (it.list s).take n = (it'.list s).take n) ↔
      ∀ a ∈ s, ∀ b ∈ s, a = b := by
  classical
  obtain ⟨m, rfl⟩ := Nat.exists_eq_succ_of_ne_zero (Nat.ne_of_gt hpos)
  constructor
  · intro h a ha b hb
    have hfirst : ∀ c ∈ s, ∃ it : Iteration α, ∃ rest, it.list s = c :: rest := fun c hc ↦ by
      obtain ⟨it, hit⟩ := exists_list_eq (s := s) (l := c :: (s.erase c).toList)
        (List.nodup_cons.2 ⟨by simp, Finset.nodup_toList _⟩) fun d ↦ by
          by_cases hd : d = c
          · simp [hd, hc]
          · simp [hd]
      exact ⟨it, _, hit⟩
    obtain ⟨it, rest, hit⟩ := hfirst a ha
    obtain ⟨it', rest', hit'⟩ := hfirst b hb
    have heq := h it it'
    rw [hit, hit', List.take_succ_cons, List.take_succ_cons] at heq
    exact (List.cons.inj heq).1
  · intro h it it'
    rw [it.list_eq_of_perm h (it.list_perm it' s)]

theorem val_eq (s : Finset α) : s.val = (it.list s : Multiset α) := by
  rw [Multiset.coe_eq_coe.2 (it.perm (Finset.nodup_toList s) fun _ ↦ Finset.mem_toList),
    Finset.coe_toList]

theorem foldl_map_list (op : κ → κ → κ) [Std.Commutative op] [Std.Associative op] (b : κ)
    (f : α → κ) (s : Finset α) : ((it.list s).map f).foldl op b = s.fold op b f := by
  rw [Finset.fold, it.val_eq, Multiset.map_coe, Multiset.coe_fold_l]

end Iteration

/-! ### Rankings of a set -/

variable [LinearOrder κ] {key : α → κ} {s : Finset α} {n : ℕ}

/-- **A ranking of a set is the same on every run exactly when no two of its elements tie.** -/
theorem rankBy_list_eq_iff :
    (∀ it it' : Iteration α, rankBy key (it.list s) = rankBy key (it'.list s)) ↔
      ∀ x ∈ s, ∀ y ∈ s, key x = key y → x = y := by
  obtain ⟨base⟩ : Nonempty (Iteration α) := inferInstance
  have hexists : ∀ l, l.Perm (base.list s) → ∃ it : Iteration α, it.list s = l := fun l hl ↦
    Iteration.exists_list_eq (hl.nodup_iff.2 (base.nodup s)) fun a ↦ hl.mem_iff.trans (base.mem s a)
  constructor
  · intro h x hx y hy
    refine rankBy_eq_iff.1 (fun l₁ l₂ h₁ h₂ ↦ ?_) x ((base.mem s x).2 hx) y ((base.mem s y).2 hy)
    obtain ⟨it₁, rfl⟩ := hexists l₁ h₁
    obtain ⟨it₂, rfl⟩ := hexists l₂ h₂
    exact h it₁ it₂
  · intro h it it'
    refine rankBy_eq_of_perm (it.list_perm it' s) fun x hx y hy ↦ ?_
    exact h x ((it.mem s x).1 hx) y ((it.mem s y).1 hy)

/-- What has fewer than `n` elements above it. -/
def firstOf (key : α → κ) (s : Finset α) (n : ℕ) : Finset α :=
  s.filter fun x ↦ (s.filter fun z ↦ key x < key z).card < n

/-- No tie lies across the first `n` places. -/
def SharpCut (key : α → κ) (s : Finset α) (n : ℕ) : Prop :=
  ∀ x ∈ s, n ≤ (s.filter fun z ↦ key x < key z).card ∨
    (s.filter fun z ↦ key x ≤ key z).card ≤ n

theorem sharpCut_of_card_le (h : s.card ≤ n) : SharpCut key s n := fun _ _ ↦
  .inr ((Finset.card_filter_le _ _).trans h)

/-- How many elements satisfy a predicate does not depend on the order. -/
theorem countP_list (it : Iteration α) (p : α → Prop) [DecidablePred p] :
    (it.list s).countP (fun z ↦ decide (p z)) = (s.filter p).card := by
  rw [List.countP_eq_length_filter, Finset.card_def, Finset.filter_val, it.val_eq,
    Multiset.filter_coe, Multiset.coe_card]

/-- A cut of the iteration is clean exactly if that of the set is sharp. -/
theorem cleanCut_list (it : Iteration α) : CleanCut key (it.list s) n ↔ SharpCut key s n := by
  refine ⟨fun h x hx ↦ ?_, fun h x hx ↦ ?_⟩
  · have hcut := h x ((it.mem s x).2 hx)
    rwa [above_add_ties, above, countP_list, countP_list] at hcut
  · have hcut := h x ((it.mem s x).1 hx)
    rwa [above_add_ties, above, countP_list, countP_list]

/-- What a sharp cut leaves. -/
theorem toFinset_take_rankBy [DecidableEq α] {l : List α} (hnodup : l.Nodup)
    (hmem : ∀ a, a ∈ l ↔ a ∈ s) (h : SharpCut key s n) :
    ((rankBy key l).take n).toFinset = firstOf key s n := by
  obtain ⟨it, rfl⟩ := Iteration.exists_list_eq hnodup hmem
  have hperm := rankBy_perm key (it.list s)
  rw [take_eq_filter (pairwise_rankBy key _) (((cleanCut_list it).2 h).of_perm hperm)]
  ext x
  rw [List.mem_toFinset, List.mem_filter, hperm.mem_iff, it.mem, decide_eq_true_iff,
    above_perm hperm, above, countP_list, firstOf, Finset.mem_filter]

/-- **The first places hold the same elements on every run exactly when no tie lies across the
cut.** -/
theorem take_rankBy_list_iff [DecidableEq α] {p : α → Bool} {t : Finset α}
    (ht : ∀ a, a ∈ t ↔ a ∈ s ∧ p a) :
    (∀ it it' : Iteration α, ((rankBy key ((it.list s).filter p)).take n).toFinset =
      ((rankBy key ((it'.list s).filter p)).take n).toFinset) ↔ SharpCut key t n := by
  obtain ⟨base⟩ : Nonempty (Iteration α) := inferInstance
  rw [← cleanCut_list base, ← take_rankBy_perm_iff (base.nodup t)]
  constructor
  · intro h l₁ l₂ h₁ h₂
    have hexists : ∀ l, l.Perm (base.list t) → ∃ it : Iteration α, (it.list s).filter p = l :=
      fun l hl ↦ Iteration.exists_filter_list_eq (hl.nodup_iff.2 (base.nodup t)) fun a ↦
        hl.mem_iff.trans ((base.mem t a).trans (ht a))
    obtain ⟨it₁, rfl⟩ := hexists l₁ h₁
    obtain ⟨it₂, rfl⟩ := hexists l₂ h₂
    have hnodup : ∀ it : Iteration α, ((rankBy key ((it.list s).filter p)).take n).Nodup :=
      fun it ↦ ((rankBy_perm key _).nodup_iff.2 ((it.nodup s).filter p)).sublist
        (List.take_sublist n _)
    refine (List.perm_ext_iff_of_nodup (hnodup it₁) (hnodup it₂)).2 fun a ↦ ?_
    rw [← List.mem_toFinset, h it₁ it₂, List.mem_toFinset]
  · intro h it it'
    have hperm : ∀ it : Iteration α, ((it.list s).filter p).Perm (base.list t) := fun it ↦
      (List.perm_ext_iff_of_nodup ((it.nodup s).filter p) (base.nodup t)).2 fun a ↦ by
        rw [List.mem_filter, it.mem, base.mem, ht]
    exact List.toFinset_eq_of_perm _ _ (h _ _ (hperm it) (hperm it'))

end Ranking
