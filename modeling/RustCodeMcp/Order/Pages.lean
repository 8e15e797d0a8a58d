import RustCodeMcp.Order.Ranking
import Mathlib.Algebra.Order.Group.Nat
import Mathlib.Data.List.Range

/-!
# Pages of a ranking

Each page is cut out of a ranking of its own, and the rankings are of one list in different orders.
The pages together are the list exactly when no tie lies across the end of a page
(`pages_iff`).

A page that is asked for on its own is cut out of a ranking that was made for it. If equal keys come
in another order the next time, an element can be on two pages, and another on none; it takes two
elements on both sides of the end of a page, and no more than that.
-/

namespace Ranking

variable {α κ : Type} [LinearOrder κ] {key : α → κ} {limit : ℕ}

/-- The `k`-th page of a list. -/
def page (limit : ℕ) (l : List α) (k : ℕ) : List α :=
  (l.drop (k * limit)).take limit

/-- The first pages, the `k`-th from its own list. -/
def pages (limit : ℕ) (lists : ℕ → List α) (calls : ℕ) : List α :=
  (List.range calls).flatMap fun k ↦ page limit (lists k) k

theorem pages_succ (lists : ℕ → List α) (calls : ℕ) :
    pages limit lists (calls + 1) = pages limit lists calls ++ page limit (lists calls) calls := by
  rw [pages, List.range_succ, List.flatMap_append, List.flatMap_singleton]
  rfl

theorem take_succ_mul (l : List α) (k : ℕ) :
    l.take ((k + 1) * limit) = l.take (k * limit) ++ page limit l k := by
  rw [page, Nat.succ_mul, List.take_add]

/-- Pages of one list are its beginning. -/
theorem pages_const (l : List α) (calls : ℕ) :
    pages limit (fun _ ↦ l) calls = l.take (calls * limit) := by
  induction calls with
  | zero => rw [Nat.zero_mul, List.take_zero]; rfl
  | succ calls ih => rw [pages_succ, ih, take_succ_mul]

/-- One list for the first pages and another for the rest. -/
theorem pages_ite (l l' : List α) (k calls : ℕ) :
    pages limit (fun i ↦ if i < k then l else l') (k + calls) =
      l.take (k * limit) ++ (l'.drop (k * limit)).take (calls * limit) := by
  induction calls with
  | zero =>
    rw [Nat.zero_mul, List.take_zero, List.append_nil, Nat.add_zero, ← pages_const]
    refine List.flatMap_congr fun i hi ↦ ?_
    show page limit (if i < k then l else l') i = _
    rw [if_pos (List.mem_range.1 hi)]
  | succ calls ih =>
    rw [← Nat.add_assoc, pages_succ, ih, if_neg (by omega), take_succ_mul, ← List.append_assoc,
      page, page, List.drop_drop, Nat.add_mul]

/-- Pages of a list, where every cut is clean. -/
theorem pages_spec {l : List α} (hnodup : l.Nodup) (hcut : ∀ k, CleanCut key l (k * limit))
    {lists : ℕ → List α} (hlists : ∀ k, (lists k).Perm l) (calls : ℕ) :
    (pages limit (fun k ↦ rankBy key (lists k)) calls).Perm
        ((rankBy key l).take (calls * limit)) ∧
      (pages limit (fun k ↦ rankBy key (lists k)) calls).map key =
        ((rankBy key l).map key).take (calls * limit) := by
  have hkeys : ∀ k, (rankBy key (lists k)).map key = (rankBy key l).map key := by
    intro k
    have hperm : ((rankBy key (lists k)).map key).Perm ((rankBy key l).map key) :=
      (((rankBy_perm key _).trans (hlists k)).trans (rankBy_perm key l).symm).map key
    exact hperm.eq_of_pairwise (fun _ _ _ _ hab hba ↦ le_antisymm hba hab)
      (List.pairwise_map.2 (pairwise_rankBy key _)) (List.pairwise_map.2 (pairwise_rankBy key l))
  induction calls with
  | zero => simp [pages]
  | succ calls ih =>
    have hfirst := (take_rankBy_perm_iff hnodup).2 (hcut calls) _ _ (hlists calls) (.refl l)
    have hnext := (take_rankBy_perm_iff hnodup).2 (hcut (calls + 1)) _ _ (hlists calls) (.refl l)
    rw [pages_succ]
    constructor
    · refine List.Perm.trans ?_ hnext
      rw [take_succ_mul]
      exact (ih.1.trans hfirst.symm).append_right _
    · rw [List.map_append, ih.2, page, List.map_take, List.map_drop, hkeys, take_succ_mul]
      rfl

/-- **The pages are the list, in its order, exactly when no tie lies across the end of one.** -/
theorem pages_iff {l : List α} (hnodup : l.Nodup) :
    (∀ lists : ℕ → List α, (∀ k, (lists k).Perm l) → ∀ calls, l.length ≤ calls →
      (pages limit (fun k ↦ rankBy key (lists k)) calls).Perm l ∧
        (pages limit (fun k ↦ rankBy key (lists k)) calls).Pairwise fun a b ↦ key b ≤ key a) ↔
      (limit = 0 → l = []) ∧ ∀ k, CleanCut key l (k * limit) := by
  constructor
  · intro h
    have hzero : limit = 0 → l = [] := by
      rintro rfl
      have hperm := (h (fun _ ↦ l) (fun _ ↦ .refl l) l.length (Nat.le_refl _)).1
      rw [pages_const, Nat.mul_zero, List.take_zero] at hperm
      exact hperm.nil_eq.symm
    refine ⟨hzero, fun k ↦ ?_⟩
    rcases Nat.eq_zero_or_pos limit with hlimit | hlimit
    · rw [hzero hlimit]
      exact fun x hx ↦ absurd hx List.not_mem_nil
    refine (take_rankBy_perm_iff hnodup).1 fun l₁ l₂ h₁ h₂ ↦ ?_
    -- The first `k` pages from the one ranking, the rest from the other.
    have hperm := (h (fun i ↦ if i < k then l₁ else l₂) (fun i ↦ by split <;> assumption)
      (k + l.length) (Nat.le_add_left _ _)).1
    have hlists : (fun i ↦ rankBy key (if i < k then l₁ else l₂)) =
        fun i ↦ if i < k then rankBy key l₁ else rankBy key l₂ := by
      funext i
      split <;> rfl
    have hlength : (rankBy key l₂).length = l.length := ((rankBy_perm key l₂).trans h₂).length_eq
    rw [hlists, pages_ite, List.take_of_length_le (l := (rankBy key l₂).drop _)] at hperm
    · refine (List.perm_append_right_iff ((rankBy key l₂).drop (k * limit))).1 ?_
      rw [List.take_append_drop]
      exact hperm.trans ((rankBy_perm key l₂).trans h₂).symm
    · rw [List.length_drop, hlength]
      exact Nat.le_trans (Nat.sub_le _ _) (Nat.le_mul_of_pos_right _ hlimit)
  · rintro ⟨hzero, hcut⟩ lists hlists calls hcalls
    obtain ⟨hperm, hkeys⟩ := pages_spec hnodup hcut hlists calls
    have hle : l.length ≤ calls * limit := by
      rcases Nat.eq_zero_or_pos limit with hlimit | hlimit
      · rw [hzero hlimit]
        exact Nat.zero_le _
      · exact Nat.le_trans hcalls (Nat.le_mul_of_pos_right _ hlimit)
    constructor
    · rw [List.take_of_length_le (by rw [(rankBy_perm key l).length_eq]; exact hle)] at hperm
      exact hperm.trans (rankBy_perm key l)
    · rw [← List.pairwise_map (f := key) (R := fun a b ↦ b ≤ a), hkeys]
      exact (List.pairwise_map.2 (pairwise_rankBy key l)).sublist (List.take_sublist _ _)

end Ranking
