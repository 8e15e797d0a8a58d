import Mathlib.Data.Prod.Lex
import Mathlib.Data.UInt
import Mathlib.Order.OrderDual
import RustCodeMcp.Order.Ranking

/-!
# The cache of compiled kernels

The cache holds one directory for each shape that was compiled. When it is over its cap, the shapes
that were used longest ago are removed one after another until it no longer is. The shape in use is
passed over, and a cap of zero turns eviction off.

The paths are distinct, so no two shapes tie, and the plan is that of the set
(`planEviction_spec`).

**The bytes are added up in 64 bits.** That the sums are the sizes is an assumption on the
directory, that all of it together is under 2^64 bytes; the loop only subtracts from the total, and
each subtraction is of a shape that is part of it. Under a cap of zero nothing is removed, and the
plan is not marked as over its cap either.
-/

namespace RustCodeMcp.KernelCache

/-- A compiled shape: where it is, how large, and when it was used last. -/
structure CachedShape (P T : Type) where
  path : P
  bytes : UInt64
  lastUsed : T
  deriving DecidableEq

/-- What to remove, how much is left then, and whether that is still too much. -/
structure EvictionPlan (P : Type) where
  /-- In the order of eviction. -/
  remove : List P
  bytesAfter : UInt64
  stillOverCap : Bool
  deriving DecidableEq

variable {P T : Type}

/-- The loop of `plan_eviction`: what to remove, and what remains. -/
def evict (cap : UInt64) : UInt64 → List (CachedShape P T) → List P × UInt64
  | remaining, [] => ([], remaining)
  | remaining, shape :: rest =>
    if remaining ≤ cap then ([], remaining)
    else (evict cap (remaining - shape.bytes) rest).map (shape.path :: ·) id

/-! ### What the loop removes -/

/-- The sizes together, as numbers. -/
def size (shapes : List (CachedShape P T)) : ℕ :=
  (shapes.map fun shape ↦ shape.bytes.toNat).sum

@[simp] theorem size_cons (shape : CachedShape P T) (shapes : List (CachedShape P T)) :
    size (shape :: shapes) = shape.bytes.toNat + size shapes := List.sum_cons

theorem size_of_perm {shapes shapes' : List (CachedShape P T)} (h : shapes'.Perm shapes) :
    size shapes' = size shapes :=
  (h.map _).sum_nat

theorem size_le_of_sublist {shapes shapes' : List (CachedShape P T)} (h : shapes'.Sublist shapes) :
    size shapes' ≤ size shapes := by
  induction h with
  | slnil => exact le_rfl
  | cons shape _ ih => exact ih.trans (by rw [size_cons]; exact Nat.le_add_left _ _)
  | cons_cons shape _ ih =>
    rw [size_cons, size_cons]
    exact Nat.add_le_add_left ih _

/-- The sum of 64 bits is the size where that fits. -/
theorem toNat_sum {shapes : List (CachedShape P T)} (h : size shapes < 2 ^ 64) :
    (shapes.map CachedShape.bytes).sum.toNat = size shapes := by
  induction shapes with
  | nil => rfl
  | cons shape shapes ih =>
    rw [size_cons] at h
    rw [List.map_cons, List.sum_cons, UInt64.toNat_add, ih (by omega), size_cons,
      Nat.mod_eq_of_lt h]

/-- The first `n` of the shapes are the fewest that bring the total to the cap, or all of them. -/
structure Evicts (total cap : ℕ) (order : List (CachedShape P T)) (n remaining : ℕ) : Prop where
  le : n ≤ order.length
  accounts : remaining + size (order.take n) = total
  enough : n = order.length ∨ remaining ≤ cap
  shortest : ∀ m < n, cap + size (order.take m) < total

/-- The loop removes shapes from the front until the rest is within the cap, or none is left. -/
theorem evict_spec (cap : UInt64) {remaining : UInt64} {order : List (CachedShape P T)}
    (h : size order ≤ remaining.toNat) :
    ∃ n, (evict cap remaining order).1 = (order.take n).map CachedShape.path ∧
      Evicts remaining.toNat cap.toNat order n (evict cap remaining order).2.toNat := by
  induction order generalizing remaining with
  | nil => exact ⟨0, rfl, le_rfl, rfl, .inl rfl, nofun⟩
  | cons shape rest ih =>
    rw [size_cons] at h
    rw [evict]
    split_ifs with hcap
    · exact ⟨0, rfl, Nat.zero_le _, rfl, .inr hcap, nofun⟩
    · have hover : cap.toNat < remaining.toNat := Nat.lt_of_not_le hcap
      have hsub : (remaining - shape.bytes).toNat = remaining.toNat - shape.bytes.toNat :=
        UInt64.toNat_sub_of_le _ _ (UInt64.le_iff_toNat_le.2 (by omega))
      obtain ⟨n, hremove, hevicts⟩ := @ih (remaining - shape.bytes) (by omega)
      refine ⟨n + 1, congrArg (shape.path :: ·) hremove, Nat.succ_le_succ hevicts.le, ?_,
        hevicts.enough.imp (congrArg (· + 1)) id, ?_⟩
      · have htotal := hevicts.accounts
        rw [List.take_succ_cons, size_cons]
        show (evict cap (remaining - shape.bytes) rest).2.toNat + _ = _
        omega
      · rintro (- | m) hm
        · exact hover
        · have hlt := hevicts.shortest m (Nat.lt_of_succ_lt_succ hm)
          rw [List.take_succ_cons, size_cons]
          omega

/-! ### The plan -/

section Plan

variable [LinearOrder P] [LinearOrder T]

/-- The order of eviction: the last use, then the path. -/
def recency (shape : CachedShape P T) : T ×ₗ P :=
  toLex (shape.lastUsed, shape.path)

/-- The shapes that may go, those used longest ago first. -/
def candidates (shapes : List (CachedShape P T)) (keep : P) : List (CachedShape P T) :=
  Ranking.rankBy (fun shape ↦ OrderDual.toDual (recency shape))
    (shapes.filter fun shape ↦ shape.path ≠ keep)

/-- `plan_eviction` -/
def planEviction (shapes : List (CachedShape P T)) (keep : P) (cap : UInt64) : EvictionPlan P :=
  let total := (shapes.map CachedShape.bytes).sum
  if cap = 0 ∨ total ≤ cap then ⟨[], total, false⟩
  else
    let (remove, remaining) := evict cap total (candidates shapes keep)
    ⟨remove, remaining, decide (cap < remaining)⟩

/-- `sweep`: the plan, and the shapes that are left. A directory may resist its removal. -/
def sweep (removable : P → Bool) (shapes : List (CachedShape P T)) (keep : P) (cap : UInt64) :
    EvictionPlan P × List (CachedShape P T) :=
  let plan := planEviction shapes keep cap
  (plan, shapes.filter fun shape ↦ !(plan.remove.contains shape.path && removable shape.path))

variable {shapes shapes' : List (CachedShape P T)} {keep : P} {cap : UInt64}

theorem candidates_perm (shapes : List (CachedShape P T)) (keep : P) :
    (candidates shapes keep).Perm (shapes.filter fun shape ↦ shape.path ≠ keep) :=
  Ranking.rankBy_perm _ _

/-- No two shapes tie. -/
theorem candidates_pairwise (hdistinct : (shapes.map CachedShape.path).Nodup) (keep : P) :
    (candidates shapes keep).Pairwise fun a b ↦ recency a < recency b := by
  have hle : (candidates shapes keep).Pairwise fun a b ↦ recency a ≤ recency b :=
    (Ranking.pairwise_rankBy (fun shape ↦ OrderDual.toDual (recency shape)) _).imp
      OrderDual.toDual_le_toDual.1
  have hne : (candidates shapes keep).Pairwise fun a b ↦ a.path ≠ b.path := by
    refine List.pairwise_map.1 (((candidates_perm shapes keep).map _).nodup_iff.2 ?_)
    exact hdistinct.sublist (List.filter_sublist.map _)
  refine hle.imp₂ (fun a b hle hne ↦ lt_of_le_of_ne hle fun heq ↦ hne ?_) hne
  exact congrArg Prod.snd (toLex.injective heq)

theorem candidates_of_perm (hdistinct : (shapes.map CachedShape.path).Nodup)
    (hperm : shapes'.Perm shapes) : candidates shapes' keep = candidates shapes keep := by
  refine Ranking.rankBy_eq_of_perm (hperm.filter _) fun x hx y hy heq ↦ ?_
  have hinj := List.inj_on_of_nodup_map ((hperm.map CachedShape.path).nodup_iff.2 hdistinct)
  exact hinj (List.mem_of_mem_filter hx) (List.mem_of_mem_filter hy)
    (congrArg Prod.snd (toLex.injective (OrderDual.toDual.injective heq)))

theorem size_candidates_le (shapes : List (CachedShape P T)) (keep : P) :
    size (candidates shapes keep) ≤ size shapes := by
  rw [size_of_perm (candidates_perm shapes keep)]
  exact size_le_of_sublist List.filter_sublist

/-- What a plan does under a cap that is not zero: of the shapes other than the one to keep, those
used longest ago go first, no more of them than it takes. -/
def Planned (shapes : List (CachedShape P T)) (keep : P) (cap : UInt64) (plan : EvictionPlan P) :
    Prop :=
  ∃ order n, order.Perm (shapes.filter fun shape ↦ shape.path ≠ keep) ∧
    order.Pairwise (fun a b ↦ recency a < recency b) ∧
    plan.remove = (order.take n).map CachedShape.path ∧
    Evicts (size shapes) cap.toNat order n plan.bytesAfter.toNat

/-- The plan does what `Planned` says. -/
theorem planned_planEviction (hdistinct : (shapes.map CachedShape.path).Nodup)
    (hfits : size shapes < 2 ^ 64) (keep : P) (hcap : cap ≠ 0) :
    Planned shapes keep cap (planEviction shapes keep cap) := by
  have htotal := toNat_sum hfits
  have hle := size_candidates_le shapes keep
  refine ⟨candidates shapes keep, ?_⟩
  unfold planEviction
  dsimp only
  split_ifs with hfull
  · refine ⟨0, candidates_perm shapes keep, candidates_pairwise hdistinct keep, rfl,
      Nat.zero_le _, htotal, .inr ?_, nofun⟩
    exact UInt64.le_iff_toNat_le.1 (hfull.resolve_left hcap)
  · obtain ⟨n, hremove, hevicts⟩ := evict_spec cap (htotal.symm ▸ hle)
    rw [htotal] at hevicts
    exact ⟨n, candidates_perm shapes keep, candidates_pairwise hdistinct keep, hremove, hevicts⟩

/-- The shape in use is never removed. -/
theorem keep_notMem_remove (hdistinct : (shapes.map CachedShape.path).Nodup)
    (hfits : size shapes < 2 ^ 64) (keep : P) (cap : UInt64) :
    keep ∉ (planEviction shapes keep cap).remove := by
  intro hkeep
  by_cases hcap : cap = 0
  · subst hcap
    rw [planEviction, if_pos (.inl rfl)] at hkeep
    exact List.not_mem_nil hkeep
  · obtain ⟨order, n, hperm, -, hremove, -⟩ := planned_planEviction hdistinct hfits keep hcap
    rw [hremove] at hkeep
    obtain ⟨shape, hshape, rfl⟩ := List.mem_map.1 hkeep
    have hmem := hperm.mem_iff.1 (List.mem_of_mem_take hshape)
    exact of_decide_eq_true (List.mem_filter.1 hmem).2 rfl

/-- **What a plan removes.** With distinct paths and a total that fits its type, a plan under a cap
that is not zero removes the fewest shapes that bring the total to the cap, those used longest ago,
or else all of them, and says whether the total is still over the cap; a cap of zero removes
nothing and says nothing. The shape to keep stays, and the order of the list does not matter. -/
theorem planEviction_spec (hdistinct : (shapes.map CachedShape.path).Nodup)
    (hfits : size shapes < 2 ^ 64) (keep : P) (cap : UInt64) :
    (cap ≠ 0 → Planned shapes keep cap (planEviction shapes keep cap) ∧
      ((planEviction shapes keep cap).stillOverCap = true ↔
        cap < (planEviction shapes keep cap).bytesAfter)) ∧
    (cap = 0 → (planEviction shapes keep cap).remove = [] ∧
      (planEviction shapes keep cap).bytesAfter.toNat = size shapes ∧
      (planEviction shapes keep cap).stillOverCap = false) ∧
    keep ∉ (planEviction shapes keep cap).remove ∧
    ∀ shapes' : List (CachedShape P T), shapes'.Perm shapes →
      planEviction shapes' keep cap = planEviction shapes keep cap := by
  refine ⟨fun hcap ↦ ⟨planned_planEviction hdistinct hfits keep hcap, ?_⟩, ?_,
    keep_notMem_remove hdistinct hfits keep cap, fun shapes' hperm ↦ ?_⟩
  · unfold planEviction
    dsimp only
    split_ifs with hfull
    · exact iff_of_false nofun (UInt64.not_lt.2 (hfull.resolve_left hcap))
    · exact decide_eq_true_iff
  · rintro rfl
    unfold planEviction
    rw [if_pos (.inl rfl)]
    exact ⟨rfl, toNat_sum hfits, rfl⟩
  · have hsize := size_of_perm hperm
    have hsum : (shapes'.map CachedShape.bytes).sum = (shapes.map CachedShape.bytes).sum :=
      UInt64.toNat_inj.1 (by rw [toNat_sum (hsize.symm ▸ hfits), toNat_sum hfits, hsize])
    rw [planEviction, planEviction, candidates_of_perm hdistinct hperm, hsum]

end Plan

/-- Two shapes of 3 and 5 bytes; the first is to be kept. -/
def twoShapes : List (CachedShape ℕ ℕ) :=
  [⟨1, 3, 10⟩, ⟨2, 5, 20⟩]

theorem planEviction_spec_twoShapes : Planned twoShapes 1 4 (planEviction twoShapes 1 4) :=
  ((planEviction_spec (by decide) (by decide) 1 4).1 (by decide)).1

/-- Under a cap of zero everything stays, and the plan is not marked. -/
theorem zero_cap_not_marked : (twoShapes.map CachedShape.path).Nodup ∧ size twoShapes < 2 ^ 64 ∧
    ¬Planned twoShapes 1 0 (planEviction twoShapes 1 0) ∧
    ¬((planEviction twoShapes 1 0).stillOverCap = true ↔
      0 < (planEviction twoShapes 1 0).bytesAfter) := by
  refine ⟨by decide, by decide, ?_, by decide⟩
  rintro ⟨order, n, hperm, -, hremove, hevicts⟩
  have hlength : order.length = 1 := hperm.length_eq
  have hnone : (order.take n).map CachedShape.path = [] := hremove.symm
  have hn : n = 0 := by
    have hzero := congrArg List.length hnone
    rw [List.length_map, List.length_take, hlength, List.length_nil] at hzero
    omega
  rcases hevicts.enough with hall | hcap
  · omega
  · exact absurd hcap (by decide)

end RustCodeMcp.KernelCache
