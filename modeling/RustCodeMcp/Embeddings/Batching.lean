import Mathlib.Data.List.Basic
import Mathlib.Data.List.Range
import Mathlib.Algebra.Order.Group.Nat

/-!
# Cutting inputs into batches

Who dictates the shape of a batch — the model or the indexer — is decided once, in a
`BatchingPolicy`; the cut itself is a pass over the items. Whatever the lengths of the items and the
limits are, the batches are ranges that follow one another from the first item to the last
(`Consecutive`), so cutting the items along them and putting the pieces back together gives the
items again.

The policies share nothing but their result. One reads the lengths of the items and keeps a running
maximum; the other knows the height of its shape and does not look at the items. **What a caller may
rely on is said for both together** (`BatchingPolicy.consecutive_plan`), and the bounds on a single
batch are a matter of the policy that made it.
-/

namespace RustCodeMcp

/-- A batch: the items from `start` up to, and without, `stop`. -/
structure BatchPlan where
  start : ℕ
  stop : ℕ
  deriving DecidableEq

/-- The items of a batch. -/
def BatchPlan.slice {α : Type} (plan : BatchPlan) (items : List α) : List α :=
  (items.drop plan.start).take (plan.stop - plan.start)

/-! ### Ranges that follow one another -/

/-- The batches cover the positions from the first number up to the second, one after another, and
none is empty. -/
inductive Consecutive : ℕ → List BatchPlan → ℕ → Prop
  | nil (start : ℕ) : Consecutive start [] start
  | cons {start mid stop : ℕ} {plans : List BatchPlan} (hlt : start < mid)
      (h : Consecutive mid plans stop) : Consecutive start (⟨start, mid⟩ :: plans) stop

namespace Consecutive

variable {start mid stop : ℕ} {plans : List BatchPlan}

theorem le (h : Consecutive start plans stop) : start ≤ stop := by
  induction h with
  | nil start => exact Nat.le_refl start
  | cons hlt _ ih => omega

theorem concat (h : Consecutive start plans mid) (hlt : mid < stop) :
    Consecutive start (plans ++ [⟨mid, stop⟩]) stop := by
  induction h with
  | nil start => exact cons hlt (nil stop)
  | cons hlt' _ ih => exact cons hlt' (ih hlt)

theorem bounds (h : Consecutive start plans stop) :
    ∀ plan ∈ plans, plan.start < plan.stop ∧ plan.stop ≤ stop := by
  induction h with
  | nil start => simp
  | cons hlt h ih => exact List.forall_mem_cons.2 ⟨⟨hlt, h.le⟩, ih⟩

/-- **Cutting loses nothing and moves nothing**: the pieces put together are the items between the
two ends. -/
theorem flatMap_slice {α : Type} (items : List α) (h : Consecutive start plans stop) :
    plans.flatMap (·.slice items) = (items.drop start).take (stop - start) := by
  induction h with
  | nil start => simp
  | @cons start mid stop plans hlt h ih =>
    have hle := h.le
    have hsplit : stop - start = (mid - start) + (stop - mid) := by omega
    have hdrop : (items.drop start).drop (mid - start) = items.drop mid := by
      rw [List.drop_drop]
      congr 1
      omega
    rw [List.flatMap_cons, ih, hsplit, List.take_add, hdrop]
    rfl

/-- **The pieces put together are the items.** -/
theorem flatMap_slice_eq {α : Type} {items : List α} (h : Consecutive 0 plans items.length) :
    plans.flatMap (·.slice items) = items := by
  rw [h.flatMap_slice, List.drop_zero, Nat.sub_zero, List.take_length]

end Consecutive

/-! ### The cut by height and token budget -/

/-- The variables of the loop over the items. -/
structure Cutting where
  plans : List BatchPlan
  start : ℕ
  batchLen : ℕ
  batchMaxTokens : ℕ

/-- One turn of the loop: the item at `idx`, `itemTokens` long, closes the batch before it when the
batch with it would be over a limit. -/
def Cutting.read (maxBatchSize maxTokensPerBatch : ℕ) (s : Cutting)
    (idx itemTokens : ℕ) : Cutting :=
  let nextLen := s.batchLen + 1
  let nextMaxTokens := max s.batchMaxTokens itemTokens
  let exceedsCount := nextLen > maxBatchSize
  let exceedsTokenBudget := nextLen * nextMaxTokens > maxTokensPerBatch
  let s := if s.batchLen > 0 ∧ (exceedsCount ∨ exceedsTokenBudget) then
      { plans := s.plans ++ [⟨s.start, idx⟩], start := idx, batchLen := 0, batchMaxTokens := 0 }
    else s
  { s with
    batchLen := s.batchLen + 1
    batchMaxTokens := max s.batchMaxTokens itemTokens }

/-- `plan_batches` -/
def planBatches {α : Type} (items : List α) (maxBatchSize maxTokensPerBatch : ℕ)
    (tokenLen : α → ℕ) : List BatchPlan :=
  if items.isEmpty then [] else
    let maxBatchSize := max maxBatchSize 1
    let maxTokensPerBatch := max maxTokensPerBatch 1
    let s := items.zipIdx.foldl
      (fun (s : Cutting) (item, idx) ↦
        s.read maxBatchSize maxTokensPerBatch idx (max (tokenLen item) 1))
      { plans := [], start := 0, batchLen := 0, batchMaxTokens := 0 }
    if s.batchLen > 0 then s.plans ++ [⟨s.start, items.length⟩] else s.plans

/-- The invariant of the loop: what is cut is cut up to `start`, and the open batch is the rest of
what has been read. -/
structure Cutting.Inv (s : Cutting) (idx : ℕ) : Prop where
  consecutive : Consecutive 0 s.plans s.start
  read : s.start + s.batchLen = idx
  open_of_pos : 0 < idx → 0 < s.batchLen

theorem Cutting.Inv.step {s : Cutting} {idx : ℕ} (maxBatchSize maxTokensPerBatch itemTokens : ℕ)
    (h : s.Inv idx) : (s.read maxBatchSize maxTokensPerBatch idx itemTokens).Inv (idx + 1) := by
  have hread := h.read
  unfold Cutting.read
  dsimp only
  split_ifs with hcut
  · have hlt : s.start < idx := by omega
    exact ⟨h.consecutive.concat hlt, rfl, fun _ ↦ Nat.zero_lt_one⟩
  · exact ⟨h.consecutive, by dsimp only; omega, fun _ ↦ Nat.succ_pos _⟩

theorem Cutting.Inv.foldl {α : Type} (maxBatchSize maxTokensPerBatch : ℕ) (tokenLen : α → ℕ)
    (items : List α) {s : Cutting} {idx : ℕ} (h : s.Inv idx) :
    ((items.zipIdx idx).foldl
      (fun (s : Cutting) (item, idx) ↦
        s.read maxBatchSize maxTokensPerBatch idx (tokenLen item)) s).Inv
      (idx + items.length) := by
  induction items generalizing s idx with
  | nil => exact h
  | cons item items ih =>
    have hnext := ih (h.step maxBatchSize maxTokensPerBatch (tokenLen item))
    rw [List.zipIdx_cons, List.foldl_cons, List.length_cons]
    rwa [Nat.add_assoc, Nat.add_comm 1] at hnext

/-- The batches cover the items one after the other. -/
theorem consecutive_planBatches {α : Type} (items : List α) (maxBatchSize maxTokensPerBatch : ℕ)
    (tokenLen : α → ℕ) :
    Consecutive 0 (planBatches items maxBatchSize maxTokensPerBatch tokenLen) items.length := by
  rcases items with - | ⟨item, rest⟩
  · exact Consecutive.nil 0
  · have hinit : Cutting.Inv ⟨[], 0, 0, 0⟩ 0 :=
      ⟨Consecutive.nil 0, rfl, fun h ↦ absurd h (Nat.lt_irrefl 0)⟩
    have hinv := hinit.foldl (max maxBatchSize 1) (max maxTokensPerBatch 1)
      (fun i ↦ max (tokenLen i) 1) (item :: rest)
    rw [Nat.zero_add] at hinv
    have hpos := hinv.open_of_pos (Nat.succ_pos _)
    have hread := hinv.read
    show Consecutive 0 (if _ then _ else _) _
    rw [if_pos hpos]
    exact hinv.consecutive.concat (by omega)

/-! ### The cut by the height of the model's shape -/

/-- Cut exactly by the shape height: all batches are full except the last one. -/
def planFixedRows (len rows : ℕ) : List BatchPlan :=
  let rows := max rows 1
  (List.range' 0 ((len + rows - 1) / rows) rows).map fun start ↦ ⟨start, min (start + rows) len⟩

/-- Ranges of one height, the last of which may be cut short. -/
theorem consecutive_fixedRows {len rows : ℕ} (hrows : 0 < rows) (n start : ℕ)
    (hlast : len ≤ start + n * rows) (hfit : start + n * rows < len + rows) (hle : start ≤ len) :
    Consecutive start ((List.range' start n rows).map fun s ↦ ⟨s, min (s + rows) len⟩) len := by
  induction n generalizing start with
  | zero =>
    obtain rfl : start = len := by omega
    exact Consecutive.nil start
  | succ n ih =>
    rw [Nat.succ_mul] at hlast hfit
    have hlt : start < min (start + rows) len := by
      rw [lt_min_iff]
      refine ⟨by omega, ?_⟩
      by_contra hge
      have : 0 ≤ n * rows := Nat.zero_le _
      omega
    rw [List.range'_succ, List.map_cons]
    refine Consecutive.cons hlt ?_
    rcases Nat.lt_or_ge (start + rows) len with hmore | hend
    · rw [Nat.min_eq_left (Nat.le_of_lt hmore)]
      exact ih (start + rows) (by omega) (by omega) (Nat.le_of_lt hmore)
    · -- The last batch: no further start fits below `len`.
      have hn : n = 0 := by
        by_contra hne
        have : rows ≤ n * rows := Nat.le_mul_of_pos_left rows (Nat.pos_of_ne_zero hne)
        omega
      subst hn
      rw [Nat.min_eq_right hend]
      exact Consecutive.nil len

theorem consecutive_planFixedRows (len rows : ℕ) :
    Consecutive 0 (planFixedRows len rows) len := by
  have hrows : 0 < max rows 1 := by omega
  have hdiv := Nat.div_add_mod (len + max rows 1 - 1) (max rows 1)
  have hmod := Nat.mod_lt (len + max rows 1 - 1) hrows
  rw [Nat.mul_comm] at hdiv
  exact consecutive_fixedRows hrows _ 0 (by omega) (by omega) (Nat.zero_le len)

/-! ### Policies -/

/-- Who dictates the batch shape. -/
inductive BatchingPolicy
  /-- The model: exactly `rows` rows per batch, and it pads the tail itself. -/
  | fixedByModel (rows : ℕ)
  /-- The indexer: a height plus a cap on "rows × longest row". -/
  | byBudget (maxRows maxTokensPerBatch : ℕ)

/-- Whether it makes sense to keep inputs of similar length together. -/
def BatchingPolicy.sortsByLength : BatchingPolicy → Bool
  | fixedByModel _ => false
  | byBudget _ _ => true

/-- The cut that the policy makes. -/
def BatchingPolicy.plan {α : Type} (policy : BatchingPolicy) (items : List α)
    (tokenLen : α → ℕ) : List BatchPlan :=
  match policy with
  | fixedByModel rows => planFixedRows items.length rows
  | byBudget maxRows maxTokensPerBatch => planBatches items maxRows maxTokensPerBatch tokenLen

/-- **Every policy cuts the items into consecutive batches.** -/
theorem BatchingPolicy.consecutive_plan {α : Type} (policy : BatchingPolicy) (items : List α)
    (tokenLen : α → ℕ) : Consecutive 0 (policy.plan items tokenLen) items.length := by
  cases policy with
  | fixedByModel rows => exact consecutive_planFixedRows items.length rows
  | byBudget maxRows maxTokensPerBatch =>
    exact consecutive_planBatches items maxRows maxTokensPerBatch tokenLen

end RustCodeMcp
