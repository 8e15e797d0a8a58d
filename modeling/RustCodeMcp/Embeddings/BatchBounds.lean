import RustCodeMcp.Embeddings.Batching

/-!
# Batches within their bounds

A policy bounds the rows of a batch and, if the indexer cuts, the rows times the longest of them; a
bound of zero counts as one, and so does the length of an empty row. The cut is greedy: every batch
is within the bounds, and no batch would be with the row that follows it.

**"Greedy" is said of each batch and its successor.** A batch is full when the row that comes next
would break a bound, and that row is the first of the next batch; so one relation between neighbours
says both that nothing is over the bounds and that no batch could have been longer (`Full`). The
loop keeps it with an open batch at the end, which need only be within the bounds.

A row that is over the bound by itself makes a batch of one row all the same, since the code does
not cut into rows; `Fits` allows for that and for nothing else.
-/

namespace RustCodeMcp

variable {α : Type} {tokenLen : α → ℕ} {items : List α}

/-- The length of the longest row. -/
def longest (tokenLen : α → ℕ) : List α → ℕ
  | [] => 0
  | item :: rest => max (max (tokenLen item) 1) (longest tokenLen rest)

theorem longest_concat (rows : List α) (item : α) :
    longest tokenLen (rows ++ [item]) = max (longest tokenLen rows) (max (tokenLen item) 1) := by
  induction rows with
  | nil =>
    show max (max (tokenLen item) 1) 0 = max 0 (max (tokenLen item) 1)
    omega
  | cons row rows ih =>
    show max _ (longest tokenLen (rows ++ [item])) = max (max _ (longest tokenLen rows)) _
    rw [ih]
    exact (max_assoc _ _ _).symm

namespace BatchingPolicy

/-- How many rows a batch may have. -/
def rowLimit : BatchingPolicy → ℕ
  | fixedByModel rows => max rows 1
  | byBudget maxRows _ => max maxRows 1

/-- How many tokens a batch may have, if that is bounded. -/
def tokenLimit : BatchingPolicy → Option ℕ
  | fixedByModel _ => none
  | byBudget _ maxTokensPerBatch => some (max maxTokensPerBatch 1)

/-- The rows are within the bounds of the policy. -/
def Fits (policy : BatchingPolicy) (tokenLen : α → ℕ) (rows : List α) : Prop :=
  rows.length ≤ policy.rowLimit ∧
    ∀ budget, policy.tokenLimit = some budget → 1 < rows.length →
      rows.length * longest tokenLen rows ≤ budget

/-- The batch is within the bounds, and would not be with the next item. -/
def Full (policy : BatchingPolicy) (tokenLen : α → ℕ) (items : List α) (plan : BatchPlan) : Prop :=
  policy.Fits tokenLen (plan.slice items) ∧
    ∀ next, items[plan.stop]? = some next → ¬policy.Fits tokenLen (plan.slice items ++ [next])

end BatchingPolicy

/-! ### The cut by height and token budget -/

theorem take_drop_succ {start n : ℕ} {item : α} (h : items[start + n]? = some item) :
    (items.drop start).take (n + 1) = (items.drop start).take n ++ [item] := by
  rw [List.take_add_one, List.getElem?_drop, h]
  rfl

/-- The invariant of the loop: what is cut is full, and the open batch fits. -/
structure Cutting.Greedy (policy : BatchingPolicy) (tokenLen : α → ℕ) (items : List α)
    (s : Cutting) : Prop where
  full : ∀ plan ∈ s.plans, policy.Full tokenLen items plan
  fits : policy.Fits tokenLen ((items.drop s.start).take s.batchLen)
  longest : s.batchMaxTokens = longest tokenLen ((items.drop s.start).take s.batchLen)

theorem Cutting.Greedy.step {s : Cutting} {idx maxRows maxTokens : ℕ} {item : α}
    (h : s.Greedy (.byBudget maxRows maxTokens) tokenLen items) (hinv : s.Inv idx)
    (hitem : items[idx]? = some item) :
    (s.read (max maxRows 1) (max maxTokens 1) idx (max (tokenLen item) 1)).Greedy
      (.byBudget maxRows maxTokens) tokenLen items := by
  have hread := hinv.read
  have hlt := (List.getElem?_eq_some_iff.1 hitem).1
  have hlen : ((items.drop s.start).take s.batchLen).length = s.batchLen := by
    rw [List.length_take, List.length_drop]
    omega
  have hone : (items.drop idx).take 1 = [item] := take_drop_succ (n := 0) hitem
  unfold Cutting.read
  dsimp only
  split_ifs with hcut
  -- The batch is closed before the item, which begins the next one.
  · refine ⟨fun plan hplan ↦ ?_, ?_, ?_⟩
    · rcases List.mem_append.1 hplan with hold | hnew
      · exact h.full plan hold
      · -- The batch that is closed would be over a limit with the item.
        rw [List.mem_singleton.1 hnew]
        have hslice : BatchPlan.slice
          ⟨s.start, idx⟩ items = (items.drop s.start).take s.batchLen := by
          show (items.drop s.start).take (idx - s.start) = _
          rw [show idx - s.start = s.batchLen by omega]
        refine ⟨hslice ▸ h.fits, fun next hnext hfits ↦ ?_⟩
        obtain rfl := Option.some.inj (hitem.symm.trans hnext)
        rw [hslice] at hfits
        obtain ⟨hrows, htokens⟩ := hfits
        have hbudget := htokens _ rfl
        rw [List.length_append, List.length_singleton, hlen] at hrows hbudget
        rw [longest_concat, ← h.longest] at hbudget
        obtain ⟨hpos, hcount | htoken⟩ := hcut
        · exact absurd hrows (by show ¬_ ≤ max maxRows 1; omega)
        · exact absurd (hbudget (by omega)) (Nat.not_le.2 htoken)
    · show BatchingPolicy.Fits _ _ ((items.drop idx).take 1)
      rw [hone]
      exact ⟨Nat.le_max_right _ _, fun _ _ hlt ↦ absurd hlt (Nat.lt_irrefl 1)⟩
    · show max 0 (max (tokenLen item) 1) = RustCodeMcp.longest tokenLen ((items.drop idx).take 1)
      rw [hone]
      show max 0 (max (tokenLen item) 1) = max (max (tokenLen item) 1) 0
      omega
  · have hnext : (items.drop s.start).take
      (s.batchLen + 1) = (items.drop s.start).take s.batchLen ++ [item] :=
      take_drop_succ (hread ▸ hitem)
    refine ⟨h.full, ?_, ?_⟩
    · show BatchingPolicy.Fits _ _ ((items.drop s.start).take (s.batchLen + 1))
      rw [hnext]
      rw [not_and_or, not_or, Nat.not_lt, Nat.not_lt] at hcut
      -- The item goes into the batch: no limit was reached with it.
      refine ⟨?_, fun budget hbudget hmore ↦ ?_⟩
      · rw [List.length_append, List.length_singleton, hlen]
        show s.batchLen + 1 ≤ max maxRows 1
        omega
      · obtain rfl := Option.some.inj hbudget
        rw [List.length_append, List.length_singleton, hlen] at hmore ⊢
        rw [longest_concat, ← h.longest]
        rcases hcut with hzero | ⟨-, htoken⟩
        · omega
        · exact Nat.not_lt.1 htoken
    · show max s.batchMaxTokens (max (tokenLen item) 1) = _
      rw [h.longest]
      show _ = RustCodeMcp.longest tokenLen ((items.drop s.start).take (s.batchLen + 1))
      rw [hnext, longest_concat]

theorem Cutting.Greedy.foldl {maxRows maxTokens : ℕ} (rest : List α) {s : Cutting} {idx : ℕ}
    (h : s.Greedy (.byBudget maxRows maxTokens) tokenLen items) (hinv : s.Inv idx)
    (hrest : items.drop idx = rest) :
    ((rest.zipIdx idx).foldl (fun (s : Cutting) (item, idx) ↦
      s.read (max maxRows 1) (max maxTokens 1) idx (max (tokenLen item) 1)) s).Greedy
        (.byBudget maxRows maxTokens) tokenLen items := by
  induction rest generalizing s idx with
  | nil => exact h
  | cons item rest ih =>
    have hitem : items[idx]? = some item := by
      rw [← List.head?_drop, hrest, List.head?_cons]
    rw [List.zipIdx_cons, List.foldl_cons]
    refine ih (h.step hinv hitem) (hinv.step _ _ _) ?_
    rw [← List.drop_drop, hrest, List.drop_one, List.tail_cons]

/-- The cut by height and token budget is greedy. -/
theorem full_planBatches (items : List α) (maxRows maxTokens : ℕ) (tokenLen : α → ℕ) :
    ∀ plan ∈ planBatches items maxRows maxTokens tokenLen,
      (BatchingPolicy.byBudget maxRows maxTokens).Full tokenLen items plan := by
  rcases items with - | ⟨item, rest⟩
  · exact nofun
  · have hinit : Cutting.Inv ⟨[], 0, 0, 0⟩ 0 :=
      ⟨Consecutive.nil 0, rfl, fun h ↦ absurd h (Nat.lt_irrefl 0)⟩
    have hfirst : Cutting.Greedy (.byBudget maxRows maxTokens) tokenLen
      (item :: rest) ⟨[], 0, 0, 0⟩ :=
      ⟨nofun, ⟨Nat.zero_le _, fun _ _ hlt ↦ absurd hlt (Nat.not_lt_zero 1)⟩, rfl⟩
    have hinv := hinit.foldl (max maxRows 1) (max maxTokens 1)
      (fun i ↦ max (tokenLen i) 1) (item :: rest)
    have hgreedy := hfirst.foldl (item :: rest) hinit rfl
    rw [Nat.zero_add] at hinv
    have hpos := hinv.open_of_pos (Nat.succ_pos _)
    have hread := hinv.read
    have hplans : planBatches (item :: rest) maxRows maxTokens tokenLen = _ ++
      [⟨_, (item :: rest).length⟩] := if_pos hpos
    intro plan hplan
    rw [hplans] at hplan
    rcases List.mem_append.1 hplan with hold | hlast
    · exact hgreedy.full plan hold
    · rw [List.mem_singleton.1 hlast]
      refine ⟨?_, fun next hnext ↦ ?_⟩
      · show BatchingPolicy.Fits _ _ (((item :: rest).drop _).take _)
        rw [← hread, Nat.add_sub_cancel_left]
        exact hgreedy.fits
      · rw [List.getElem?_eq_none (Nat.le_refl _)] at hnext
        cases hnext

/-! ### The cut by the height of the model's shape -/

/-- The cut by the height of the model's shape is greedy. -/
theorem full_planFixedRows (items : List α) (rows : ℕ) :
    ∀ plan ∈ planFixedRows items.length rows,
    (BatchingPolicy.fixedByModel rows).Full tokenLen items plan := by
  intro plan hplan
  obtain ⟨start, -, rfl⟩ := List.mem_map.1 hplan
  have hlen : (BatchPlan.slice ⟨start, min (start + max rows 1) items.length⟩ items).length =
      min (min (start + max rows 1) items.length - start) (items.length - start) := by
    show ((items.drop start).take _).length = _
    rw [List.length_take, List.length_drop]
  refine ⟨⟨?_, nofun⟩, fun next hnext hfits ↦ ?_⟩
  · show _ ≤ max rows 1
    omega
  · have hlt : min (start + max rows 1) items.length < items.length :=
      (List.getElem?_eq_some_iff.1 hnext).1
    have hrows : _ ≤ max rows 1 := hfits.1
    rw [List.length_append, List.length_singleton, hlen] at hrows
    omega

/-- **Every policy cuts the items into batches that follow one another**, each of them within the
bounds, and none with room for the next item. -/
theorem BatchingPolicy.plan_greedy (policy : BatchingPolicy) (items : List α) (tokenLen : α → ℕ) :
    Consecutive 0 (policy.plan items tokenLen) items.length ∧
      ((policy.plan items tokenLen).flatMap fun plan ↦ plan.slice items) = items ∧
        ∀ plan ∈ policy.plan items tokenLen, policy.Full tokenLen items plan := by
  have hconsecutive := policy.consecutive_plan items tokenLen
  refine ⟨hconsecutive, hconsecutive.flatMap_slice_eq, ?_⟩
  cases policy with
  | fixedByModel rows => exact full_planFixedRows items rows
  | byBudget maxRows maxTokens => exact full_planBatches items maxRows maxTokens tokenLen

/-- A batch has a row where no row is allowed; and a batch of two empty rows has room for a third,
whose cost would be zero. -/
theorem bounds_at_zero :
    (∃ plan ∈ (BatchingPolicy.byBudget 0 8).plan [3] id, ¬(plan.slice [3]).length ≤ 0) ∧
      ∃ plan ∈ (BatchingPolicy.byBudget 8 2).plan [0, 0, 0] id, [0, 0, 0][plan.stop]? = some 0 ∧
        (plan.slice [0, 0, 0] ++ [0]).length ≤ 8 ∧
          ∀ row ∈ plan.slice [0, 0, 0] ++ [0], (plan.slice [0, 0, 0] ++ [0]).length * row ≤ 2 := by
  decide

end RustCodeMcp
