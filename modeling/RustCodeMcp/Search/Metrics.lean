import Mathlib.Algebra.Order.BigOperators.Group.List
import Mathlib.Algebra.Order.Field.Basic
import Mathlib.Algebra.Order.Field.Rat
import Mathlib.Tactic.Positivity
import Mathlib.Tactic.Ring

/-!
# Retrieval metrics

The tuner scores result lists against the names that are relevant for a query. Every result that
carries a relevant name is a hit, so a name that two results carry counts twice, while the sums are
divided by the number of names: with more hits than names the scores go above one. The precision is
the only metric that divides by the number of results, and does so when there are none.

Each metric is in its range exactly where neither happens (`metrics_iff`).

**Counts decide, and nothing else.** With no more hits than names every score is at most one,
whatever the weights. With more, the recall is above one, and so are the discounted gain for some
weights and the average precision in some order of the results. The reciprocal rank stays in its
range in any case.

Numbers are exact here, and a division by zero is no number (`quotient`). What is not a number stays
so in a sum, and is not above anything.
-/

namespace RustCodeMcp.Metrics

variable {K N Q : Type} [Field K] [LinearOrder K] [DecidableEq N]

/-! ### Scores -/

/-- A division of numbers that are not negative, as they are all here; `none` is what `0 / 0`
gives. -/
def quotient (a b : K) : Option K :=
  if b = 0 then none else some (a / b)

/-- The weight of a place is `1 / log2 (place + 2)` in the source. The results are given by their
symbol names. -/
def dcg (weight : ℕ → K) (results relevant : List N) (k : ℕ) : K :=
  (((results.take k).zipIdx.filter fun (symbolName, _) ↦ symbolName ∈ relevant).map
    fun (_, i) ↦ weight i).sum

/-- The gain of the best list there is: relevant names from the first place on. -/
def idealDcg (weight : ℕ → K) (relevant : List N) (k : ℕ) : K :=
  ((List.range (min k relevant.length)).map weight).sum

/-- The discounted gain by the ideal one. -/
def calculateNdcg (weight : ℕ → K) (results relevant : List N) (k : ℕ) : Option K :=
  if idealDcg weight relevant k = 0 then some 0
  else quotient (dcg weight results relevant k) (idealDcg weight relevant k)

/-- The reciprocal of the place of the first hit. -/
def calculateMrr (results relevant : List N) : Option K :=
  match results.findIdx? (· ∈ relevant) with
  | some pos => quotient 1 ((pos + 1 : ℕ) : K)
  | none => some 0

/-- The relevant results so far, and the precisions at their places. -/
def mapStep (relevant : List N) (state : ℕ × K) (result : N × ℕ) : ℕ × K :=
  if result.1 ∈ relevant then
    (state.1 + 1, state.2 + ((state.1 + 1 : ℕ) : K) / ((result.2 + 1 : ℕ) : K))
  else state

/-- The precisions at the places of the hits, by the number of names. -/
def calculateMap (results relevant : List N) : Option K :=
  let sumPrecision := (results.zipIdx.foldl (mapStep relevant) (0, 0)).2
  if relevant.isEmpty then some 0 else quotient sumPrecision (relevant.length : K)

/-- How many results carry a relevant name. -/
def hits (results relevant : List N) : ℕ :=
  results.countP (· ∈ relevant)

/-- The hits among the first `k`, by the number of names. -/
def calculateRecallAtK (results relevant : List N) (k : ℕ) : Option K :=
  if relevant.isEmpty then some 0
  else quotient (hits (results.take k) relevant : K) (relevant.length : K)

/-- The hits among the first `k`, by the number of results there. -/
def calculatePrecisionAtK (results relevant : List N) (k : ℕ) : Option K :=
  quotient (hits (results.take k) relevant : K) ((min k results.length : ℕ) : K)

/-! ### Averages over queries -/

/-- A query with the names that are relevant for it. -/
structure TestQuery (Q N : Type) where
  query : Q
  relevantChunkIds : List N

/-- The averages of the five scores. -/
structure EvaluationMetrics (K : Type) where
  ndcgAt10 : Option K
  mrr : Option K
  map : Option K
  recallAt20 : Option K
  precisionAt10 : Option K

/-- What is not a number stays so in a sum. -/
def plus (a b : Option K) : Option K := do
  return (← a) + (← b)

/-- The sum of some scores. -/
def total (values : List (Option K)) : Option K :=
  values.foldl plus (some 0)

/-- Their average, if there are any. -/
def average (values : List (Option K)) : Option K := do
  quotient (← total values) (values.length : K)

/-- The searches come first here; the sums only need their results. -/
def evaluateHybridSearch (weight : ℕ → K) (search : Q → ℕ → Except String (List N))
    (testQueries : List (TestQuery Q N)) : Except String (EvaluationMetrics K) := do
  let answers ← testQueries.mapM fun q ↦ do
    match search q.query 20 with
    | .ok results => pure (results, q.relevantChunkIds)
    | .error e => throw s!"Search failed: {e}"
  return {
    ndcgAt10 := average (answers.map fun (results, relevant) ↦
      calculateNdcg weight results relevant 10)
    mrr := average (answers.map fun (results, relevant) ↦ calculateMrr results relevant)
    map := average (answers.map fun (results, relevant) ↦ calculateMap results relevant)
    recallAt20 := average (answers.map fun (results, relevant) ↦
      calculateRecallAtK results relevant 20)
    precisionAt10 := average (answers.map fun (results, relevant) ↦
      calculatePrecisionAtK results relevant 10) }

/-- The best `k` so far, its average, and all that were tested. -/
structure TuningResult (K : Type) where
  bestK : ℕ
  bestNdcg : K
  /-- Each `k` with the average of its scores. -/
  kValuesTested : List (ℕ × Option K)

/-- The values of `k` that are tried. -/
def kValues : List ℕ :=
  [10, 20, 40, 60, 80, 100]

/-- An average that is not a number is not above the best so far. -/
def TuningResult.push (tuning : TuningResult K) (k : ℕ) (avgNdcg : Option K) : TuningResult K :=
  let tested := tuning.kValuesTested ++ [(k, avgNdcg)]
  match avgNdcg with
  | some ndcg =>
    if tuning.bestNdcg < ndcg then ⟨k, ndcg, tested⟩ else { tuning with kValuesTested := tested }
  | none => { tuning with kValuesTested := tested }

/-- One `k` of the loop. -/
def tuneStep (weight : ℕ → K) (searchWithK : Q → ℕ → ℕ → Except String (List N))
    (testQueries : List (TestQuery Q N)) (tuning : TuningResult K) (k : ℕ) :
    Except String (TuningResult K) := do
  let scores ← testQueries.mapM fun q ↦ do
    match searchWithK q.query 20 k with
    | .ok results => pure (calculateNdcg weight results q.relevantChunkIds 10)
    | .error e => throw s!"Search failed: {e}"
  return tuning.push k (average scores)

/-- Try each value of `k`, and keep the best. -/
def tuneK (weight : ℕ → K) (searchWithK : Q → ℕ → ℕ → Except String (List N))
    (testQueries : List (TestQuery Q N)) : Except String (TuningResult K) :=
  kValues.foldlM (tuneStep weight searchWithK testQueries) ⟨60, 0, []⟩

/-! ### Discounted hits -/

/-- The weights of places: positive, and less from place to place. -/
structure Discounts (weight : ℕ → K) : Prop where
  pos : ∀ i, 0 < weight i
  strictAnti : StrictAnti weight

/-- The weights of the places of hits, the first place being `i`. -/
def gain (weight : ℕ → K) (relevant : List N) : List N → ℕ → K
  | [], _ => 0
  | result :: results, i =>
    (if result ∈ relevant then weight i else 0) + gain weight relevant results (i + 1)

variable {weight : ℕ → K} {results relevant : List N} {k : ℕ}

omit [LinearOrder K] in
theorem sum_zipIdx_eq_gain (weight : ℕ → K) (results relevant : List N) (i : ℕ) :
    (((results.zipIdx i).filter fun (symbolName, _) ↦ symbolName ∈ relevant).map
      fun (_, i) ↦ weight i).sum = gain weight relevant results i := by
  induction results generalizing i with
  | nil => rfl
  | cons result results ih =>
    rw [List.zipIdx_cons, gain, ← ih]
    by_cases h : result ∈ relevant <;> simp [h]

omit [LinearOrder K] in
theorem dcg_eq (weight : ℕ → K) (results relevant : List N) (k : ℕ) :
    dcg weight results relevant k = gain weight relevant (results.take k) 0 :=
  sum_zipIdx_eq_gain weight _ _ 0

theorem hits_nil (results : List N) : hits results [] = 0 :=
  List.countP_eq_zero.2 fun _ _ ↦ by simp

theorem hits_cons (result : N) (results relevant : List N) :
    hits (result :: results) relevant =
      hits results relevant + if result ∈ relevant then 1 else 0 := by
  rw [hits, hits, List.countP_cons]
  simp only [decide_eq_true_eq]

variable [IsStrictOrderedRing K]

/-- The hits weigh no more than as many places from the first on. -/
theorem gain_le (hanti : Antitone weight) (results relevant : List N) (i : ℕ) :
    gain weight relevant results i ≤
      ((List.range (hits results relevant)).map fun j ↦ weight (i + j)).sum := by
  induction results generalizing i with
  | nil => exact le_rfl
  | cons result results ih =>
    rw [gain, hits_cons]
    have hnext : ∀ j, i + 1 + j = i + (j + 1) := fun j ↦ by omega
    split_ifs with h
    · rw [List.range_succ_eq_map, List.map_cons, List.sum_cons, List.map_map]
      refine add_le_add le_rfl ((ih (i + 1)).trans (le_of_eq ?_))
      exact congrArg List.sum (List.map_congr_left fun j _ ↦ congrArg weight (hnext j))
    · rw [zero_add, Nat.add_zero]
      refine (ih (i + 1)).trans (List.sum_le_sum fun j _ ↦ hanti ?_)
      omega

theorem le_gain {c : K} (hc : ∀ i, c ≤ weight i) (results relevant : List N) (i : ℕ) :
    (hits results relevant : K) * c ≤ gain weight relevant results i := by
  induction results generalizing i with
  | nil => simp [hits, gain]
  | cons result results ih =>
    rw [gain, hits_cons]
    split_ifs with h
    · rw [Nat.cast_add, Nat.cast_one, add_mul, one_mul, add_comm]
      exact add_le_add (hc i) (ih (i + 1))
    · rw [zero_add, Nat.add_zero]
      exact ih (i + 1)

theorem hits_take_le (results relevant : List N) (k : ℕ) :
    hits (results.take k) relevant ≤ min k results.length := by
  rw [← List.length_take]
  exact List.countP_le_length

theorem sum_range_mono (hpos : ∀ i, 0 ≤ weight i) {m n : ℕ} (h : m ≤ n) :
    ((List.range m).map weight).sum ≤ ((List.range n).map weight).sum := by
  induction h with
  | refl => exact le_rfl
  | step _ ih =>
    rw [List.range_succ, List.map_append, List.sum_append, List.map_singleton, List.sum_singleton]
    exact ih.trans (le_add_of_nonneg_right (hpos _))

/-! ### Ranges -/

/-- The score is a number, and from zero to one. -/
def InRange (score : Option K) : Prop :=
  ∃ v ∈ score, 0 ≤ v ∧ v ≤ 1

omit [IsStrictOrderedRing K] in
theorem not_inRange_quotient_zero {a : K} : ¬ InRange (quotient a 0) := by
  rw [quotient, if_pos rfl]
  rintro ⟨v, hv, -⟩
  nomatch hv

/-- A quotient is in its range if it is no more than one. -/
theorem inRange_quotient {a b : K} (ha : 0 ≤ a) (hb : 0 < b) : InRange (quotient a b) ↔ a ≤ b := by
  rw [quotient, if_neg hb.ne']
  constructor
  · rintro ⟨v, hv, -, hle⟩
    obtain rfl := Option.some.inj hv
    exact (div_le_one hb).1 hle
  · exact fun h ↦ ⟨a / b, rfl, div_nonneg ha hb.le, (div_le_one hb).2 h⟩

theorem inRange_zero : InRange (some (0 : K)) :=
  ⟨0, rfl, le_rfl, zero_le_one⟩

/-- Weights that are all but equal, so that more hits weigh more. -/
theorem exists_discounts (K : Type) [Field K] [LinearOrder K] [IsStrictOrderedRing K] (n : ℕ) :
    ∃ weight : ℕ → K, Discounts weight ∧ (∀ i, 1 ≤ weight i) ∧
      ((List.range n).map weight).sum < n + 1 := by
  have hn : (0 : K) < n + 1 := by positivity
  refine ⟨fun i ↦ 1 + 1 / ((n + 1) * (i + 1)), ⟨fun i ↦ by positivity, fun i j h ↦ ?_⟩,
    fun i ↦ le_add_of_nonneg_right (by positivity), ?_⟩
  · have hcast : (i : K) < j := Nat.cast_lt.2 h
    have hi : (0 : K) < (n + 1) * (i + 1) := by positivity
    exact add_lt_add_right (one_div_lt_one_div_of_lt hi (by gcongr)) 1
  · have hle : ∀ w ∈ (List.range n).map fun i : ℕ ↦ (1 + 1 / ((n + 1) * (i + 1)) : K),
        w ≤ 1 + 1 / (n + 1) := by
      intro w hw
      obtain ⟨i, -, rfl⟩ := List.mem_map.1 hw
      refine add_le_add le_rfl (one_div_le_one_div_of_le hn ?_)
      exact le_mul_of_one_le_right hn.le (le_add_of_nonneg_left (Nat.cast_nonneg i))
    have hsum := List.sum_le_card_nsmul _ _ hle
    rw [List.length_map, List.length_range, nsmul_eq_mul] at hsum
    refine hsum.trans_lt ?_
    have hlt : (n : K) / (n + 1) < 1 := (div_lt_one hn).2 (lt_add_one _)
    calc (n : K) * (1 + 1 / (n + 1)) = n + n / (n + 1) := by ring
      _ < n + 1 := add_lt_add_right hlt _

/-- **The discounted gain is in its range for all weights exactly where there are no more hits than
names.** -/
theorem calculateNdcg_inRange_iff (K : Type) [Field K] [LinearOrder K] [IsStrictOrderedRing K] :
    (∀ weight : ℕ → K, Discounts weight → InRange (calculateNdcg weight results relevant k)) ↔
      hits (results.take k) relevant ≤ relevant.length := by
  constructor
  · intro h
    by_contra! hlt
    have hk : min k relevant.length = relevant.length :=
      min_eq_right (hlt.le.trans ((hits_take_le results relevant k).trans (min_le_left _ _)))
    obtain ⟨weight, hdiscounts, hone, hideal⟩ := exists_discounts K relevant.length
    have hgain : (relevant.length : K) + 1 ≤ dcg weight results relevant k := by
      rw [dcg_eq]
      refine le_trans ?_ (le_gain hone _ _ _)
      rw [mul_one]
      exact_mod_cast hlt
    have hrelevant : relevant.length ≠ 0 := by
      intro hzero
      rw [List.length_eq_zero_iff.1 hzero, hits_nil] at hlt
      exact Nat.not_lt_zero _ hlt
    have hpos : 0 < ((List.range relevant.length).map weight).sum :=
      List.sum_pos _ (fun w hw ↦ by
        obtain ⟨i, -, rfl⟩ := List.mem_map.1 hw
        exact hdiscounts.pos i) (by simpa using hrelevant)
    have hrange := h weight hdiscounts
    rw [calculateNdcg, idealDcg, hk, if_neg hpos.ne', inRange_quotient ?_ hpos] at hrange
    · exact (hideal.trans_le hgain).not_ge hrange
    · exact (add_nonneg (Nat.cast_nonneg _) zero_le_one).trans hgain
  · intro h weight hdiscounts
    have hpos : 0 ≤ idealDcg weight relevant k := List.sum_nonneg fun w hw ↦ by
      obtain ⟨i, -, rfl⟩ := List.mem_map.1 hw
      exact (hdiscounts.pos i).le
    rw [calculateNdcg]
    split_ifs with hzero
    · exact inRange_zero
    · have hdcg : 0 ≤ dcg weight results relevant k := by
        rw [dcg_eq]
        refine le_trans ?_ (le_gain (fun i ↦ (hdiscounts.pos i).le) _ _ _)
        rw [mul_zero]
      rw [inRange_quotient hdcg (lt_of_le_of_ne hpos (Ne.symm hzero)), dcg_eq]
      refine (gain_le hdiscounts.strictAnti.antitone _ _ 0).trans ?_
      simp only [Nat.zero_add]
      refine sum_range_mono (fun i ↦ (hdiscounts.pos i).le) (le_min ?_ h)
      exact (hits_take_le results relevant k).trans (min_le_left _ _)

/-- **The reciprocal rank is in its range always.** -/
theorem calculateMrr_inRange (K : Type) [Field K] [LinearOrder K] [IsStrictOrderedRing K]
    (results relevant : List N) : InRange (calculateMrr results relevant : Option K) := by
  rw [calculateMrr]
  split
  · rw [inRange_quotient zero_le_one (by positivity)]
    exact_mod_cast Nat.succ_le_succ (Nat.zero_le _)
  · exact inRange_zero

/-- Each hit adds its precision, which is no more than one. -/
theorem foldl_mapStep (relevant results : List N) {i found : ℕ} (sum : K) (h : found ≤ i) :
    sum ≤ ((results.zipIdx i).foldl (mapStep relevant) (found, sum)).2 ∧
      ((results.zipIdx i).foldl (mapStep relevant) (found, sum)).2 ≤
        sum + hits results relevant := by
  induction results generalizing i found sum with
  | nil => simp [hits]
  | cons result results ih =>
    rw [List.zipIdx_cons, List.foldl_cons, mapStep, hits_cons]
    dsimp only
    split_ifs with hmem
    · have hprecision : ((found + 1 : ℕ) : K) / ((i + 1 : ℕ) : K) ≤ 1 :=
        (div_le_one (by positivity)).2 (by exact_mod_cast Nat.succ_le_succ h)
      obtain ⟨hle, hge⟩ := @ih (i + 1) (found + 1)
        (sum + ((found + 1 : ℕ) : K) / ((i + 1 : ℕ) : K)) (Nat.succ_le_succ h)
      refine ⟨(le_add_of_nonneg_right (by positivity)).trans hle, hge.trans ?_⟩
      rw [Nat.cast_add (hits results relevant) 1, Nat.cast_one, add_assoc,
        add_comm (hits results relevant : K)]
      exact add_le_add le_rfl (add_le_add hprecision le_rfl)
    · exact ih sum (h.trans (Nat.le_succ i))

/-- Hits from the first place on have precision one each. -/
theorem foldl_mapStep_of_forall {relevant results : List N} (h : ∀ r ∈ results, r ∈ relevant)
    (i : ℕ) : (results.zipIdx i).foldl (mapStep relevant) (i, (i : K)) =
      (i + results.length, ((i + results.length : ℕ) : K)) := by
  induction results generalizing i with
  | nil => simp
  | cons result results ih =>
    have hone : ((i + 1 : ℕ) : K) / ((i + 1 : ℕ) : K) = 1 := div_self (by positivity)
    rw [List.zipIdx_cons, List.foldl_cons, mapStep, if_pos (h _ List.mem_cons_self), hone,
      ← Nat.cast_succ, ih (fun r hr ↦ h r (List.mem_cons_of_mem _ hr)) (i + 1),
      List.length_cons, Nat.add_right_comm, Nat.add_assoc]

omit [LinearOrder K] [IsStrictOrderedRing K] in
theorem foldl_mapStep_of_notMem {relevant results : List N} (h : ∀ r ∈ results, r ∉ relevant)
    (i : ℕ) (state : ℕ × K) : (results.zipIdx i).foldl (mapStep relevant) state = state := by
  induction results generalizing i with
  | nil => rfl
  | cons result results ih =>
    rw [List.zipIdx_cons, List.foldl_cons, mapStep, if_neg (h _ List.mem_cons_self),
      ih fun r hr ↦ h r (List.mem_cons_of_mem _ hr)]

/-- With the hits first the precisions add up to their number. -/
theorem exists_perm_foldl_mapStep (results relevant : List N) :
    ∃ results' : List N, results'.Perm results ∧
      (results'.zipIdx.foldl (mapStep relevant) (0, (0 : K))).2 = hits results relevant := by
  refine ⟨_, List.filter_append_perm (· ∈ relevant) results, ?_⟩
  rw [List.zipIdx_append, List.foldl_append]
  have hmem : ∀ r ∈ results.filter (· ∈ relevant), r ∈ relevant :=
    fun r hr ↦ of_decide_eq_true (List.mem_filter.1 hr).2
  have hfirst := foldl_mapStep_of_forall (K := K) hmem 0
  rw [Nat.cast_zero, Nat.zero_add] at hfirst
  rw [hfirst, foldl_mapStep_of_notMem fun r hr ↦ by simpa using (List.mem_filter.1 hr).2]
  exact congrArg Nat.cast List.countP_eq_length_filter.symm

/-- With no more hits than names the average precision is in its range. -/
theorem calculateMap_inRange (h : hits results relevant ≤ relevant.length) :
    InRange (calculateMap results relevant : Option K) := by
  rw [calculateMap]
  obtain ⟨hge, hle⟩ := foldl_mapStep (K := K) relevant results 0 (Nat.le_refl 0)
  cases relevant with
  | nil => exact inRange_zero
  | cons name relevant =>
    rw [zero_add] at hle
    exact (inRange_quotient hge (by simp; positivity)).2 (hle.trans (by exact_mod_cast h))

/-- **The average precision is in its range in every order of the results exactly where there are no
more hits than names.** -/
theorem calculateMap_inRange_iff (K : Type) [Field K] [LinearOrder K] [IsStrictOrderedRing K]
    (results relevant : List N) :
    (∀ results', results'.Perm results → InRange (calculateMap results' relevant : Option K)) ↔
      hits results relevant ≤ relevant.length := by
  constructor
  · intro h
    obtain ⟨results', hperm, hsum⟩ := exists_perm_foldl_mapStep (K := K) results relevant
    have hrange := h results' hperm
    cases relevant with
    | nil => rw [hits_nil]; exact Nat.zero_le _
    | cons name relevant =>
      rw [calculateMap, hsum] at hrange
      have hle := (inRange_quotient (Nat.cast_nonneg _) (by simp; positivity)).1 hrange
      exact_mod_cast hle
  · intro h results' hperm
    refine calculateMap_inRange ?_
    rwa [hits, hperm.countP_eq]

/-- **The recall is in its range exactly when the first places have no more hits than there are
names.** -/
theorem calculateRecallAtK_inRange_iff (K : Type) [Field K] [LinearOrder K] [IsStrictOrderedRing K]
    (results relevant : List N) (k : ℕ) :
    InRange (calculateRecallAtK results relevant k : Option K) ↔
      hits (results.take k) relevant ≤ relevant.length := by
  cases relevant with
  | nil => exact iff_of_true inRange_zero (by rw [hits_nil]; exact Nat.zero_le _)
  | cons name relevant =>
    rw [calculateRecallAtK]
    exact (inRange_quotient (Nat.cast_nonneg _) (by simp; positivity)).trans Nat.cast_le

/-- **The precision is in its range exactly when there are results**, and a place to look at. -/
theorem calculatePrecisionAtK_inRange_iff (K : Type) [Field K] [LinearOrder K]
    [IsStrictOrderedRing K] (results relevant : List N) (k : ℕ) :
    InRange (calculatePrecisionAtK results relevant k : Option K) ↔ results ≠ [] ∧ k ≠ 0 := by
  rw [calculatePrecisionAtK]
  obtain hzero | hpos := Nat.eq_zero_or_pos (min k results.length)
  · rw [hzero, Nat.cast_zero]
    refine iff_of_false not_inRange_quotient_zero ?_
    rintro ⟨hresults, hk⟩
    have hlength : 0 < results.length := List.length_pos_iff.2 hresults
    omega
  · refine iff_of_true ((inRange_quotient (Nat.cast_nonneg _) (by exact_mod_cast hpos)).2
      (by exact_mod_cast hits_take_le results relevant k)) ⟨?_, ?_⟩
    · rintro rfl
      simp at hpos
    · rintro rfl
      simp at hpos

/-! ### Averages of scores in their range -/

theorem exists_of_mapM_ok {α β : Type} {f : α → Except String β} {as : List α} {bs : List β}
    (h : as.mapM f = .ok bs) : bs.length = as.length ∧ ∀ b ∈ bs, ∃ a ∈ as, f a = .ok b := by
  induction as generalizing bs with
  | nil =>
    obtain rfl := Except.ok.inj h
    exact ⟨rfl, nofun⟩
  | cons a as ih =>
    rw [List.mapM_cons] at h
    match ha : f a, has : as.mapM f with
    | .error _, _ => rw [ha] at h; nomatch h
    | .ok _, .error _ => rw [ha, has] at h; nomatch h
    | .ok b, .ok bs' =>
      rw [ha, has] at h
      obtain rfl := Except.ok.inj h
      obtain ⟨hlength, hexists⟩ := ih has
      refine ⟨congrArg Nat.succ hlength, List.forall_mem_cons.2 ⟨⟨a, List.mem_cons_self, ha⟩, ?_⟩⟩
      intro b' hb'
      obtain ⟨a', hmem, ha'⟩ := hexists b' hb'
      exact ⟨a', List.mem_cons_of_mem a hmem, ha'⟩

/-- A sum of scores in their range lies between none and their number. -/
theorem foldl_plus {values : List (Option K)} (h : ∀ v ∈ values, InRange v) (sum : K) :
    ∃ t, values.foldl plus (some sum) = some t ∧ sum ≤ t ∧ t ≤ sum + values.length := by
  induction values generalizing sum with
  | nil => exact ⟨sum, rfl, le_rfl, by simp⟩
  | cons value values ih =>
    obtain ⟨⟨v, hv, hnonneg, hle⟩, hvalues⟩ := List.forall_mem_cons.1 h
    obtain rfl := Option.mem_def.1 hv
    obtain ⟨t, ht, hge, hbound⟩ := ih hvalues (sum + v)
    refine ⟨t, ht, (le_add_of_nonneg_right hnonneg).trans hge, hbound.trans ?_⟩
    rw [List.length_cons, Nat.cast_succ, add_assoc, add_comm (values.length : K)]
    exact add_le_add le_rfl (add_le_add hle le_rfl)

/-- An average of scores in their range is in it, if there are any. -/
theorem average_inRange {values : List (Option K)} (h : ∀ v ∈ values, InRange v)
    (hvalues : values ≠ []) : InRange (average values) := by
  obtain ⟨t, ht, hge, hle⟩ := foldl_plus h 0
  have hlength : (0 : K) < values.length := Nat.cast_pos.2 (List.length_pos_iff.2 hvalues)
  rw [average, total, ht]
  rw [zero_add] at hle
  exact (inRange_quotient hge hlength).2 hle

omit [IsStrictOrderedRing K] in
theorem average_nil : average ([] : List (Option K)) = none := by
  show quotient (0 : K) ((0 : ℕ) : K) = none
  rw [Nat.cast_zero, quotient, if_pos rfl]

/-- All five scores of a result list. -/
structure Scores (results relevant : List N) (k : ℕ) (weight : ℕ → K) : Prop where
  ndcgAtK : InRange (calculateNdcg weight results relevant k)
  mrr : InRange (calculateMrr results relevant : Option K)
  map : InRange (calculateMap results relevant : Option K)
  recallAtK : InRange (calculateRecallAtK results relevant k : Option K)
  precisionAtK : InRange (calculatePrecisionAtK results relevant k : Option K)

theorem hits_take (results relevant : List N) (k : ℕ) :
    hits (results.take k) relevant ≤ hits results relevant :=
  (List.take_sublist k results).countP_le

/-- With no more hits than names all scores of a list are in their range. -/
theorem scores_of_hits_le (hdiscounts : Discounts weight) (hk : k ≠ 0) (hresults : results ≠ [])
    (h : hits results relevant ≤ relevant.length) : Scores results relevant k weight where
  ndcgAtK := (calculateNdcg_inRange_iff K).2 ((hits_take _ _ _).trans h) weight hdiscounts
  mrr := calculateMrr_inRange K results relevant
  map := calculateMap_inRange h
  recallAtK := (calculateRecallAtK_inRange_iff K _ _ _).2 ((hits_take _ _ _).trans h)
  precisionAtK := (calculatePrecisionAtK_inRange_iff K _ _ _).2 ⟨hresults, hk⟩

/-- All of the scores are in their range, whatever the place and the weights, exactly where there
are results and no more hits than names. -/
theorem forall_scores_iff (K : Type) [Field K] [LinearOrder K] [IsStrictOrderedRing K]
    (results relevant : List N) :
    (∀ k, k ≠ 0 → ∀ weight : ℕ → K, Discounts weight → Scores results relevant k weight) ↔
      results ≠ [] ∧ hits results relevant ≤ relevant.length := by
  constructor
  · intro h
    obtain ⟨weight, hdiscounts, -⟩ := exists_discounts K 0
    have hscores := h (results.length + 1) (Nat.succ_ne_zero _) weight hdiscounts
    have hrecall := (calculateRecallAtK_inRange_iff K _ _ _).1 hscores.recallAtK
    rw [List.take_of_length_le (Nat.le_succ _)] at hrecall
    exact ⟨((calculatePrecisionAtK_inRange_iff K _ _ _).1 hscores.precisionAtK).1, hrecall⟩
  · rintro ⟨hresults, hle⟩ k hk weight hdiscounts
    exact scores_of_hits_le hdiscounts hk hresults hle

/-- The averages of an evaluation are in their range. -/
structure EvaluationMetrics.Ranges (metrics : EvaluationMetrics K) : Prop where
  ndcgAt10 : InRange metrics.ndcgAt10
  mrr : InRange metrics.mrr
  map : InRange metrics.map
  recallAt20 : InRange metrics.recallAt20
  precisionAt10 : InRange metrics.precisionAt10

/-- With no more hits than names the averages over queries are in their range. -/
theorem evaluateHybridSearch_ranges (hdiscounts : Discounts weight)
    {search : Q → ℕ → Except String (List N)} {testQueries : List (TestQuery Q N)}
    (hqueries : testQueries ≠ [])
    (hsearch : ∀ q ∈ testQueries, ∀ results, search q.query 20 = .ok results →
      results ≠ [] ∧ hits results q.relevantChunkIds ≤ q.relevantChunkIds.length)
    {metrics : EvaluationMetrics K}
    (h : evaluateHybridSearch weight search testQueries = .ok metrics) : metrics.Ranges := by
  rw [evaluateHybridSearch] at h
  generalize hanswers : testQueries.mapM (m := Except String) _ = answers at h
  match answers with
  | .error _ => nomatch h
  | .ok answers =>
    obtain rfl := Except.ok.inj h
    obtain ⟨hlength, hexists⟩ := exists_of_mapM_ok hanswers
    have hne : answers ≠ [] := fun hnil ↦ hqueries (List.length_eq_zero_iff.1 (by
      rw [← hlength, hnil, List.length_nil]))
    have hscores : ∀ answer ∈ answers, ∀ k ≠ 0, Scores answer.1 answer.2 k weight := by
      intro answer hanswer k hk
      obtain ⟨q, hq, hfound⟩ := hexists answer hanswer
      match hresults : search q.query 20 with
      | .error _ => rw [hresults] at hfound; nomatch hfound
      | .ok results =>
        rw [hresults] at hfound
        obtain rfl := Except.ok.inj hfound
        obtain ⟨hnonempty, hle⟩ := hsearch q hq results hresults
        exact scores_of_hits_le hdiscounts hk hnonempty hle
    have haverage : ∀ score : List N × List N → Option K,
        (∀ answer ∈ answers, InRange (score answer)) → InRange (average (answers.map score)) :=
      fun score hscore ↦ average_inRange (List.forall_mem_map.2 hscore)
        (mt List.map_eq_nil_iff.1 hne)
    exact {
      ndcgAt10 := haverage _ fun answer ha ↦ (hscores answer ha 10 (by decide)).ndcgAtK
      mrr := haverage _ fun answer ha ↦ (hscores answer ha 10 (by decide)).mrr
      map := haverage _ fun answer ha ↦ (hscores answer ha 10 (by decide)).map
      recallAt20 := haverage _ fun answer ha ↦ (hscores answer ha 20 (by decide)).recallAtK
      precisionAt10 := haverage _ fun answer ha ↦ (hscores answer ha 10 (by decide)).precisionAtK }

/-- The best average so far is one from zero to one, and the tested averages are in their range. -/
structure TuningResult.Ranges (testQueries : List (TestQuery Q N)) (tuning : TuningResult K) :
    Prop where
  nonneg : 0 ≤ tuning.bestNdcg
  le_one : tuning.bestNdcg ≤ 1
  tested : testQueries ≠ [] → ∀ test ∈ tuning.kValuesTested, InRange test.2

omit [DecidableEq N] [IsStrictOrderedRing K] in
theorem TuningResult.push_ranges {testQueries : List (TestQuery Q N)} {tuning : TuningResult K}
    (hranges : tuning.Ranges testQueries) {avgNdcg : Option K}
    (havg : InRange avgNdcg ∨ testQueries = [] ∧ avgNdcg = none) :
    (tuning.push k avgNdcg).Ranges testQueries := by
  have htested : testQueries ≠ [] → ∀ test ∈ tuning.kValuesTested ++ [(k, avgNdcg)],
      InRange test.2 := fun hqueries ↦ List.forall_mem_append.2 ⟨hranges.tested hqueries,
    List.forall_mem_singleton.2 (havg.resolve_right fun hnone ↦ hqueries hnone.1)⟩
  obtain ⟨ndcg, hndcg, hnonneg, hle⟩ | ⟨-, rfl⟩ := havg
  · obtain rfl := Option.mem_def.1 hndcg
    show (if tuning.bestNdcg < ndcg then _ else _ : TuningResult K).Ranges testQueries
    split_ifs
    · exact ⟨hnonneg, hle, htested⟩
    · exact ⟨hranges.nonneg, hranges.le_one, htested⟩
  · exact ⟨hranges.nonneg, hranges.le_one, htested⟩

theorem tuneStep_ranges (hdiscounts : Discounts weight)
    {searchWithK : Q → ℕ → ℕ → Except String (List N)} {testQueries : List (TestQuery Q N)}
    (hsearch : ∀ k, ∀ q ∈ testQueries, ∀ results, searchWithK q.query 20 k = .ok results →
      hits (results.take 10) q.relevantChunkIds ≤ q.relevantChunkIds.length)
    {tuning next : TuningResult K} (hranges : tuning.Ranges testQueries)
    (h : tuneStep weight searchWithK testQueries tuning k = .ok next) :
    next.Ranges testQueries := by
  rw [tuneStep] at h
  generalize hscores : testQueries.mapM (m := Except String) _ = scores at h
  match scores with
  | .error _ => nomatch h
  | .ok scores =>
    obtain rfl := Except.ok.inj h
    obtain ⟨hlength, hexists⟩ := exists_of_mapM_ok hscores
    refine TuningResult.push_ranges hranges ?_
    cases testQueries with
    | nil =>
      rw [List.length_eq_zero_iff.1 hlength]
      exact .inr ⟨rfl, average_nil⟩
    | cons first queries =>
      have hne : scores ≠ [] := List.ne_nil_of_length_eq_add_one hlength
      refine .inl (average_inRange (fun score hscore ↦ ?_) hne)
      obtain ⟨q, hq, hfound⟩ := hexists score hscore
      match hresults : searchWithK q.query 20 k with
      | .error _ => rw [hresults] at hfound; nomatch hfound
      | .ok results =>
        rw [hresults] at hfound
        obtain rfl := Except.ok.inj hfound
        exact (calculateNdcg_inRange_iff K).2 (hsearch k q hq results hresults) weight hdiscounts

/-- With no more hits than names the best average is in its range, and so are all that were
tested. -/
theorem tuneK_ranges (hdiscounts : Discounts weight)
    {searchWithK : Q → ℕ → ℕ → Except String (List N)} {testQueries : List (TestQuery Q N)}
    (hsearch : ∀ k, ∀ q ∈ testQueries, ∀ results, searchWithK q.query 20 k = .ok results →
      hits (results.take 10) q.relevantChunkIds ≤ q.relevantChunkIds.length)
    {tuning : TuningResult K} (h : tuneK weight searchWithK testQueries = .ok tuning) :
    tuning.Ranges testQueries := by
  have hrun : ∀ (ks : List ℕ) (start : TuningResult K), start.Ranges testQueries →
      ks.foldlM (tuneStep weight searchWithK testQueries) start = .ok tuning →
      tuning.Ranges testQueries := by
    intro ks
    induction ks with
    | nil =>
      intro start hstart hdone
      obtain rfl := Except.ok.inj hdone
      exact hstart
    | cons k ks ih =>
      intro start hstart hrest
      rw [List.foldlM_cons] at hrest
      match hnext : tuneStep weight searchWithK testQueries start k with
      | .error _ => rw [hnext] at hrest; nomatch hrest
      | .ok next =>
        rw [hnext] at hrest
        exact ih next (tuneStep_ranges hdiscounts hsearch hstart hnext) hrest
  exact hrun kValues ⟨60, 0, []⟩ ⟨le_rfl, zero_le_one, fun _ ↦ nofun⟩ h

/-- **The scores of a result list are in their range for every number of places and all weights
exactly where the list is not empty and has no more hits than there are names**; and so score by
score, with the places that each of them counts. An evaluation and a tuning of such lists have
averages in the same range. -/
theorem metrics_iff (K N Q : Type) [Field K] [LinearOrder K] [IsStrictOrderedRing K]
    [DecidableEq N] :
    (∀ results relevant : List N,
      ((∀ k, k ≠ 0 → ∀ weight : ℕ → K, Discounts weight → Scores results relevant k weight) ↔
        results ≠ [] ∧ hits results relevant ≤ relevant.length)) ∧
      (∀ (results relevant : List N) (k : ℕ),
        ((∀ weight : ℕ → K, Discounts weight → InRange (calculateNdcg weight results relevant k)) ↔
          hits (results.take k) relevant ≤ relevant.length) ∧
        InRange (calculateMrr results relevant : Option K) ∧
        ((∀ results', results'.Perm results →
          InRange (calculateMap results' relevant : Option K)) ↔
          hits results relevant ≤ relevant.length) ∧
        (InRange (calculateRecallAtK results relevant k : Option K) ↔
          hits (results.take k) relevant ≤ relevant.length) ∧
        (InRange (calculatePrecisionAtK results relevant k : Option K) ↔ results ≠ [] ∧ k ≠ 0)) ∧
      (∀ weight : ℕ → K, Discounts weight → ∀ testQueries : List (TestQuery Q N),
        (∀ search metrics, testQueries ≠ [] →
          (∀ q ∈ testQueries, ∀ results, search q.query 20 = .ok results →
            results ≠ [] ∧ hits results q.relevantChunkIds ≤ q.relevantChunkIds.length) →
          evaluateHybridSearch weight search testQueries = .ok metrics → metrics.Ranges) ∧
        ∀ searchWithK tuning,
          (∀ k, ∀ q ∈ testQueries, ∀ results, searchWithK q.query 20 k = .ok results →
            hits (results.take 10) q.relevantChunkIds ≤ q.relevantChunkIds.length) →
          tuneK weight searchWithK testQueries = .ok tuning → tuning.Ranges testQueries) := by
  refine ⟨forall_scores_iff K, fun results relevant k ↦ ?_, fun weight hdiscounts testQueries ↦ ?_⟩
  · exact ⟨calculateNdcg_inRange_iff K, calculateMrr_inRange K results relevant,
      calculateMap_inRange_iff K results relevant,
      calculateRecallAtK_inRange_iff K results relevant k,
      calculatePrecisionAtK_inRange_iff K results relevant k⟩
  · exact ⟨fun search metrics hqueries hsearch h ↦
      evaluateHybridSearch_ranges hdiscounts hqueries hsearch h, fun searchWithK tuning hsearch h ↦
      tuneK_ranges hdiscounts hsearch h⟩

theorem metrics_iff_rat :
    (∀ k, k ≠ 0 → ∀ weight : ℕ → ℚ, Discounts weight →
      Scores ["search", "index"] ["index"] k weight) ∧
      ∀ weight : ℕ → ℚ, Discounts weight →
        (∀ metrics, evaluateHybridSearch weight (fun _ _ ↦ .ok ["search", "index"])
          [⟨"build", ["index"]⟩] = .ok metrics → metrics.Ranges) ∧
        ∀ tuning, tuneK weight (fun _ _ _ ↦ .ok ["search", "index"]) [⟨"build", ["index"]⟩] =
          .ok tuning → tuning.Ranges [TestQuery.mk "build" ["index"]] := by
  obtain ⟨hscores, -, haverages⟩ := metrics_iff ℚ String String
  have hhits : ["search", "index"] ≠ [] ∧ hits ["search", "index"] ["index"] ≤ 1 := by decide
  refine ⟨(hscores _ _).2 hhits, fun weight hdiscounts ↦ ⟨fun metrics ↦ ?_, fun tuning ↦ ?_⟩⟩
  · refine (haverages weight hdiscounts _).1 _ metrics (List.cons_ne_nil _ _) ?_
    rintro q hq results h
    obtain rfl := List.mem_singleton.1 hq
    obtain rfl := Except.ok.inj h
    exact hhits
  · refine (haverages weight hdiscounts _).2 _ tuning ?_
    rintro k q hq results h
    obtain rfl := List.mem_singleton.1 hq
    obtain rfl := Except.ok.inj h
    exact hhits.2

/-- Two parts of one symbol count as two hits for one name, and no result at all has no
precision. -/
theorem not_inRange_repeated :
    calculateRecallAtK ["search", "search"] ["search"] 2 = some (2 : ℚ) ∧
      calculateMap ["search", "search"] ["search"] = some (2 : ℚ) ∧
      (∀ weight : ℕ → ℚ, Discounts weight →
        ¬ InRange (calculateNdcg weight ["search", "search"] ["search"] 2)) ∧
      calculatePrecisionAtK [] ["search"] 2 = (none : Option ℚ) ∧
      ¬ InRange (some (2 : ℚ)) := by
  refine ⟨by decide +kernel, by decide +kernel, fun weight hdiscounts ↦ ?_, by decide +kernel, ?_⟩
  · have hdcg : dcg weight ["search", "search"] ["search"] 2 = weight 0 + weight 1 := by
      simp [dcg]
    have hideal : idealDcg weight ["search"] 2 = weight 0 := by simp [idealDcg]
    have hpos := hdiscounts.pos
    rw [calculateNdcg, hideal, if_neg (hpos 0).ne', hdcg,
      inRange_quotient (add_pos (hpos 0) (hpos 1)).le (hpos 0), not_le]
    exact lt_add_of_pos_right _ (hpos 1)
  · rintro ⟨v, hv, -, hle⟩
    obtain rfl := Option.some.inj hv
    exact absurd hle (by decide)

end RustCodeMcp.Metrics
