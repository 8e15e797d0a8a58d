import Mathlib.Algebra.Order.Field.Rat
import Mathlib.Data.List.AList
import Mathlib.Data.List.Dedup
import Mathlib.Tactic.Linarith
import RustCodeMcp.Chunker.Types
import RustCodeMcp.Order.Ranking

/-!
# Reciprocal rank fusion

Two engines answer a query with ranked lists of ids. The fusion adds up, for every id, the weighted
reciprocals of its ranks, and sorts by the sum. The scores are collected in a hash map, whose values
come out in no particular order, and the sort goes by the score alone. So of two ids with equal
scores either may come first, and when such a tie reaches into the limit, either may be the one that
is cut off (`fusion_orderFree_iff`).

**A tie is decided by the hash map.** The order in which its values come out is a parameter of the
fusion here, any permutation, and the answer is said to be free of it when no choice of it makes a
difference (`OrderFree`). Which hits are fused, and with which scores, does not depend on it at all;
only their places do.

What does not depend on the order is proved first:

* `rrfScore_eq`: the score of an id is the sum of its shares;
* `mem_fusion` and `nodup_fusion`: the answer has the ids that the engines found, each once;
* `fusion_orderFree_iff`: and it is the same for every order exactly when no tie reaches into the
  limit.
-/

namespace RustCodeMcp

/-- What the fusion knows of an id. Raw scores are handed through. -/
structure RrfScore (Score : Type) where
  chunkId : ChunkId
  rrfScore : ℚ
  vectorScore : Option Score
  vectorRank : Option ℕ
  bm25Score : Option Score
  bm25Rank : Option ℕ

variable {Score : Type}

/-- A ranked list of ids with their raw scores, best first. -/
abbrev Hits (Score : Type) := List (ChunkId × Score)

namespace RrfScore

/-- An id that no engine has found yet. -/
def newEntry (chunkId : ChunkId) : RrfScore Score :=
  ⟨chunkId, 0, none, none, none, none⟩

/-- Count a hit of the vector engine in. -/
def addVector (k weight : ℚ) (entry : RrfScore Score) (rank : ℕ) (score : Score) : RrfScore Score :=
  { entry with
    rrfScore := entry.rrfScore + 1 / (k + (rank + 1 : ℕ)) * weight
    vectorScore := some score
    vectorRank := some (rank + 1) }

/-- Count a hit of the BM25 engine in. -/
def addBm25 (k weight : ℚ) (entry : RrfScore Score) (rank : ℕ) (score : Score) : RrfScore Score :=
  { entry with
    rrfScore := entry.rrfScore + 1 / (k + (rank + 1 : ℕ)) * weight
    bm25Score := some score
    bm25Rank := some (rank + 1) }

@[simp] theorem chunkId_addVector {k weight : ℚ} {entry : RrfScore Score} {rank : ℕ}
    {score : Score} : (addVector k weight entry rank score).chunkId = entry.chunkId := rfl

@[simp] theorem chunkId_addBm25 {k weight : ℚ} {entry : RrfScore Score} {rank : ℕ}
    {score : Score} : (addBm25 k weight entry rank score).chunkId = entry.chunkId := rfl

end RrfScore

/-- The scores collected so far. -/
abbrev Scores (Score : Type) := AList fun _ : ChunkId ↦ RrfScore Score

/-- Update the entry of an id, or a new one. -/
def countHit (add : RrfScore Score → ℕ → Score → RrfScore Score) (scores : Scores Score)
    (hit : (ChunkId × Score) × ℕ) : Scores Score :=
  let entry := (scores.lookup hit.1.1).getD (.newEntry hit.1.1)
  scores.insert hit.1.1 (add entry hit.2 hit.1.2)

/-- Go through the hits of one engine. -/
def countHits (add : RrfScore Score → ℕ → Score → RrfScore Score) (scores : Scores Score)
    (hits : Hits Score) : Scores Score :=
  hits.zipIdx.foldl (countHit add) scores

/-- The scores of two ranked lists. -/
def fusedScores (k vectorWeight bm25Weight : ℚ) (vector bm25 : Hits Score) : Scores Score :=
  countHits (.addBm25 k bm25Weight) (countHits (.addVector k vectorWeight) ∅ vector) bm25

/-- Fuse two ranked lists, best first. `order` is the order in which the hash map yields its
values. -/
def reciprocalRankFusionCore (order : List (RrfScore Score) → List (RrfScore Score))
    (k vectorWeight bm25Weight : ℚ) (vector bm25 : Hits Score) : List (RrfScore Score) :=
  let scores := fusedScores k vectorWeight bm25Weight vector bm25
  Ranking.rankBy RrfScore.rrfScore (order (scores.entries.map Sigma.snd))

/-! ### The score of an id -/

/-- The rank of an id among hits, counted from 1. -/
def rankIn (hits : Hits Score) (id : ChunkId) : Option ℕ :=
  (hits.zipIdx.find? fun hit ↦ hit.1.1 = id).map fun hit ↦ hit.2 + 1

/-- What one engine's rank contributes. -/
def share (k weight : ℚ) : Option ℕ → ℚ
  | some rank => 1 / (k + rank) * weight
  | none => 0

/-- The weighted reciprocals of an id's ranks. -/
def rrf (k vectorWeight bm25Weight : ℚ) (vector bm25 : Hits Score) (id : ChunkId) : ℚ :=
  share k vectorWeight (rankIn vector id) + share k bm25Weight (rankIn bm25 id)

/-- The ids of ranked hits. -/
def idsOf (hits : Hits Score) : List ChunkId := hits.map Prod.fst

/-- The entry of an id after some hits, whose ranks begin at `n`. -/
theorem lookup_countHits_from {add : RrfScore Score → ℕ → Score → RrfScore Score} {id : ChunkId}
    (hits : Hits Score) (n : ℕ) (scores : Scores Score) (hnodup : (idsOf hits).Nodup) :
    ((hits.zipIdx n).foldl (countHit add) scores).lookup id =
      match (hits.zipIdx n).find? fun hit ↦ hit.1.1 = id with
      | some hit => some (add ((scores.lookup id).getD (.newEntry id)) hit.2 hit.1.2)
      | none => scores.lookup id := by
  induction hits generalizing n scores with
  | nil => rfl
  | cons hit rest ih =>
    obtain ⟨hnot, hrest⟩ := List.nodup_cons.1 (show (hit.1 :: idsOf rest).Nodup from hnodup)
    rw [List.zipIdx_cons, List.foldl_cons, ih (n + 1) _ hrest]
    by_cases hid : hit.1 = id
    · subst hid
      have hnone : ((rest.zipIdx (n + 1)).find? fun other ↦ decide (other.1.1 = hit.1)) = none := by
        refine List.find?_eq_none.2 fun other hother ↦ ?_
        have hmem : other.1 ∈ rest := List.fst_mem_of_mem_zipIdx hother
        rw [decide_eq_true_iff]
        exact fun heq ↦ hnot (List.mem_map.2 ⟨other.1, hmem, heq⟩)
      rw [hnone, List.find?_cons_of_pos (by simp)]
      simp [countHit]
    · rw [List.find?_cons_of_neg (by simpa using hid)]
      simp only [countHit, AList.lookup_insert_ne (Ne.symm hid)]

theorem lookup_countHits {add : RrfScore Score → ℕ → Score → RrfScore Score} {id : ChunkId}
    {hits : Hits Score} {scores : Scores Score} (hnodup : (idsOf hits).Nodup) :
    (countHits add scores hits).lookup id =
      match hits.zipIdx.find? fun hit ↦ hit.1.1 = id with
      | some hit => some (add ((scores.lookup id).getD (.newEntry id)) hit.2 hit.1.2)
      | none => scores.lookup id :=
  lookup_countHits_from hits 0 scores hnodup

/-- An id has a rank among the hits if it is one of them. -/
theorem rankIn_isSome {hits : Hits Score} {id : ChunkId} :
    (rankIn hits id).isSome ↔ id ∈ idsOf hits := by
  rw [rankIn, Option.isSome_map, List.find?_isSome]
  constructor
  · rintro ⟨hit, hmem, heq⟩
    exact List.mem_map.2 ⟨hit.1, List.fst_mem_of_mem_zipIdx hmem, of_decide_eq_true heq⟩
  · intro hmem
    obtain ⟨hit, hhit, rfl⟩ := List.mem_map.1 hmem
    obtain ⟨i, hi, rfl⟩ := List.mem_iff_getElem.1 hhit
    exact ⟨(hits[i], i), List.mem_zipIdx_iff_getElem?.2 (List.getElem?_eq_getElem hi),
      decide_eq_true rfl⟩

/-! ### What is collected -/

/-- Every entry is kept under its own id. -/
def Keyed (scores : Scores Score) : Prop :=
  ∀ id entry, scores.lookup id = some entry → entry.chunkId = id

section Collected

variable {add : RrfScore Score → ℕ → Score → RrfScore Score} {scores : Scores Score}
  {k vectorWeight bm25Weight : ℚ} {vector bm25 : Hits Score} {id : ChunkId}

theorem Keyed.countHit (hadd : ∀ entry rank score, (add entry rank score).chunkId = entry.chunkId)
    (h : Keyed scores) (hit : (ChunkId × Score) × ℕ) : Keyed (countHit add scores hit) := by
  intro id entry hentry
  rw [RustCodeMcp.countHit] at hentry
  by_cases hid : id = hit.1.1
  · subst hid
    rw [AList.lookup_insert, Option.some.injEq] at hentry
    rw [← hentry, hadd]
    rcases hold : scores.lookup hit.1.1 with - | old
    · rfl
    · exact h _ _ hold
  · rw [AList.lookup_insert_ne hid] at hentry
    exact h _ _ hentry

theorem Keyed.countHits (hadd : ∀ entry rank score, (add entry rank score).chunkId = entry.chunkId)
    (h : Keyed scores) (hits : Hits Score) : Keyed (countHits add scores hits) := by
  rw [RustCodeMcp.countHits]
  induction hits.zipIdx generalizing scores with
  | nil => exact h
  | cons hit rest ih => exact ih (h.countHit hadd hit)

/-- There is an entry for each id that was found. -/
theorem mem_countHits {hits : Hits Score} :
    id ∈ countHits add scores hits ↔ id ∈ scores ∨ id ∈ idsOf hits := by
  have hfold : ∀ (l : List ((ChunkId × Score) × ℕ)) (scores : Scores Score),
      id ∈ l.foldl (countHit add) scores ↔ id ∈ scores ∨ ∃ hit ∈ l, hit.1.1 = id := by
    intro l
    induction l with
    | nil => simp
    | cons hit rest ih =>
      intro scores
      rw [List.foldl_cons, ih, countHit, AList.mem_insert]
      simp only [List.mem_cons, exists_eq_or_imp]
      tauto
  rw [countHits, hfold]
  refine or_congr_right ⟨fun ⟨hit, hmem, heq⟩ ↦ ?_, fun hmem ↦ ?_⟩
  · exact List.mem_map.2 ⟨hit.1, List.fst_mem_of_mem_zipIdx hmem, heq⟩
  · obtain ⟨hit, hhit, heq⟩ := List.find?_isSome.1
      ((Option.isSome_map (f := fun hit : (ChunkId × Score) × ℕ ↦ hit.2 + 1)).symm.trans
        (rankIn_isSome.2 hmem))
    exact ⟨hit, hhit, of_decide_eq_true heq⟩

theorem keyed_fusedScores : Keyed (fusedScores k vectorWeight bm25Weight vector bm25) := by
  have hempty : Keyed (∅ : Scores Score) := by
    intro id entry h
    rw [AList.lookup_empty] at h
    cases h
  rw [fusedScores]
  have hvector : Keyed (countHits (.addVector k vectorWeight) ∅ vector) :=
    hempty.countHits (fun _ _ _ ↦ RrfScore.chunkId_addVector) vector
  exact hvector.countHits (fun _ _ _ ↦ RrfScore.chunkId_addBm25) bm25

/-- **An entry for every id that an engine found**, and no other. -/
theorem mem_fusedScores : id ∈ fusedScores k vectorWeight bm25Weight vector bm25 ↔
    id ∈ idsOf vector ∨ id ∈ idsOf bm25 := by
  rw [fusedScores, mem_countHits, mem_countHits]
  simp

/-- **The score of an id is the sum of its shares.** -/
theorem rrfScore_eq (hvector : (idsOf vector).Nodup) (hbm25 : (idsOf bm25).Nodup)
    {entry : RrfScore Score}
    (hentry : (fusedScores k vectorWeight bm25Weight vector bm25).lookup id = some entry) :
    entry.rrfScore = rrf k vectorWeight bm25Weight vector bm25 id := by
  rw [fusedScores, lookup_countHits hbm25, lookup_countHits hvector] at hentry
  rw [rrf, rankIn, rankIn]
  rcases hv : vector.zipIdx.find? fun hit ↦ hit.1.1 = id with - | v <;>
    rcases hb : bm25.zipIdx.find? fun hit ↦ hit.1.1 = id with - | b <;>
    simp only [hv, hb, AList.lookup_empty, Option.getD_none, Option.getD_some, Option.some.injEq,
      reduceCtorEq] at hentry
  all_goals
    subst hentry
    simp [RrfScore.addVector, RrfScore.addBm25, RrfScore.newEntry, share, hv, hb]

theorem lookup_of_mem_values {entry : RrfScore Score} (h : Keyed scores)
    (hentry : entry ∈ scores.entries.map Sigma.snd) :
    scores.lookup entry.chunkId = some entry := by
  obtain ⟨⟨id, stored⟩, hmem, rfl⟩ := List.mem_map.1 hentry
  have hlookup : scores.lookup id = some stored := AList.mem_lookup_iff.2 hmem
  rw [h id stored hlookup]
  exact hlookup

theorem map_chunkId_values (h : Keyed scores) :
    (scores.entries.map Sigma.snd).map RrfScore.chunkId = scores.keys := by
  show _ = scores.entries.map Sigma.fst
  rw [List.map_map]
  exact List.map_congr_left fun s hs ↦ h s.1 s.2 (AList.mem_lookup_iff.2 hs)

end Collected

/-! ### The order of the answer -/

section Answer

variable {order : List (RrfScore Score) → List (RrfScore Score)} {k vectorWeight bm25Weight : ℚ}
  {vector bm25 : Hits Score} {limit : ℕ}

theorem fusion_perm (horder : ∀ l, (order l).Perm l) :
    (reciprocalRankFusionCore order k vectorWeight bm25Weight vector bm25).Perm
      ((fusedScores k vectorWeight bm25Weight vector bm25).entries.map Sigma.snd) :=
  (Ranking.rankBy_perm _ _).trans (horder _)

/-- **No id comes twice.** -/
theorem nodup_fusion (horder : ∀ l, (order l).Perm l) :
    ((reciprocalRankFusionCore order k vectorWeight bm25Weight vector bm25).map
      RrfScore.chunkId).Nodup := by
  rw [((fusion_perm horder).map _).nodup_iff, map_chunkId_values keyed_fusedScores]
  exact AList.keys_nodup _

/-- **The answer has the ids the engines found.** -/
theorem mem_fusion (horder : ∀ l, (order l).Perm l) {id : ChunkId} :
    id ∈ (reciprocalRankFusionCore order k vectorWeight bm25Weight vector bm25).map
      RrfScore.chunkId ↔ id ∈ idsOf vector ∨ id ∈ idsOf bm25 := by
  rw [((fusion_perm horder).map _).mem_iff, map_chunkId_values keyed_fusedScores, ← AList.mem_keys,
    mem_fusedScores]

/-- The ids that an engine found. -/
def foundIds (vector bm25 : Hits Score) : List ChunkId :=
  (idsOf vector ++ idsOf bm25).dedup

/-- The answer of a hybrid search: the fused hits, cut at the limit. -/
def fusedIds (order : List (RrfScore Score) → List (RrfScore Score)) (k vectorWeight bm25Weight : ℚ)
    (limit : ℕ) (vector bm25 : Hits Score) : List ChunkId :=
  ((reciprocalRankFusionCore order k vectorWeight bm25Weight vector bm25).take limit).map
    RrfScore.chunkId

/-- The answer is well formed, and the same for every order of the hash map. -/
structure OrderFree (k vectorWeight bm25Weight : ℚ) (limit : ℕ) (vector bm25 : Hits Score) :
    Prop where
  same : ∀ order order', (∀ l, (order l).Perm l) → (∀ l, (order' l).Perm l) →
    fusedIds order k vectorWeight bm25Weight limit vector bm25 =
      fusedIds order' k vectorWeight bm25Weight limit vector bm25
  nodup : ∀ order, (∀ l, (order l).Perm l) →
    (fusedIds order k vectorWeight bm25Weight limit vector bm25).Nodup
  found : ∀ order, (∀ l, (order l).Perm l) →
    ∀ id ∈ fusedIds order k vectorWeight bm25Weight limit vector bm25,
      id ∈ idsOf vector ∨ id ∈ idsOf bm25
  sorted : ∀ order, (∀ l, (order l).Perm l) →
    ((reciprocalRankFusionCore order k vectorWeight bm25Weight vector bm25).take limit).Pairwise
      fun a b ↦ b.rrfScore ≤ a.rrfScore

/-- No tie reaches into the limit: of two ids with equal scores, at least `limit` others have a
larger one. -/
def TiesStayOut (k vectorWeight bm25Weight : ℚ) (limit : ℕ) (vector bm25 : Hits Score) : Prop :=
  ∀ x ∈ foundIds vector bm25, ∀ y ∈ foundIds vector bm25, x ≠ y →
    rrf k vectorWeight bm25Weight vector bm25 x = rrf k vectorWeight bm25Weight vector bm25 y →
    limit ≤ (foundIds vector bm25).countP fun z ↦
      decide (rrf k vectorWeight bm25Weight vector bm25 x <
        rrf k vectorWeight bm25Weight vector bm25 z)

/-- The values of the hash map, in some order. -/
def values (k vectorWeight bm25Weight : ℚ) (vector bm25 : Hits Score) : List (RrfScore Score) :=
  (fusedScores k vectorWeight bm25Weight vector bm25).entries.map Sigma.snd

theorem map_chunkId_perm :
    ((values k vectorWeight bm25Weight vector bm25).map RrfScore.chunkId).Perm
      (foundIds vector bm25) := by
  rw [values, map_chunkId_values keyed_fusedScores]
  refine (List.perm_ext_iff_of_nodup (AList.keys_nodup _) (List.nodup_dedup _)).2 fun id ↦ ?_
  rw [← AList.mem_keys, mem_fusedScores, List.mem_dedup, List.mem_append]

theorem key_of_mem_values (hvector : (idsOf vector).Nodup) (hbm25 : (idsOf bm25).Nodup)
    {entry : RrfScore Score} (h : entry ∈ values k vectorWeight bm25Weight vector bm25) :
    entry.rrfScore = rrf k vectorWeight bm25Weight vector bm25 entry.chunkId :=
  rrfScore_eq hvector hbm25 (lookup_of_mem_values keyed_fusedScores h)

theorem above_values (hvector : (idsOf vector).Nodup) (hbm25 : (idsOf bm25).Nodup)
    {entry : RrfScore Score} (h : entry ∈ values k vectorWeight bm25Weight vector bm25) :
    Ranking.above RrfScore.rrfScore (values k vectorWeight bm25Weight vector bm25) entry =
      (foundIds vector bm25).countP fun z ↦
        decide (rrf k vectorWeight bm25Weight vector bm25 entry.chunkId <
          rrf k vectorWeight bm25Weight vector bm25 z) := by
  rw [Ranking.above, ← map_chunkId_perm (k := k).countP_eq, List.countP_map]
  refine List.countP_congr fun z hz ↦ ?_
  rw [key_of_mem_values hvector hbm25 h, key_of_mem_values hvector hbm25 hz]
  rfl

/-- An entry can be told by its id. -/
theorem eq_of_chunkId {x y : RrfScore Score}
    (hx : x ∈ values k vectorWeight bm25Weight vector bm25)
    (hy : y ∈ values k vectorWeight bm25Weight vector bm25)
    (h : x.chunkId = y.chunkId) : x = y := by
  have hlookup := lookup_of_mem_values keyed_fusedScores hx
  rw [h, lookup_of_mem_values keyed_fusedScores hy] at hlookup
  exact (Option.some.inj hlookup).symm

/-- Ties stay out of the limit, told by values. -/
theorem tiesStayOut_iff (hvector : (idsOf vector).Nodup) (hbm25 : (idsOf bm25).Nodup) :
    TiesStayOut k vectorWeight bm25Weight limit vector bm25 ↔
      ∀ x ∈ values k vectorWeight bm25Weight vector bm25,
        ∀ y ∈ values k vectorWeight bm25Weight vector bm25, x ≠ y → x.rrfScore = y.rrfScore →
          limit ≤ Ranking.above RrfScore.rrfScore
            (values k vectorWeight bm25Weight vector bm25) x := by
  have hmem : ∀ id, id ∈ foundIds vector bm25 ↔
      ∃ entry ∈ values k vectorWeight bm25Weight vector bm25, entry.chunkId = id := fun id ↦
    map_chunkId_perm.mem_iff.symm.trans List.mem_map
  constructor
  · intro h x hx y hy hne heq
    rw [above_values hvector hbm25 hx]
    rw [key_of_mem_values hvector hbm25 hx, key_of_mem_values hvector hbm25 hy] at heq
    exact h _ ((hmem _).2 ⟨x, hx, rfl⟩) _ ((hmem _).2 ⟨y, hy, rfl⟩)
      (fun hid ↦ hne (eq_of_chunkId hx hy hid)) heq
  · intro h x hx y hy hne heq
    obtain ⟨a, ha, rfl⟩ := (hmem x).1 hx
    obtain ⟨b, hb, rfl⟩ := (hmem y).1 hy
    rw [← above_values hvector hbm25 ha]
    refine h a ha b hb (fun hab ↦ hne (hab ▸ rfl)) ?_
    rw [key_of_mem_values hvector hbm25 ha, key_of_mem_values hvector hbm25 hb, heq]

/-- Lists of entries are told by their ids. -/
theorem eq_of_map_chunkId {l l' : List (RrfScore Score)}
    (hl : ∀ x ∈ l, x ∈ values k vectorWeight bm25Weight vector bm25)
    (hl' : ∀ x ∈ l', x ∈ values k vectorWeight bm25Weight vector bm25)
    (h : l.map RrfScore.chunkId = l'.map RrfScore.chunkId) : l = l' := by
  induction l generalizing l' with
  | nil => exact (List.map_eq_nil_iff.1 h.symm).symm
  | cons x rest ih =>
    rcases l' with - | ⟨y, rest'⟩
    · cases h
    obtain ⟨hid, hrest⟩ := List.cons.inj h
    rw [eq_of_chunkId (hl x List.mem_cons_self) (hl' y List.mem_cons_self) hid,
      ih (fun z hz ↦ hl z (List.mem_cons_of_mem _ hz))
        (fun z hz ↦ hl' z (List.mem_cons_of_mem _ hz)) hrest]

/-- **The answer of a fusion is the same for every order of the hash map exactly when no tie reaches
into the limit.** It is well formed in any case. -/
theorem fusion_orderFree_iff (hvector : (idsOf vector).Nodup) (hbm25 : (idsOf bm25).Nodup) :
    OrderFree k vectorWeight bm25Weight limit vector bm25 ↔
      TiesStayOut k vectorWeight bm25Weight limit vector bm25 := by
  classical
  rw [tiesStayOut_iff hvector hbm25, ← Ranking.take_rankBy_eq_iff]
  constructor
  · intro h l₁ l₂ h₁ h₂
    -- Orders that lay the values of this map out as the two lists.
    have horder : ∀ l, l.Perm (values k vectorWeight bm25Weight vector bm25) →
        ∀ l', (if l' = values k vectorWeight bm25Weight vector bm25 then l else l').Perm l' := by
      intro l hl l'
      split
      · rename_i heq
        rw [heq]
        exact hl
      · exact List.Perm.refl _
    have hsame := h.same _ _ (horder l₁ h₁) (horder l₂ h₂)
    simp only [fusedIds, reciprocalRankFusionCore, values, if_true] at hsame
    have hmem : ∀ l, l.Perm (values k vectorWeight bm25Weight vector bm25) →
        ∀ x ∈ (Ranking.rankBy RrfScore.rrfScore l).take limit,
          x ∈ values k vectorWeight bm25Weight vector bm25 := fun l hl x hx ↦
      hl.mem_iff.1 ((Ranking.rankBy_perm _ _).mem_iff.1 (List.mem_of_mem_take hx))
    exact eq_of_map_chunkId (hmem l₁ h₁) (hmem l₂ h₂) hsame
  · intro h
    refine ⟨fun order order' horder horder' ↦ ?_, fun order horder ↦ ?_,
      fun order horder id hid ↦ ?_, fun order horder ↦ ?_⟩
    · exact congrArg (List.map RrfScore.chunkId) (h _ _ (horder _) (horder' _))
    · exact (nodup_fusion horder).sublist ((List.take_sublist _ _).map _)
    · exact (mem_fusion horder).1 (List.Sublist.subset ((List.take_sublist _ _).map _) hid)
    · exact (Ranking.pairwise_rankBy _ _).sublist (List.take_sublist _ _)

/-- Two ids, one found by either engine, and a limit of one: the order of the map decides. -/
theorem tie_decided_by_order :
    ¬ OrderFree 60 (1 / 2) (1 / 2) 1 [(⟨0⟩, ())] [(⟨1⟩, ())] := by
  intro h
  have hsame := h.same id List.reverse (fun _ ↦ List.Perm.refl _) List.reverse_perm
  simp only [fusedIds, reciprocalRankFusionCore] at hsame
  rw [Ranking.rankBy_of_pairwise (by decide +kernel),
    Ranking.rankBy_of_pairwise (by decide +kernel)] at hsame
  revert hsame
  decide +kernel

/-- The id that both engines found is first. -/
theorem fusion_orderFree_first : OrderFree 60 (1 / 2) (1 / 2) 1
    [((⟨0⟩ : ChunkId), ()), (⟨1⟩, ())] [(⟨0⟩, ())] :=
  (fusion_orderFree_iff (by decide) (by decide)).2 (by
    rw [TiesStayOut]
    decide +kernel)

end Answer

end RustCodeMcp
