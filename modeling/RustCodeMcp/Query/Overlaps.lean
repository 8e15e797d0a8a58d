import RustCodeMcp.Graph.Labels
import RustCodeMcp.Order.Pages
import RustCodeMcp.Order.Pairs
import RustCodeMcp.Query.Clusters

/-!
# Semantic overlaps

The pairs of similar items come out of a hash map and are sorted by their scores alone, so which of
several pairs with equal scores comes first differs from one call to the next. Each page is of its
own call (`scoreSemanticOverlaps_pages_iff`).

A map of pairs with distinct keys comes out in some order, and the sort is stable, so the order of
equal scores is the one that the map gave. Any order of the pairs is that of some map (`putsOut`),
which is what makes a tie across the end of a page a page that can differ.

The results:

* `pushes_perm`: what is pushed are the similar pairs, in whatever order;
* `scoredPairs_putsOut`: ties can come in any order;
* `scoreSemanticOverlaps_pages_iff`: the pages are consistent exactly when no tie lies across the
  end of one.
-/

namespace RustCodeMcp.Similarity

open Ranking Grouping Pairs
open Navigation (ItemKind itemKindShortLabel)

/-- The fields of a node that the scoring reads. -/
structure Node (N : Type) where
  crateId : Option N
  qualifiedName : String
  itemKind : Option ItemKind
  file : Option String
  span : Option (ℕ × ℕ)
  deriving DecidableEq

/-- An item to compare: its node, its hash and its vector. -/
structure SeedCtx (N Hash K : Type) where
  id : N
  node : Node N
  contentHash : Hash
  cachedVec : List K
  deriving DecidableEq

/-- An item as it is put out. -/
structure SimilarityItem where
  qualifiedName : String
  itemKind : Option String
  file : Option String
  span : Option (ℕ × ℕ)
  deriving DecidableEq

/-- A pair as it is put out. -/
structure SimilarityPair (K : Type) where
  a : SimilarityItem
  b : SimilarityItem
  similarity : K
  deriving DecidableEq

/-- What was compared: where, of which crate and kind, and how many items. -/
structure SemanticOverlapScope where
  directory : String
  crateName : Option String
  itemKind : Option String
  seedCount : ℕ
  deriving DecidableEq

/-- What is to be compared, and how the answer is cut. -/
structure SemanticOverlapScoringRequest (N Hash K : Type) where
  seeds : List (SeedCtx N Hash K)
  scope : SemanticOverlapScope
  threshold : K
  limit : ℕ
  offset : ℕ
  summary : Bool
  maxClusterSize : ℕ
  outputMode : String
  crossCrateOnly : Bool

/-- The pairs of one page. -/
structure SemanticOverlapsOutput (K : Type) where
  scope : SemanticOverlapScope
  threshold : K
  pairCount : ℕ
  totalPairCount : ℕ
  totalClusterCount : ℕ
  offset : ℕ
  limit : ℕ
  summary : Bool
  outputMode : String
  pairs : Option (List (SimilarityPair K))
  clusters : Option (List (SimilarityCluster SimilarityItem K))
  deriving DecidableEq

/-- In which order the hash maps of one call are iterated. -/
structure Orders (N Hash K : Type) where
  byHash : List (Hash × List (SeedCtx N Hash K)) → List (Hash × List (SeedCtx N Hash K))
  byCrate : List (Option N × List (SeedCtx N Hash K)) → List (Option N × List (SeedCtx N Hash K))
  edges : List ((N × N) × List K) → List ((N × N) × List K)
  groups : List (ℕ × List ℕ) → List (ℕ × List ℕ)
  byHash_perm : ∀ l, (byHash l).Perm l
  byCrate_perm : ∀ l, (byCrate l).Perm l
  edges_perm : ∀ l, (edges l).Perm l
  groups_perm : ∀ l, (groups l).Perm l

section Model

variable {N Hash K : Type} [LinearOrder N] [DecidableEq Hash] [Field K] [LinearOrder K]

/-- Of exact numbers, with the square root that there is. -/
def cosine (sqrt : K → K) (a b : List K) : K :=
  let (dot, na, nb) := (a.zip b).foldl
    (fun (dot, na, nb) (x, y) ↦ (dot + x * y, na + x * x, nb + y * y)) (0, 0, 0)
  if na = 0 ∨ nb = 0 then 0 else dot / (sqrt na * sqrt nb)

/-- A pair of ids, the lesser first. -/
def canonicalEdge (a b : N) : N × N :=
  if a < b then (a, b) else (b, a)

variable (orders : Orders N Hash K) (sqrt : K → K)

/-- The pairs that `for_each_seed_pair` visits, with what the visitor makes of one. -/
def forEachSeedPair (seeds : List (SeedCtx N Hash K)) (crossCrateOnly : Bool)
    (visit : SeedCtx N Hash K → SeedCtx N Hash K → Option ((N × N) × K)) : List ((N × N) × K) :=
  if !crossCrateOnly then collect visit seeds
  else
    let groups := (orders.byCrate (groupBy (fun ctx ↦ ctx.node.crateId) seeds)).map Prod.snd
    (pairsOf groups).flatMap fun p ↦ cross visit p.1 p.2

/-- A pair with equal hashes. -/
def hashEdge (crossCrateOnly : Bool) (a b : SeedCtx N Hash K) : Option ((N × N) × K) :=
  if crossCrateOnly ∧ a.node.crateId = b.node.crateId then none
  else some (canonicalEdge a.id b.id, 1)

/-- A pair with different hashes. -/
def cosineEdge (threshold : K) (a b : SeedCtx N Hash K) : Option ((N × N) × K) :=
  if a.contentHash = b.contentHash then none
  else
    let score := cosine sqrt a.cachedVec b.cachedVec
    if score < threshold then none else some (canonicalEdge a.id b.id, score)

/-- What is pushed into `edges`, in this order. -/
def pushes (request : SemanticOverlapScoringRequest N Hash K) : List ((N × N) × K) :=
  let byHash := orders.byHash (groupBy SeedCtx.contentHash request.seeds)
  (byHash.flatMap fun indices ↦
      if indices.2.length < 2 then [] else collect (hashEdge request.crossCrateOnly) indices.2) ++
    forEachSeedPair orders request.seeds request.crossCrateOnly (cosineEdge sqrt request.threshold)

/-- All pairs, by their scores. -/
def scoredPairs (request : SemanticOverlapScoringRequest N Hash K) : List (N × N × K) :=
  let edges := (pushes orders sqrt request).foldl (fun edges edge ↦ push edge.1 edge.2 edges) []
  rankBy (fun pair ↦ pair.2.2)
    ((orders.edges edges).map fun edge ↦ (edge.1.1, edge.1.2, edge.2.sum / edge.2.length))

/-- An item from its node. -/
def nodeToSimilarityItem (node : Node N) (summary : Bool) : SimilarityItem where
  qualifiedName := node.qualifiedName
  itemKind := node.itemKind.map itemKindShortLabel
  file := if summary then none else some (node.file.getD "")
  span := if summary then none else some (node.span.getD (0, 0))

/-- `lookup_ref`, in a map where the last seed with an id stays. -/
def lookupRef (request : SemanticOverlapScoringRequest N Hash K) (id : N) :
    Option SimilarityItem :=
  (request.seeds.reverse.find? fun ctx ↦ ctx.id = id).map fun ctx ↦
    nodeToSimilarityItem ctx.node request.summary

/-- A pair as it is put out, if both of its items are known. -/
def renderPair (request : SemanticOverlapScoringRequest N Hash K) (pair : N × N × K) :
    Option (SimilarityPair K) := do
  let a ← lookupRef request pair.1
  let b ← lookupRef request pair.2.1
  pure { a, b, similarity := pair.2.2 }

/-- The pairs of the page. -/
def pagePairs (request : SemanticOverlapScoringRequest N Hash K) : List (N × N × K) :=
  ((scoredPairs orders sqrt request).drop request.offset).take request.limit

/-- One call: the pairs, sorted and cut. -/
def scoreSemanticOverlaps (request : SemanticOverlapScoringRequest N Hash K) :
    SemanticOverlapsOutput K :=
  let pairs := scoredPairs orders sqrt request
  let clusters := buildClusters orders.groups sortBy pairs (2 ^ 64 - 1) (lookupRef request)
  let clusters := if 0 < request.maxClusterSize
    then clusters.filter fun cluster ↦ cluster.size ≤ request.maxClusterSize else clusters
  let output : SemanticOverlapsOutput K :=
    { scope := request.scope
      threshold := request.threshold
      pairCount := pairs.length
      totalPairCount := pairs.length
      totalClusterCount := clusters.length
      offset := request.offset
      limit := request.limit
      summary := request.summary
      outputMode := request.outputMode
      pairs := none
      clusters := none }
  if request.outputMode = "pairs" then
    { output with pairs := some ((pagePairs orders sqrt request).filterMap (renderPair request)) }
  else
    { output with
      clusters := some (pageClustersByMemberLimit clusters request.offset request.limit) }

/-! ### What the pairs are -/

/-- Two seeds with equal hashes, or with a similarity from the threshold on. -/
def similar (request : SemanticOverlapScoringRequest N Hash K) (a b : SeedCtx N Hash K) :
    Option ((N × N) × K) :=
  if request.crossCrateOnly ∧ a.node.crateId = b.node.crateId then none
  else if a.contentHash = b.contentHash then some (canonicalEdge a.id b.id, 1)
  else
    let score := cosine sqrt a.cachedVec b.cachedVec
    if score < request.threshold then none else some (canonicalEdge a.id b.id, score)

/-- Each unordered pair of them once. -/
def similarPairs (request : SemanticOverlapScoringRequest N Hash K) : List (N × N × K) :=
  (collect (similar sqrt request) request.seeds).map fun edge ↦ (edge.1.1, edge.1.2, edge.2)

/-- The pages at `0`, `limit`, `2 * limit` and so on, each of a call of its own. -/
def allPages (orders : ℕ → Orders N Hash K) (request : SemanticOverlapScoringRequest N Hash K)
    (calls : ℕ) : List (N × N × K) :=
  (List.range calls).flatMap fun k ↦
    pagePairs (orders k) sqrt { request with offset := k * request.limit }

end Model

section Pushes

variable {N Hash K : Type} [LinearOrder N] [DecidableEq Hash] [Field K] [LinearOrder K]
  {orders : Orders N Hash K} {sqrt : K → K} {request : SemanticOverlapScoringRequest N Hash K}

theorem canonicalEdge_comm (a b : N) : canonicalEdge a b = canonicalEdge b a := by
  rw [canonicalEdge, canonicalEdge]
  rcases lt_trichotomy a b with h | rfl | h
  · rw [if_pos h, if_neg (lt_asymm h)]
  · rfl
  · rw [if_neg (lt_asymm h), if_pos h]

theorem cosine_symm (sqrt : K → K) (a b : List K) : cosine sqrt a b = cosine sqrt b a := by
  have hfold : ∀ (a b : List K) (dot na nb : K),
      (b.zip a).foldl (fun (dot, na, nb) (x, y) ↦ (dot + x * y, na + x * x, nb + y * y))
          (dot, nb, na) =
        let (dot', na', nb') := (a.zip b).foldl
          (fun (dot, na, nb) (x, y) ↦ (dot + x * y, na + x * x, nb + y * y)) (dot, na, nb)
        (dot', nb', na') := by
    intro a
    induction a with
    | nil => intro b _ _ _; rw [List.zip_nil_right, List.zip_nil_left]; rfl
    | cons x a ih =>
      intro b dot na nb
      rcases b with - | ⟨y, b⟩
      · rfl
      · rw [List.zip_cons_cons, List.zip_cons_cons, List.foldl_cons, List.foldl_cons]
        show (b.zip a).foldl _ (dot + y * x, nb + y * y, na + x * x) = _
        rw [mul_comm y x]
        exact ih b _ _ _
  rw [cosine, cosine, hfold a b]
  simp only [or_comm, mul_comm]

/-- The pairs with equal hashes, and the others. -/
def sameHash (request : SemanticOverlapScoringRequest N Hash K) (a b : SeedCtx N Hash K) :
    Option ((N × N) × K) :=
  if a.contentHash = b.contentHash then hashEdge request.crossCrateOnly a b else none

/-- The pairs with different hashes. -/
def otherHash (sqrt : K → K) (request : SemanticOverlapScoringRequest N Hash K)
    (a b : SeedCtx N Hash K) : Option ((N × N) × K) :=
  if request.crossCrateOnly ∧ a.node.crateId = b.node.crateId then none
  else cosineEdge sqrt request.threshold a b

omit [LinearOrder K] in
theorem sameHash_symm (a b : SeedCtx N Hash K) : sameHash request a b = sameHash request b a := by
  simp only [sameHash, hashEdge, canonicalEdge_comm a.id b.id, eq_comm]

theorem otherHash_symm (a b : SeedCtx N Hash K) :
    otherHash sqrt request a b = otherHash sqrt request b a := by
  simp only [otherHash, cosineEdge, canonicalEdge_comm a.id b.id,
    cosine_symm sqrt a.cachedVec b.cachedVec, eq_comm]

theorem similar_eq (a b : SeedCtx N Hash K) :
    similar sqrt request a b = (sameHash request a b).or (otherHash sqrt request a b) := by
  rw [similar, sameHash, hashEdge, otherHash, cosineEdge]
  split
  · simp
  · split <;> simp

/-- **What is pushed are the similar pairs**, in whatever order. -/
theorem pushes_perm (orders : Orders N Hash K) (sqrt : K → K)
    (request : SemanticOverlapScoringRequest N Hash K) :
    (pushes orders sqrt request).Perm (collect (similar sqrt request) request.seeds) := by
  have hhash : ((orders.byHash (groupBy SeedCtx.contentHash request.seeds)).flatMap fun indices ↦
      if indices.2.length < 2 then [] else collect (hashEdge request.crossCrateOnly) indices.2) =
      (orders.byHash (groupBy SeedCtx.contentHash request.seeds)).flatMap fun indices ↦
        collect (sameHash request) indices.2 := by
    refine List.flatMap_congr fun indices hindices ↦ ?_
    have hsame : collect (hashEdge request.crossCrateOnly) indices.2 =
        collect (sameHash request) indices.2 := by
      refine collect_congr fun a ha b hb ↦ ?_
      rw [sameHash, if_pos]
      rw [key_of_mem_group (orders.byHash_perm _) hindices ha,
        key_of_mem_group (orders.byHash_perm _) hindices hb]
    rw [hsame]
    split
    · rename_i hlt
      obtain ⟨_, - | ⟨a, - | ⟨b, rest⟩⟩⟩ := indices
      · rfl
      · rfl
      · exact absurd hlt (by simp)
    · rfl
  have hother : (forEachSeedPair orders request.seeds request.crossCrateOnly
      (cosineEdge sqrt request.threshold)).Perm
        (collect (otherHash sqrt request) request.seeds) := by
    rw [forEachSeedPair]
    rcases hcross : request.crossCrateOnly with - | -
    · refine .of_eq (collect_congr fun a _ b _ ↦ ?_)
      rw [otherHash, hcross, if_neg (by simp)]
    · refine List.Perm.trans (.of_eq ?_) (collect_across otherHash_symm
        (fun a b (heq : a.node.crateId = b.node.crateId) ↦ ?_) (orders.byCrate_perm _)).symm
      · refine List.flatMap_congr fun p hp ↦ cross_congr fun a ha b hb ↦ ?_
        rw [otherHash, if_neg]
        exact fun h ↦ keys_of_mem_pairsOf (orders.byCrate_perm _) hp ha hb h.2
      · rw [otherHash, if_pos ⟨hcross, heq⟩]
  rw [pushes, hhash]
  have hwithin := collect_within (g := sameHash request) sameHash_symm
    (fun a b (hne : a.contentHash ≠ b.contentHash) ↦ by rw [sameHash, if_neg hne])
    (orders.byHash_perm (groupBy SeedCtx.contentHash request.seeds))
  refine List.Perm.trans (hwithin.symm.append hother) ?_
  refine (collect_or (fun a b ↦ ?_) request.seeds).trans
    (.of_eq (collect_congr fun a _ b _ ↦ (similar_eq a b).symm))
  by_cases hab : a.contentHash = b.contentHash
  · refine .inr ?_
    rw [otherHash, cosineEdge, if_pos hab, ite_self]
  · exact .inl (by rw [sameHash, if_neg hab])

omit [DecidableEq Hash] [Field K] [LinearOrder K] in
/-- With one id the pair gives the other. -/
theorem canonicalEdge_inj {a b c : N} (h : canonicalEdge a b = canonicalEdge a c) : b = c := by
  rw [canonicalEdge, canonicalEdge] at h
  split at h <;> split at h <;> rw [Prod.mk.injEq] at h
  · exact h.2
  · exact h.2.trans h.1
  · exact h.1.trans h.2
  · exact h.1

omit [DecidableEq Hash] [Field K] [LinearOrder K] in
theorem mem_canonicalEdge {a b : N} :
    (canonicalEdge a b).1 = a ∧ (canonicalEdge a b).2 = b ∨
      (canonicalEdge a b).1 = b ∧ (canonicalEdge a b).2 = a := by
  rw [canonicalEdge]
  split
  · exact .inl ⟨rfl, rfl⟩
  · exact .inr ⟨rfl, rfl⟩

/-- What is found for two seeds is under their ids. -/
theorem similar_fst {a b : SeedCtx N Hash K} {edge : (N × N) × K}
    (h : similar sqrt request a b = some edge) : edge.1 = canonicalEdge a.id b.id := by
  rw [similar] at h
  split at h
  · exact absurd h (by simp)
  · split at h
    · exact (Option.some.inj h) ▸ rfl
    · obtain ⟨-, h⟩ := Option.ite_none_left_eq_some.1 h
      exact (Option.some.inj h) ▸ rfl

/-- No two pairs have one key. -/
theorem nodup_keys {seeds : List (SeedCtx N Hash K)} (hids : (seeds.map SeedCtx.id).Nodup) :
    ((collect (similar sqrt request) seeds).map Prod.fst).Nodup := by
  induction seeds with
  | nil => exact List.nodup_nil
  | cons a seeds ih =>
    rw [List.map_cons, List.nodup_cons] at hids
    rw [collect_cons, List.map_append, List.nodup_append]
    refine ⟨?_, ih hids.2, ?_⟩
    · rw [List.Nodup, List.pairwise_map, List.pairwise_filterMap]
      refine (List.pairwise_map.1 hids.2).imp fun hne edge hedge edge' hedge' heq ↦ hne ?_
      rw [similar_fst hedge, similar_fst hedge'] at heq
      exact canonicalEdge_inj heq
    · rintro key hkey _ hkey' rfl
      obtain ⟨edge, hedge, rfl⟩ := List.mem_map.1 hkey
      obtain ⟨b, -, hab⟩ := List.mem_filterMap.1 hedge
      obtain ⟨edge', hedge', heq⟩ := List.mem_map.1 hkey'
      obtain ⟨p, hp, hcd⟩ := List.mem_filterMap.1 hedge'
      obtain ⟨hc, hd⟩ := mem_of_mem_pairsOf hp
      rw [similar_fst hab, similar_fst hcd] at heq
      -- The other pair has the id `a` too, which is not in the rest.
      refine hids.1 (List.mem_map.2 ?_)
      rcases mem_canonicalEdge (a := a.id) (b := b.id) with h | h <;>
        rcases mem_canonicalEdge (a := p.1.id) (b := p.2.id) with h' | h' <;> rw [heq] at h'
      · exact ⟨p.1, hc, h'.1.symm.trans h.1⟩
      · exact ⟨p.2, hd, h'.1.symm.trans h.1⟩
      · exact ⟨p.2, hd, h'.2.symm.trans h.2⟩
      · exact ⟨p.1, hc, h'.2.symm.trans h.2⟩

/-- The pairs of one call, before they are sorted. -/
theorem scoredPairs_eq (orders : Orders N Hash K) (sqrt : K → K)
    (hids : (request.seeds.map SeedCtx.id).Nodup) :
    ∃ pairs, scoredPairs orders sqrt request = rankBy (fun pair ↦ pair.2.2) pairs ∧
      pairs.Perm (similarPairs sqrt request) := by
  have hperm := pushes_perm orders sqrt request
  refine ⟨_, rfl, ?_⟩
  rw [foldl_push_of_nodup ((hperm.map _).nodup_iff.2 (nodup_keys hids))]
  refine ((orders.edges_perm _).map _).trans ?_
  rw [List.map_map, similarPairs]
  refine List.Perm.trans (.of_eq (List.map_congr_left fun edge _ ↦ ?_)) (hperm.map _)
  simp

/-- A map of edges that comes out in this order, where it has these. -/
def putsOut (pairs : List (N × N × K)) : Orders N Hash K where
  byHash := id
  byCrate := id
  edges edges :=
    let wanted := pairs.map fun pair ↦ ((pair.1, pair.2.1), [pair.2.2])
    if wanted.Perm edges then wanted else edges
  groups := id
  byHash_perm _ := .refl _
  byCrate_perm _ := .refl _
  edges_perm edges := by
    dsimp only
    split
    · assumption
    · exact .refl _
  groups_perm _ := .refl _

/-- **Ties can come in any order.** -/
theorem scoredPairs_putsOut (sqrt : K → K) (hids : (request.seeds.map SeedCtx.id).Nodup)
    {pairs : List (N × N × K)} (h : pairs.Perm (similarPairs sqrt request)) :
    scoredPairs (putsOut pairs) sqrt request = rankBy (fun pair ↦ pair.2.2) pairs := by
  have hperm := pushes_perm (putsOut pairs) sqrt request
  have hwanted : (pairs.map fun pair ↦ ((pair.1, pair.2.1), [pair.2.2])).Perm
      ((pushes (putsOut pairs) sqrt request).map fun edge ↦ (edge.1, [edge.2])) := by
    refine (h.map _).trans ?_
    rw [similarPairs, List.map_map]
    exact hperm.symm.map _
  have hedges : (putsOut pairs : Orders N Hash K).edges
      ((pushes (putsOut pairs) sqrt request).map fun edge ↦ (edge.1, [edge.2])) =
        pairs.map fun pair ↦ ((pair.1, pair.2.1), [pair.2.2]) := if_pos hwanted
  rw [scoredPairs, foldl_push_of_nodup ((hperm.map _).nodup_iff.2 (nodup_keys hids))]
  simp only [hedges, List.map_map]
  refine congrArg _ (List.map_id'' (fun pair ↦ ?_) pairs)
  simp

theorem nodup_similarPairs (hids : (request.seeds.map SeedCtx.id).Nodup) :
    (similarPairs sqrt request).Nodup := by
  have hkeys := @nodup_keys N Hash K _ _ _ _ sqrt request _ hids
  refine List.Nodup.map ?_ (List.Nodup.of_map _ hkeys)
  rintro ⟨⟨a, b⟩, s⟩ ⟨⟨c, d⟩, t⟩ h
  simp_all

theorem allPages_eq {orders : ℕ → Orders N Hash K} {l : ℕ → List (N × N × K)}
    (h : ∀ k, scoredPairs (orders k) sqrt request = l k) {calls : ℕ} :
    allPages sqrt orders request calls = pages request.limit l calls := by
  refine List.flatMap_congr fun k _ ↦ ?_
  rw [page, ← h k]
  rfl

/-! ### What is put out -/

omit [DecidableEq Hash] [Field K] [LinearOrder K] in
theorem exists_lookupRef {ctx : SeedCtx N Hash K} (h : ctx ∈ request.seeds) :
    ∃ item, lookupRef request ctx.id = some item := by
  rw [lookupRef]
  have hsome : (request.seeds.reverse.find? fun seed ↦ seed.id = ctx.id).isSome :=
    List.find?_isSome.2 ⟨ctx, List.mem_reverse.2 h, decide_eq_true rfl⟩
  obtain ⟨seed, hseed⟩ := Option.isSome_iff_exists.1 hsome
  exact ⟨_, by rw [hseed]; rfl⟩

theorem exists_renderPair {pair : N × N × K} (h : pair ∈ similarPairs sqrt request) :
    ∃ item, renderPair request pair = some item := by
  obtain ⟨edge, hedge, rfl⟩ := List.mem_map.1 h
  obtain ⟨p, hp, hsimilar⟩ := List.mem_filterMap.1 hedge
  obtain ⟨a, ha⟩ := exists_lookupRef (mem_of_mem_pairsOf hp).1
  obtain ⟨b, hb⟩ := exists_lookupRef (mem_of_mem_pairsOf hp).2
  rw [similar_fst hsimilar]
  rcases mem_canonicalEdge (a := p.1.id) (b := p.2.id) with ⟨h₁, h₂⟩ | ⟨h₁, h₂⟩
  · exact ⟨_, by simp only [renderPair, h₁, h₂, ha, hb]; rfl⟩
  · exact ⟨_, by simp only [renderPair, h₁, h₂, ha, hb]; rfl⟩

theorem forall₂_filterMap_of_isSome {α β : Type} {f : α → Option β} {l : List α}
    (h : ∀ x ∈ l, ∃ y, f x = some y) :
    List.Forall₂ (fun x y ↦ f x = some y) l (l.filterMap f) := by
  have hall := forall₂_filterMap (R := fun x y ↦ f x = some y) (f := id) (g := f) (l := l)
    fun x hx ↦ (h x hx).imp fun y hy ↦ ⟨hy, hy⟩
  rwa [List.map_id] at hall

/-- **The pages of pairs are consistent exactly when no tie lies across the end of one.** -/
theorem scoreSemanticOverlaps_pages_iff (sqrt : K → K)
    (request : SemanticOverlapScoringRequest N Hash K)
    (hids : (request.seeds.map SeedCtx.id).Nodup) (hmode : request.outputMode = "pairs") :
    (∀ orders : Orders N Hash K, ∀ offset, ∃ rendered,
      (scoreSemanticOverlaps orders sqrt { request with offset }).pairs = some rendered ∧
        List.Forall₂ (fun pair item ↦ renderPair request pair = some item)
          (pagePairs orders sqrt { request with offset }) rendered) ∧
    ((∀ (orders : ℕ → Orders N Hash K) (calls : ℕ), (similarPairs sqrt request).length ≤ calls →
        (allPages sqrt orders request calls).Perm (similarPairs sqrt request) ∧
          (allPages sqrt orders request calls).Pairwise fun p q ↦ q.2.2 ≤ p.2.2) ↔
      (request.limit = 0 → similarPairs sqrt request = []) ∧
        ∀ k, CleanCut (fun pair ↦ pair.2.2) (similarPairs sqrt request) (k * request.limit)) := by
  constructor
  · intro orders offset
    rw [scoreSemanticOverlaps, if_pos hmode]
    refine ⟨_, rfl, forall₂_filterMap_of_isSome fun pair hpair ↦ ?_⟩
    have hmem : pair ∈ scoredPairs orders sqrt request :=
      List.mem_of_mem_drop (List.mem_of_mem_take hpair)
    obtain ⟨pairs, heq, hperm⟩ := scoredPairs_eq orders sqrt hids
    rw [heq] at hmem
    exact exists_renderPair (hperm.mem_iff.1 ((rankBy_perm _ pairs).mem_iff.1 hmem))
  · rw [← pages_iff (nodup_similarPairs hids)]
    constructor
    · intro h lists hlists calls hcalls
      rw [← allPages_eq fun k ↦ scoredPairs_putsOut sqrt hids (hlists k)]
      exact h _ calls hcalls
    · intro h orders calls hcalls
      choose lists heq hlists using fun k ↦ scoredPairs_eq (orders k) sqrt hids
      rw [allPages_eq heq]
      exact h lists hlists calls hcalls

end Pushes

/-! ### Three copies of one item -/

/-- Three items with one vector, in pages of one pair. -/
def copies : SemanticOverlapScoringRequest ℕ ℕ ℚ where
  seeds := [1, 2, 3].map fun id ↦
    { id, node := ⟨some 0, "a::f", some .function, some "src/a.rs", some (0, 9)⟩, contentHash := 7
      cachedVec := [1] }
  scope := ⟨"/ws", none, none, 3⟩
  threshold := 1
  limit := 1
  offset := 0
  summary := false
  maxClusterSize := 15
  outputMode := "pairs"
  crossCrateOnly := false

theorem scoreSemanticOverlaps_pages_iff_copies :
    (∀ orders : Orders ℕ ℕ ℚ, ∀ offset, ∃ rendered,
      (scoreSemanticOverlaps orders id { copies with offset }).pairs = some rendered ∧
        List.Forall₂ (fun pair item ↦ renderPair copies pair = some item)
          (pagePairs orders id { copies with offset }) rendered) ∧
    ((∀ (orders : ℕ → Orders ℕ ℕ ℚ) (calls : ℕ), (similarPairs id copies).length ≤ calls →
        (allPages id orders copies calls).Perm (similarPairs id copies) ∧
          (allPages id orders copies calls).Pairwise fun p q ↦ q.2.2 ≤ p.2.2) ↔
      (copies.limit = 0 → similarPairs id copies = []) ∧
        ∀ k, CleanCut (fun pair ↦ pair.2.2) (similarPairs id copies) (k * copies.limit)) :=
  scoreSemanticOverlaps_pages_iff id copies (by decide) rfl

/-- How the map of the pairs comes out in each call. -/
def copiesOrder (call : ℕ) : List (ℕ × ℕ × ℚ) :=
  if call = 0 then [(1, 2, 1), (1, 3, 1), (2, 3, 1)] else [(2, 3, 1), (1, 3, 1), (1, 2, 1)]

/-- The third page has the pair of the first again, and one pair is on none. -/
theorem copies_torn : ¬ ∀ (orders : ℕ → Orders ℕ ℕ ℚ) (calls : ℕ),
    (similarPairs id copies).length ≤ calls →
      (allPages id orders copies calls).Perm (similarPairs id copies) ∧
        (allPages id orders copies calls).Pairwise fun p q ↦ q.2.2 ≤ p.2.2 := by
  intro h
  have hpairs : similarPairs id copies = copiesOrder 0 := by decide
  have hpages : allPages id (fun k ↦ putsOut (copiesOrder k)) copies 3 =
      [(1, 2, 1), (1, 3, 1), (1, 2, 1)] := by
    rw [allPages_eq (l := copiesOrder)]
    · rfl
    · intro k
      rw [scoredPairs_putsOut id (by decide), rankBy_of_pairwise]
      · rw [copiesOrder]
        split <;> decide
      · rw [hpairs, copiesOrder]
        split <;> decide
  have hperm := (h (fun k ↦ putsOut (copiesOrder k)) 3 (by rw [hpairs]; decide)).1
  rw [hpages, hpairs] at hperm
  exact absurd hperm (by decide)

end RustCodeMcp.Similarity
