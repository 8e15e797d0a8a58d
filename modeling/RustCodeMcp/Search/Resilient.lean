import RustCodeMcp.Search.Fusion

/-!
# Searching with an engine down

`ResilientHybridSearch::search` asks both engines. When both answer it fuses their results; when one
fails it hands on the other's; when both fail it asks each of them once more, BM25 first. Each
engine is asked for at most `limit` results. The fused answer, unlike that of
`HybridSearch::search`, is not cut at the limit, so it may hold up to twice as many; and what the
vector engine alone found is handed on with the repetitions it came with (`search_sound_iff`).

An engine is made of components that may be missing, may fail, and may answer differently when they
are asked again; so the search is given what they answer the first time and what they answer the
second.

Two things are shown of an answer: every result carries the chunk that an engine has for its id, and
no id comes twice, unless it came twice from the vector engine alone.
-/

namespace RustCodeMcp

/-- A search result. -/
structure SearchResult where
  chunkId : ChunkId
  /-- The combined score, or the score of the only engine that answered. -/
  score : ℚ
  bm25Score : Option ℚ
  vectorScore : Option ℚ
  bm25Rank : Option ℕ
  vectorRank : Option ℕ
  chunk : CodeChunk

/-- A hit of the vector store; it carries its chunk. -/
structure VectorSearchResult where
  chunkId : ChunkId
  score : ℚ
  chunk : CodeChunk

/-- Chunks by their ids. -/
abbrev ChunkMap := AList fun _ : ChunkId ↦ CodeChunk

/-! ### Chunks for hits -/

/-- Turn hits into results, in order, each with its chunk, which is taken out of the map. A hit
without a chunk in the map is left out. -/
def attach {Hit : Type} (idOf : Hit → ChunkId) (result : Hit → CodeChunk → SearchResult) :
    List Hit → ChunkMap → List SearchResult
  | [], _ => []
  | hit :: rest, chunks =>
    match chunks.lookup (idOf hit) with
    | some chunk => result hit chunk :: attach idOf result rest (chunks.erase (idOf hit))
    | none => attach idOf result rest chunks

/-- The result of a hit that only BM25 found. -/
def bm25Result (hit : ChunkId × ℚ) (chunk : CodeChunk) : SearchResult :=
  ⟨hit.1, hit.2, some hit.2, none, none, none, chunk⟩

/-- The result of a fused hit. -/
def fusedResult (hit : RrfScore ℚ) (chunk : CodeChunk) : SearchResult :=
  ⟨hit.chunkId, hit.rrfScore, hit.bm25Score, hit.vectorScore, hit.bm25Rank, hit.vectorRank, chunk⟩

@[simp] theorem chunkId_bm25Result (hit : ChunkId × ℚ) (chunk : CodeChunk) :
    (bm25Result hit chunk).chunkId = hit.1 := rfl

@[simp] theorem chunk_bm25Result (hit : ChunkId × ℚ) (chunk : CodeChunk) :
    (bm25Result hit chunk).chunk = chunk := rfl

@[simp] theorem chunkId_fusedResult (hit : RrfScore ℚ) (chunk : CodeChunk) :
    (fusedResult hit chunk).chunkId = hit.chunkId := rfl

@[simp] theorem chunk_fusedResult (hit : RrfScore ℚ) (chunk : CodeChunk) :
    (fusedResult hit chunk).chunk = chunk := rfl

/-- The fused hits with their chunks. -/
def attachChunks (fused : List (RrfScore ℚ)) (chunks : ChunkMap) : List SearchResult :=
  attach RrfScore.chunkId fusedResult fused chunks

/-- The result of a hit of the vector store. -/
def vectorResult (rank : ℕ) (hit : VectorSearchResult) : SearchResult :=
  ⟨hit.chunkId, hit.score, none, some hit.score, none, some (rank + 1), hit.chunk⟩

/-! ### The engines -/

/-- What the vector store answers. -/
structure VectorStoreAnswers (V : Type) where
  chunksByIds : List ChunkId → Except String ChunkMap
  search : V → ℕ → Except String (List VectorSearchResult)
  /-- No more hits than asked for. -/
  length_search_le : ∀ {query limit hits}, search query limit = .ok hits → hits.length ≤ limit

/-- What the components answer to one query, each if it is configured. -/
structure Components (V : Type) where
  bm25 : Option (ℕ → Except String (Hits ℚ))
  /-- No more hits than asked for. -/
  length_bm25_le : ∀ {search}, bm25 = some search → ∀ {limit hits}, search limit = .ok hits →
    hits.length ≤ limit
  vectorStore : Option (VectorStoreAnswers V)
  /-- The vectors of the query. -/
  embedQueries : Option (Except String (List V))

variable {V : Type}

/-- A component that may not be configured. -/
def configured {α : Type} (component : Option α) (missing : String) : Except String α :=
  component.elim (.error missing) .ok

namespace Components

/-- Perform BM25 search: the index holds ids only, the chunks are the vector store's. -/
def bm25Search (components : Components V) (limit : ℕ) : Except String (List SearchResult) := do
  let search ← configured components.bm25 "BM25 search not configured"
  let hits ← (search limit).mapError ("BM25 search failed: " ++ ·)
  let vectorStore ← configured components.vectorStore
    "BM25 hits need the vector store for their chunks"
  let chunks ← (vectorStore.chunksByIds (hits.map Prod.fst)).mapError
    ("Failed to read BM25 hits' chunks: " ++ ·)
  pure (attach Prod.fst bm25Result hits chunks)

/-- Perform vector search. -/
def vectorSearch (components : Components V) (limit : ℕ) : Except String (List SearchResult) := do
  let vectorStore ← configured components.vectorStore "Vector store not configured"
  let embedded ← configured components.embedQueries "Embedding generator not configured"
  let vectors ← embedded.mapError ("Failed to generate query embedding: " ++ ·)
  let query ← configured vectors.head? "Embedding generator returned no vector"
  let results ← (vectorStore.search query limit).mapError ("Vector search failed: " ++ ·)
  pure (results.mapIdx vectorResult)

end Components

/-! ### The search -/

/-- A search that goes on without a failed engine. -/
structure ResilientHybridSearch where
  rrfK : ℚ
  /-- The order in which a hash map yields its values. -/
  mapOrder : List (RrfScore ℚ) → List (RrfScore ℚ)
  mapOrder_perm : ∀ values, (mapOrder values).Perm values

namespace ResilientHybridSearch

/-- The ids of results with their raw scores: the engine's own where it is known. -/
def rawHits (raw : SearchResult → Option ℚ) (results : List SearchResult) : Hits ℚ :=
  results.map fun result ↦ (result.chunkId, (raw result).getD result.score)

/-- The chunks of results; of two for one id the later stays. -/
def chunksOf (results : List SearchResult) : ChunkMap :=
  results.foldl (fun chunks result ↦ chunks.insert result.chunkId result.chunk) ∅

/-- Merge the results of both engines. -/
def mergeResults (search : ResilientHybridSearch) (bm25Results vectorResults : List SearchResult) :
    List SearchResult :=
  let fused := reciprocalRankFusionCore search.mapOrder search.rrfK (1 / 2) (1 / 2)
    (rawHits SearchResult.vectorScore vectorResults) (rawHits SearchResult.bm25Score bm25Results)
  attachChunks fused (chunksOf (bm25Results ++ vectorResults))

/-- Try full hybrid search. -/
def tryHybridSearch (search : ResilientHybridSearch) (components : Components V) (limit : ℕ) :
    Except String (List SearchResult) :=
  match components.bm25Search limit, components.vectorSearch limit with
  | .ok bm25Results, .ok vectorResults => .ok (search.mergeResults bm25Results vectorResults)
  | .ok bm25Results, .error _ => .ok bm25Results
  | .error _, .ok vectorResults => .ok vectorResults
  | .error bm25Err, .error vectorErr =>
    .error ("Both search engines failed - BM25: " ++ bm25Err ++ ", Vector: " ++ vectorErr)

/-- Ask one engine after the other. -/
def fallbackSearch (components : Components V) (limit : ℕ) : Except String (List SearchResult) :=
  match components.bm25Search limit with
  | .ok results => .ok results
  | .error _ =>
    match components.vectorSearch limit with
    | .ok results => .ok results
    | .error _ => .error "All search engines unavailable - both BM25 and vector failed"

/-- Perform search with automatic fallback: the answer, and whether the search is in fallback mode
from now on. The components may answer differently when they are asked again. -/
def search (search : ResilientHybridSearch) (first again : Components V) (limit : ℕ) :
    Except String (List SearchResult) × Bool :=
  match search.tryHybridSearch first limit with
  | .ok results => (.ok results, false)
  | .error _ => (fallbackSearch again limit, true)

end ResilientHybridSearch

/-! ### What comes with a chunk -/

section Attach

variable {Hit : Type} {idOf : Hit → ChunkId} {result : Hit → CodeChunk → SearchResult}

theorem attach_cons_some {hit : Hit} {rest : List Hit} {chunks : ChunkMap} {chunk : CodeChunk}
    (h : chunks.lookup (idOf hit) = some chunk) :
    attach idOf result (hit :: rest) chunks =
      result hit chunk :: attach idOf result rest (chunks.erase (idOf hit)) := by
  rw [attach, h]

theorem attach_cons_none {hit : Hit} {rest : List Hit} {chunks : ChunkMap}
    (h : chunks.lookup (idOf hit) = none) :
    attach idOf result (hit :: rest) chunks = attach idOf result rest chunks := by
  rw [attach, h]

/-- The ids of the results. -/
def resultIds (results : List SearchResult) : List ChunkId := results.map SearchResult.chunkId

variable (hid : ∀ hit chunk, (result hit chunk).chunkId = idOf hit)
  (hchunk : ∀ hit chunk, (result hit chunk).chunk = chunk)

include hid in
theorem resultIds_attach_sublist (hits : List Hit) (chunks : ChunkMap) :
    (resultIds (attach idOf result hits chunks)).Sublist (hits.map idOf) := by
  induction hits generalizing chunks with
  | nil => exact List.Sublist.slnil
  | cons hit rest ih =>
    rcases h : chunks.lookup (idOf hit) with - | chunk
    · rw [attach_cons_none h]
      exact (ih chunks).cons _
    · rw [attach_cons_some h, resultIds, List.map_cons, hid]
      exact (ih _).cons_cons _

include hid hchunk in
/-- **Every result has the chunk that the map holds for it.** -/
theorem lookup_of_mem_attach (hits : List Hit) (chunks : ChunkMap) {r : SearchResult}
    (hr : r ∈ attach idOf result hits chunks) : chunks.lookup r.chunkId = some r.chunk := by
  induction hits generalizing chunks with
  | nil => cases hr
  | cons hit rest ih =>
    rcases h : chunks.lookup (idOf hit) with - | chunk
    · rw [attach_cons_none h] at hr
      exact ih chunks hr
    · rw [attach_cons_some h] at hr
      rcases List.mem_cons.1 hr with rfl | hr
      · rw [hid, hchunk, h]
      · have hlookup := ih _ hr
        by_cases heq : r.chunkId = idOf hit
        · rw [heq, AList.lookup_erase] at hlookup
          cases hlookup
        · rwa [AList.lookup_erase_ne heq] at hlookup

include hid hchunk in
/-- **A chunk is taken out of the map once**, so no id comes twice. -/
theorem nodup_attach (hits : List Hit) (chunks : ChunkMap) :
    (resultIds (attach idOf result hits chunks)).Nodup := by
  induction hits generalizing chunks with
  | nil => exact List.nodup_nil
  | cons hit rest ih =>
    rcases h : chunks.lookup (idOf hit) with - | chunk
    · rw [attach_cons_none h]
      exact ih chunks
    · rw [attach_cons_some h, resultIds, List.map_cons, List.nodup_cons]
      refine ⟨fun hmem ↦ ?_, ih _⟩
      obtain ⟨r, hr, heq⟩ := List.mem_map.1 hmem
      have hlookup := lookup_of_mem_attach hid hchunk rest _ hr
      rw [heq, hid, AList.lookup_erase] at hlookup
      cases hlookup

include hid in
/-- Hits of different ids that all have a chunk are all kept. -/
theorem resultIds_attach_of_mem (hits : List Hit) (chunks : ChunkMap)
    (hnodup : (hits.map idOf).Nodup) (hmem : ∀ hit ∈ hits, idOf hit ∈ chunks) :
    resultIds (attach idOf result hits chunks) = hits.map idOf := by
  induction hits generalizing chunks with
  | nil => rfl
  | cons hit rest ih =>
    obtain ⟨hnot, hrest⟩ := List.nodup_cons.1 hnodup
    obtain ⟨chunk, hsome⟩ := Option.isSome_iff_exists.1
      (AList.lookup_isSome.2 (hmem hit List.mem_cons_self))
    rw [attach_cons_some hsome, resultIds, List.map_cons, hid, List.map_cons]
    refine congrArg _ (ih _ hrest fun other hother ↦ ?_)
    rw [AList.mem_erase]
    exact ⟨fun heq ↦ hnot (heq ▸ List.mem_map_of_mem hother),
      hmem other (List.mem_cons_of_mem _ hother)⟩

end Attach

/-! ### What an engine answers -/

section Engines

variable {components : Components V} {limit : ℕ} {results : List SearchResult}

theorem ok_of_bind {α β : Type} {x : Except String α} {f : α → Except String β} {b : β}
    (h : x >>= f = .ok b) : ∃ a, x = .ok a ∧ f a = .ok b := by
  rcases x with e | a
  · cases h
  · exact ⟨a, rfl, h⟩

theorem ok_of_mapError {α : Type} {f : String → String} {x : Except String α} {a : α}
    (h : x.mapError f = .ok a) : x = .ok a := by
  rcases x with e | a'
  · cases h
  · exact h

theorem ok_of_configured {α : Type} {component : Option α} {missing : String} {a : α}
    (h : configured component missing = .ok a) : component = some a := by
  rcases component with - | a'
  · cases h
  · exact congrArg some (Except.ok.inj h)

/-- **BM25 search keeps the limit and repeats no id.** -/
theorem bm25Search_ok (h : components.bm25Search limit = .ok results) :
    results.length ≤ limit ∧ (resultIds results).Nodup := by
  obtain ⟨search, hsearch, h⟩ := ok_of_bind h
  obtain ⟨hits, hhits, h⟩ := ok_of_bind h
  obtain ⟨vectorStore, -, h⟩ := ok_of_bind h
  obtain ⟨chunks, -, h⟩ := ok_of_bind h
  obtain rfl := Except.ok.inj h
  refine ⟨?_, nodup_attach chunkId_bm25Result chunk_bm25Result hits chunks⟩
  have hlength := (resultIds_attach_sublist chunkId_bm25Result hits chunks).length_le
  rw [resultIds, List.length_map, List.length_map] at hlength
  exact hlength.trans (components.length_bm25_le (ok_of_configured hsearch) (ok_of_mapError hhits))

/-- **Vector search keeps the limit.** -/
theorem vectorSearch_ok (h : components.vectorSearch limit = .ok results) :
    results.length ≤ limit := by
  obtain ⟨vectorStore, -, h⟩ := ok_of_bind h
  obtain ⟨embedded, -, h⟩ := ok_of_bind h
  obtain ⟨vectors, -, h⟩ := ok_of_bind h
  obtain ⟨query, -, h⟩ := ok_of_bind h
  obtain ⟨hits, hhits, h⟩ := ok_of_bind h
  obtain rfl := Except.ok.inj h
  rw [List.length_mapIdx]
  exact vectorStore.length_search_le (ok_of_mapError hhits)

end Engines

namespace ResilientHybridSearch

/-! ### What is merged -/

section Merge

variable {search : ResilientHybridSearch} {bm25Results vectorResults : List SearchResult}
  {results : List SearchResult}

/-- A chunk for an id is that of a result with the id. -/
theorem lookup_chunksOf_cases {id : ChunkId} {chunk : CodeChunk}
    (h : (chunksOf results).lookup id = some chunk) :
    ∃ r ∈ results, r.chunkId = id ∧ r.chunk = chunk := by
  have hfold : ∀ (l : List SearchResult) (chunks : ChunkMap),
      (l.foldl (fun chunks result ↦ chunks.insert result.chunkId result.chunk) chunks).lookup id =
        some chunk → chunks.lookup id = some chunk ∨ ∃ r ∈ l, r.chunkId = id ∧ r.chunk = chunk := by
    intro l
    induction l with
    | nil => exact fun _ h ↦ Or.inl h
    | cons r rest ih =>
      intro chunks h
      rcases ih _ h with h | ⟨r', hr', h⟩
      · by_cases hid : id = r.chunkId
        · subst hid
          rw [AList.lookup_insert, Option.some.injEq] at h
          exact Or.inr ⟨r, List.mem_cons_self, rfl, h⟩
        · rw [AList.lookup_insert_ne hid] at h
          exact Or.inl h
      · exact Or.inr ⟨r', List.mem_cons_of_mem _ hr', h⟩
  rcases hfold results ∅ h with h | h
  · rw [AList.lookup_empty] at h
    cases h
  · exact h

theorem mem_chunksOf {id : ChunkId} : id ∈ chunksOf results ↔ id ∈ resultIds results := by
  have hfold : ∀ (l : List SearchResult) (chunks : ChunkMap),
      id ∈ l.foldl (fun chunks result ↦ chunks.insert result.chunkId result.chunk) chunks ↔
        id ∈ chunks ∨ id ∈ resultIds l := by
    intro l
    induction l with
    | nil => simp [resultIds]
    | cons r rest ih =>
      intro chunks
      rw [List.foldl_cons, ih, AList.mem_insert]
      simp only [resultIds, List.map_cons, List.mem_cons]
      tauto
  rw [chunksOf, hfold]
  simp

theorem idsOf_rawHits {raw : SearchResult → Option ℚ} :
    idsOf (rawHits raw results) = resultIds results := by
  rw [idsOf, rawHits, List.map_map]
  rfl

/-- **The merged answer has every id that an engine found, once.** -/
theorem resultIds_mergeResults :
    (resultIds (search.mergeResults bm25Results vectorResults)).Perm
      (resultIds vectorResults ++ resultIds bm25Results).dedup := by
  rw [mergeResults, attachChunks, resultIds_attach_of_mem chunkId_fusedResult _ _
    (nodup_fusion search.mapOrder_perm)]
  · refine (List.perm_ext_iff_of_nodup (nodup_fusion search.mapOrder_perm)
      (List.nodup_dedup _)).2 fun id ↦ ?_
    rw [mem_fusion search.mapOrder_perm, idsOf_rawHits, idsOf_rawHits, List.mem_dedup,
      List.mem_append]
  · intro hit hhit
    have hfound := (mem_fusion search.mapOrder_perm).1 (List.mem_map_of_mem hhit)
    rw [idsOf_rawHits, idsOf_rawHits] at hfound
    rw [mem_chunksOf, resultIds, List.map_append, List.mem_append]
    exact hfound.symm

theorem mem_mergeResults {r : SearchResult}
    (hr : r ∈ search.mergeResults bm25Results vectorResults) :
    ∃ r' ∈ bm25Results ++ vectorResults, r'.chunkId = r.chunkId ∧ r'.chunk = r.chunk :=
  lookup_chunksOf_cases (lookup_of_mem_attach chunkId_fusedResult chunk_fusedResult _ _ hr)

end Merge

/-! ### The answer -/

section Answer

variable {search : ResilientHybridSearch} {first again : Components V} {limit : ℕ}

/-- One of the engines that answered has this chunk under this id. -/
def FromEngine (components : Components V) (limit : ℕ) (r : SearchResult) : Prop :=
  ∃ results, (components.bm25Search limit = .ok results ∨
    components.vectorSearch limit = .ok results) ∧
      ∃ r' ∈ results, r'.chunkId = r.chunkId ∧ r'.chunk = r.chunk

/-- Neither engine answers. -/
def BothFail (components : Components V) (limit : ℕ) : Prop :=
  (∀ results, components.bm25Search limit ≠ .ok results) ∧
    ∀ results, components.vectorSearch limit ≠ .ok results

/-- The answer keeps the limit, repeats no id and has only chunks of engines that answered; there is
none only if neither engine answers, both times. -/
structure Sound (search : ResilientHybridSearch) (first again : Components V) (limit : ℕ) :
    Prop where
  length_le : ∀ results, (search.search first again limit).1 = .ok results →
    results.length ≤ limit
  nodup : ∀ results, (search.search first again limit).1 = .ok results → (resultIds results).Nodup
  fromEngine : ∀ results, (search.search first again limit).1 = .ok results → ∀ r ∈ results,
    FromEngine first limit r ∨ FromEngine again limit r
  bothFail : ∀ e, (search.search first again limit).1 = .error e →
    BothFail first limit ∧ BothFail again limit

/-- The engines' answers fit the limit together, and what the vector engine alone found has no id
twice. -/
def Fits (first again : Components V) (limit : ℕ) : Prop :=
  match first.bm25Search limit, first.vectorSearch limit with
  | .ok bm25Results, .ok vectorResults =>
    (resultIds vectorResults ++ resultIds bm25Results).dedup.length ≤ limit
  | .ok _, .error _ => True
  | .error _, .ok vectorResults => (resultIds vectorResults).Nodup
  | .error _, .error _ =>
    match again.bm25Search limit, again.vectorSearch limit with
    | .error _, .ok vectorResults => (resultIds vectorResults).Nodup
    | _, _ => True

/-- An answer that is well formed apart from its length and its repetitions. -/
theorem sound_iff_of_ok {results : List SearchResult}
    (h : (search.search first again limit).1 = .ok results)
    (hfrom : ∀ r ∈ results, FromEngine first limit r ∨ FromEngine again limit r) :
    search.Sound first again limit ↔ results.length ≤ limit ∧ (resultIds results).Nodup := by
  constructor
  · exact fun hsound ↦ ⟨hsound.length_le results h, hsound.nodup results h⟩
  · rintro ⟨hlength, hnodup⟩
    refine ⟨fun other hother ↦ ?_, fun other hother ↦ ?_, fun other hother ↦ ?_, fun e he ↦ ?_⟩
    · rwa [← Except.ok.inj (h.symm.trans hother)]
    · rwa [← Except.ok.inj (h.symm.trans hother)]
    · rwa [← Except.ok.inj (h.symm.trans hother)]
    · rw [h] at he
      cases he

/-- Two engines that failed when they were asked last. -/
theorem bothFail_of_error {components : Components V} {e e' : String}
    (hbm25 : components.bm25Search limit = .error e)
    (hvector : components.vectorSearch limit = .error e') : BothFail components limit := by
  refine ⟨fun results h ↦ ?_, fun results h ↦ ?_⟩
  · rw [hbm25] at h
    cases h
  · rw [hvector] at h
    cases h

/-- **A search keeps what it promises exactly when the engines' answers fit**: the distinct ids of
two answers are no more than the limit, and the vector engine's own answer, when it is the only one,
has no id twice. -/
theorem search_sound_iff (search : ResilientHybridSearch) (first again : Components V)
    (limit : ℕ) : search.Sound first again limit ↔ Fits first again limit := by
  rcases hbm25 : first.bm25Search limit with e | bm25Results <;>
    rcases hvector : first.vectorSearch limit with e' | vectorResults
  · -- Neither answers; each is asked once more.
    have hfirst := bothFail_of_error hbm25 hvector
    have hsearch : (search.search first again limit).1 = fallbackSearch again limit := by
      simp only [ResilientHybridSearch.search, tryHybridSearch, hbm25, hvector]
    rcases hagain : again.bm25Search limit with e | bm25Results
    · rcases hagain' : again.vectorSearch limit with e' | vectorResults
      · simp only [Fits, hbm25, hvector, hagain, hagain', iff_true]
        rw [fallbackSearch, hagain, hagain'] at hsearch
        refine ⟨fun _ h ↦ ?_, fun _ h ↦ ?_, fun _ h ↦ ?_, fun _ _ ↦
          ⟨hfirst, bothFail_of_error hagain hagain'⟩⟩ <;>
          · rw [hsearch] at h
            cases h
      · rw [fallbackSearch, hagain, hagain'] at hsearch
        simp only [Fits, hbm25, hvector, hagain, hagain']
        rw [sound_iff_of_ok hsearch fun r hr ↦
          Or.inr ⟨vectorResults, Or.inr hagain', r, hr, rfl, rfl⟩]
        exact and_iff_right (vectorSearch_ok hagain')
    · rw [fallbackSearch, hagain] at hsearch
      simp only [Fits, hbm25, hvector, hagain, iff_true]
      rw [sound_iff_of_ok hsearch fun r hr ↦ Or.inr ⟨bm25Results, Or.inl hagain, r, hr, rfl, rfl⟩]
      exact bm25Search_ok hagain
  -- Only the vector engine answers, with what it gives as it is.
  · have hsearch : (search.search first again limit).1 = .ok vectorResults := by
      simp only [ResilientHybridSearch.search, tryHybridSearch, hbm25, hvector]
    simp only [Fits, hbm25, hvector]
    rw [sound_iff_of_ok hsearch fun r hr ↦ Or.inl ⟨vectorResults, Or.inr hvector, r, hr, rfl, rfl⟩]
    exact and_iff_right (vectorSearch_ok hvector)
  -- Only the text engine answers.
  · have hsearch : (search.search first again limit).1 = .ok bm25Results := by
      simp only [ResilientHybridSearch.search, tryHybridSearch, hbm25, hvector]
    simp only [Fits, hbm25, hvector, iff_true]
    rw [sound_iff_of_ok hsearch fun r hr ↦ Or.inl ⟨bm25Results, Or.inl hbm25, r, hr, rfl, rfl⟩]
    exact bm25Search_ok hbm25
  · -- Both answer; nothing is cut off what they give together.
    have hsearch : (search.search first again limit).1 =
        .ok (search.mergeResults bm25Results vectorResults) := by
      simp only [ResilientHybridSearch.search, tryHybridSearch, hbm25, hvector]
    have hperm : (resultIds (search.mergeResults bm25Results vectorResults)).Perm _ :=
      resultIds_mergeResults
    have hlength : (search.mergeResults bm25Results vectorResults).length =
        (resultIds vectorResults ++ resultIds bm25Results).dedup.length := by
      rw [← hperm.length_eq, resultIds, List.length_map]
    simp only [Fits, hbm25, hvector]
    rw [sound_iff_of_ok hsearch fun r hr ↦ ?_, hlength]
    · exact and_iff_left (hperm.nodup_iff.2 (List.nodup_dedup _))
    · obtain ⟨r', hr', hsame⟩ := mem_mergeResults hr
      rcases List.mem_append.1 hr' with hr' | hr'
      · exact Or.inl ⟨bm25Results, Or.inl hbm25, r', hr', hsame⟩
      · exact Or.inl ⟨vectorResults, Or.inr hvector, r', hr', hsame⟩

/-! ### An engine that finds one chunk each -/

/-- A chunk of one line. -/
def lineChunk (id : ℕ) : CodeChunk where
  id := ⟨id⟩
  content := "fn f() {}"
  context :=
    { filePath := ["lib.rs"]
      modulePath := []
      symbolName := "f"
      symbolKind := "function"
      docstring := none
      imports := []
      outgoingCalls := []
      parentSymbolName := none
      splitPart := none
      splitTotal := none
      lineStart := 1
      lineEnd := 1 }

/-- BM25 finds the second of two chunks, the vector store the first. -/
def oneEach : Components Unit where
  bm25 := some fun limit ↦ .ok ([(⟨1⟩, 1)].take limit)
  length_bm25_le := by
    intro search hsearch limit hits h
    rw [← Option.some.inj hsearch] at h
    rw [← Except.ok.inj h]
    exact List.length_take_le _ _
  vectorStore := some
    { chunksByIds := fun ids ↦ .ok (chunksOf (ids.map fun id ↦
        ⟨id, 0, none, none, none, none, lineChunk id.uuid⟩))
      search := fun _ limit ↦ .ok ([⟨⟨0⟩, 1, lineChunk 0⟩].take limit)
      length_search_le := by
        intro query limit hits h
        rw [← Except.ok.inj h]
        exact List.length_take_le _ _ }
  embedQueries := some (.ok [()])

/-- **Two results for a limit of one.** -/
theorem merged_past_limit :
    ¬ (⟨60, id, fun _ ↦ List.Perm.refl _⟩ : ResilientHybridSearch).Sound oneEach oneEach 1 := by
  intro h
  have hsearch : ((⟨60, id, fun _ ↦ List.Perm.refl _⟩ : ResilientHybridSearch).search oneEach
      oneEach 1).1 = .ok (mergeResults _ [bm25Result (⟨1⟩, 1) (lineChunk 1)]
        [vectorResult 0 ⟨⟨0⟩, 1, lineChunk 0⟩]) := rfl
  have hlength := h.length_le _ hsearch
  rw [← List.length_map SearchResult.chunkId, ← resultIds, resultIds_mergeResults.length_eq]
    at hlength
  exact absurd hlength (by decide)

end Answer

end ResilientHybridSearch

end RustCodeMcp
