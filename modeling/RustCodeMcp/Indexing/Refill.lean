import RustCodeMcp.Indexing.Footprints

/-!
# A refill is all or nothing

Refilling BM25 reads the vector table batch by batch and queues one document for every row; a single
commit makes them visible. Nothing before that commit shows, so wherever a refill is stopped, the
index holds either no document, which is what makes the next run refill it, or one for every row.
Both ways to a refill are covered: the one beside an indexer and the one a new indexer makes.

A refill is a `Transaction` of the library: calls that show nothing, and one commit at the end. The
index is refilled or not according to whether that commit was carried out, and a commit that is
reported as failed was not.

The count says more than membership: under every identifier there are as many documents as there are
rows (`Mirrored`), so that a table without repeated identifiers gets one document for each.
-/

namespace RustCodeMcp

open Effect

variable {D : Type} {env : Env D}

namespace World

variable {w : World D}

/-- The committed BM25 index holds as many documents under each identifier as the vector table holds
rows. -/
def Mirrored (w : World D) : Prop :=
  ∀ id, (w.bm25.committed.map Document.chunkId).count id = (w.vectors.map Row.id).count id

/-- Exactly one document for each chunk of the table. -/
structure OneEach (w : World D) : Prop where
  nodup : (w.bm25.committed.map Document.chunkId).Nodup
  mem_iff : ∀ id, id ∈ w.bm25.committed.map Document.chunkId ↔ id ∈ w.vectors.map Row.id

/-- An index that mirrors a table without repetitions holds one document for each of its chunks. -/
theorem Mirrored.one_each (h : w.Mirrored) (hnodup : (w.vectors.map Row.id).Nodup) :
    w.OneEach := by
  refine ⟨List.nodup_iff_count_le_one.2 fun id ↦ ?_, fun id ↦ ?_⟩
  · rw [h id]
    exact List.nodup_iff_count_le_one.1 hnodup id
  · rw [← List.count_pos_iff, h id, List.count_pos_iff]

/-- A refilled index mirrors the table. -/
theorem mirrored_refilled (hcommitted : w.bm25.committed = []) (hkeyed : w.RowsKeyed) :
    (w.refilled env).Mirrored := by
  have hperm : ((w.scannedDocuments env).map Document.chunkId).Perm (w.vectors.map Row.id) := by
    refine (scannedDocuments_perm.map _).trans (List.Perm.of_eq ?_)
    rw [List.map_map]
    exact List.map_congr_left hkeyed
  intro id
  rw [refilled, if_pos hcommitted]
  exact hperm.count_eq id

/-- The vector table of `w`, and its committed BM25 index or what a refill makes of it. -/
structure MaybeRefilled (env : Env D) (w t : World D) : Prop where
  vectors : t.vectors = w.vectors
  committed : t.bm25.committed = w.bm25.committed ∨
    t.bm25.committed = (w.refilled env).bm25.committed ∧ (w.bm25.committed = [] → w.RowsKeyed)

namespace MaybeRefilled

variable {s t : World D}

theorem same (hvectors : t.vectors = w.vectors) (hcommitted : t.bm25.committed = w.bm25.committed) :
    w.MaybeRefilled env t :=
  ⟨hvectors, Or.inl hcommitted⟩

theorem refl (w : World D) : w.MaybeRefilled env w := same rfl rfl

theorem congr {t' : World D} (h : w.MaybeRefilled env t) (hvectors : t'.vectors = t.vectors)
    (hcommitted : t'.bm25.committed = t.bm25.committed) : w.MaybeRefilled env t' :=
  ⟨hvectors.trans h.vectors, by rw [hcommitted]; exact h.committed⟩

/-- Refilling twice is refilling once. -/
theorem trans (h : w.MaybeRefilled env s) (h' : s.MaybeRefilled env t) :
    w.MaybeRefilled env t := by
  have hscanned : s.scannedDocuments env = w.scannedDocuments env := by
    rw [scannedDocuments, scannedDocuments, h.vectors]
  refine ⟨h'.vectors.trans h.vectors, ?_⟩
  rcases h'.committed with hsame' | ⟨hrefilled', hkeyed'⟩
  · rw [hsame']
    exact h.committed
  rcases h.committed with hsame | ⟨hrefilled, hkeyed⟩
  · refine Or.inr ⟨?_, fun hcommitted row hrow ↦ ?_⟩
    · rw [hrefilled', refilled, refilled, hscanned, hsame]
    · rw [← h.vectors] at hrow
      exact hkeyed' (hsame.trans hcommitted) row hrow
  · refine Or.inr ⟨?_, hkeyed⟩
    rw [hrefilled', refilled, hscanned, hrefilled, refilled]
    by_cases hcommitted : w.bm25.committed = [] <;> simp [hcommitted]

/-- Of an empty index this leaves nothing, or all of it. -/
theorem empty_or_mirrored (hcommitted : w.bm25.committed = []) (h : w.MaybeRefilled env t) :
    t.bm25.committed = [] ∨ t.Mirrored := by
  rcases h.committed with hsame | ⟨hrefilled, hkeyed⟩
  · exact Or.inl (hsame.trans hcommitted)
  · refine Or.inr fun id ↦ ?_
    rw [hrefilled, h.vectors]
    exact @mirrored_refilled _ env w hcommitted (hkeyed hcommitted) id

end MaybeRefilled

end World

/-! ### What shows while a refill goes on -/

/-- The calls of a refill before its commit. -/
def Call.Queues : Call D → Prop
  | openWriter | addDocument _ => True
  | call => call.Looks

/-- What a refill must not change before its commit. -/
abbrev World.SameCommitted (w t : World D) : Prop :=
  t.vectors = w.vectors ∧ t.bm25.committed = w.bm25.committed

/-- **Queueing shows nothing.** -/
theorem sameCommitted_of_queues {call : Call D} {w s t : World D} {r : Except String call.Ret}
    (hqueues : call.Queues) (h : World.mayFail env call s r t) (hs : w.SameCommitted s) :
    w.SameCommitted t := by
  refine Handler.orFails.preserves w.SameCommitted h hs fun h ↦ ?_
  have hlooks : call.Looks → w.SameCommitted t := by
    intro hlooks
    obtain ⟨nextId, rfl⟩ := handle_of_reads hlooks.reads h
    exact hs
  cases call with
  | openWriter | addDocument =>
    cases h
    exact hs
  | _ => exact hlooks hqueues

theorem queues_request {call : Call D} (h : call.Queues) :
    Only Call.Queues (request call) :=
  only_perform.2 h

/-- Reading the table and queueing its documents commits nothing. -/
theorem queues_scanChunks {batches : List (List Row)} {indexed : ℕ} :
    Only Call.Queues (scanChunks batches indexed : Task D ℕ) := by
  induction batches generalizing indexed with
  | nil => exact only_pure
  | cons batch rest ih =>
    exact Only.bind (queues_request (by trivial)) fun _ ↦
      (Only.forEach fun _ _ ↦ only_mapError.2 (queues_request (by trivial))).bind fun _ ↦ ih

/-- **A refill is a transaction**: it queues documents and ends with its commit. -/
theorem transaction_rebuildBm25IfEmpty :
    Transaction Call.Queues (rebuildBm25IfEmpty : Task D (Option ℕ)) := by
  refine Only.bind_transaction (queues_request (by trivial)) fun docs ↦ ?_
  split
  · trivial
  refine Only.bind_transaction (only_mapError.2 (queues_request (by trivial))) fun stored ↦ ?_
  split
  · trivial
  refine Only.bind_transaction
    (only_mapError.2 (Only.bind (queues_request (by trivial)) fun _ ↦ queues_scanChunks))
      fun indexed ↦ ?_
  exact Transaction.bind_pure (Transaction.mapError transaction_perform) fun _ ↦ some indexed

theorem transaction_rebuildBm25FromExistingStore :
    Transaction Call.Queues (rebuildBm25FromExistingStore : Task D (Option ℕ)) :=
  Only.bind_transaction (queues_request (by trivial)) fun _ ↦ transaction_rebuildBm25IfEmpty

section Refill

variable {w t : World D}

/-- A refill that ends well has refilled the index. -/
theorem eq_refilled_of_ok {indexed : Option ℕ}
    (h : Executes (World.mayFail env) rebuildBm25FromExistingStore w (.ok indexed) t) :
    t = w.refilled env ∧ (w.bm25.committed = [] → w.RowsKeyed) := by
  have hfailFast : FailFast (rebuildBm25FromExistingStore : Task D (Option ℕ)) :=
    failFast_request.bind fun _ ↦ failFast_rebuildBm25IfEmpty
  have hrun := hfailFast.run_of_ok h
  by_cases hkeyed : w.bm25.committed = [] → w.RowsKeyed
  · obtain ⟨indexed', hrefilled⟩ := @run_openWriter_rebuild _ env w hkeyed
    rw [hrun] at hrefilled
    cases hrefilled
    exact ⟨rfl, hkeyed⟩
  · rw [Classical.not_imp] at hkeyed
    obtain ⟨e, w', herror⟩ := @run_rebuildBm25IfEmpty_error _ env
      { w with bm25 := ⟨w.bm25.committed, []⟩ } hkeyed.1 hkeyed.2
    rw [rebuildBm25FromExistingStore, run_bind_ok run_openWriter, herror] at hrun
    cases hrun

/-- **Wherever a refill is stopped**, by a crash or a failing call, nothing shows of it, or it is
complete. -/
theorem visits_rebuildBm25FromExistingStore
    (h : Visits (World.mayFail env) rebuildBm25FromExistingStore w t) : w.MaybeRefilled env t := by
  rcases transaction_rebuildBm25FromExistingStore.visits (R := World.mayFail env) w.SameCommitted
    (fun _ _ _ _ ↦ sameCommitted_of_queues) (fun _ _ _ _ h hs ↦ mayFail_error h ▸ hs)
    ⟨rfl, rfl⟩ h with ⟨hvectors, hsame⟩ | ⟨indexed, hexec⟩
  · exact .same hvectors hsame
  · obtain ⟨rfl, hkeyed⟩ := eq_refilled_of_ok hexec
    exact ⟨rfl, Or.inr ⟨rfl, hkeyed⟩⟩

/-- A new indexer is such a refill with the note that the stores are up. -/
theorem ensureIndexer_eq : (ensureIndexer : Task D Unit) = isOpened >>= fun opened ↦
    if opened then pure () else rebuildBm25FromExistingStore >>= fun _ ↦ setOpened := by
  rw [ensureIndexer, rebuildBm25FromExistingStore, Prog.bind_assoc]

/-- Asking whether an indexer is up changes nothing. -/
theorem executes_isOpened {opened : Bool}
    (h : Executes (World.mayFail env) isOpened w (.ok opened) t) : opened = w.opened ∧ w = t := by
  have hrun : run (World.handle env) isOpened w = _ := failFast_request.run_of_ok h
  rw [run_isOpened] at hrun
  cases hrun
  exact ⟨rfl, rfl⟩

theorem keepsStores_setOpened : Only Call.KeepsStores (setOpened : Task D Unit) :=
  only_perform.2 trivial

/-- **Wherever a new indexer is stopped**, nothing shows of its refill, or it is complete. -/
theorem visits_ensureIndexer (h : Visits (World.mayFail env) ensureIndexer w t) :
    w.MaybeRefilled env t := by
  rw [ensureIndexer_eq] at h
  rcases visits_bind.1 h with h | ⟨opened, w₁, hcheck, h⟩
  · rw [visits_of_looks (looks_request (by trivial)) h]
    exact .refl w
  obtain ⟨rfl, rfl⟩ := executes_isOpened hcheck
  split at h
  · rw [visits_pure.1 h]
    exact .refl w
  rcases visits_bind.1 h with h | ⟨indexed, w₂, hrebuild, h⟩
  · exact visits_rebuildBm25FromExistingStore h
  · obtain ⟨hvectors, hbm25⟩ := visits_of_keepsStores keepsStores_setOpened h
    exact (visits_rebuildBm25FromExistingStore hrebuild.visits).congr hvectors (by rw [hbm25])

/-- A new indexer that came up has refilled an empty index. -/
theorem bm25_of_ensureIndexer (hopened : w.opened = false) {u : Unit}
    (h : Executes (World.mayFail env) ensureIndexer w (.ok u) t) :
    t.vectors = w.vectors ∧ t.bm25 = (w.refilled env).bm25 ∧
      (w.bm25.committed = [] → w.RowsKeyed) := by
  rw [ensureIndexer_eq] at h
  obtain ⟨opened, w₁, hcheck, h⟩ := executes_bind_ok.1 h
  obtain ⟨rfl, rfl⟩ := executes_isOpened hcheck
  rw [hopened, if_neg Bool.false_ne_true] at h
  obtain ⟨indexed, w₂, hrebuild, hset⟩ := executes_bind_ok.1 h
  obtain ⟨rfl, hkeyed⟩ := eq_refilled_of_ok hrebuild
  obtain ⟨hvectors, hbm25⟩ := visits_of_keepsStores keepsStores_setOpened hset.visits
  exact ⟨hvectors, hbm25, hkeyed⟩

end Refill

/-! ### All or nothing -/

/-- What a refill of an empty index promises. -/
structure AllOrNothing {α : Type} (env : Env D) (task : Task D α) (w : World D) : Prop where
  /-- Wherever it is stopped, the index is still empty, or has one document for every row. -/
  stopped : ∀ t, Visits (World.mayFail env) task w t →
    t.vectors = w.vectors ∧ (t.bm25.committed = [] ∨
      t.Mirrored ∧ ((w.vectors.map Row.id).Nodup → t.OneEach))
  /-- If it ends well, the index has one document for every row. -/
  ended : ∀ a t, Executes (World.mayFail env) task w (.ok a) t →
    t.vectors = w.vectors ∧ t.Mirrored ∧ ((w.vectors.map Row.id).Nodup → t.OneEach)
  /-- It ends well if no call fails, for which every row must be keyed. -/
  ends : w.RowsKeyed → ∃ a t, run (World.handle env) task w = (.ok a, t)

/-- **A refill of an empty BM25 index is all or nothing**, beside an indexer or as part of a new
one. Wherever it is stopped, by a crash or by a failing call, the committed index is empty, and the
next refill starts from there, or it holds one document for every row of the vector table, and so,
where no two rows are under one identifier, exactly one for each chunk; if it is not stopped, it
holds these. -/
theorem rebuild_allOrNothing {w : World D} (hcommitted : w.bm25.committed = []) :
    AllOrNothing env rebuildBm25FromExistingStore w ∧
      (w.opened = false → AllOrNothing env ensureIndexer w) := by
  have hmirrored : ∀ {t : World D}, t.vectors = w.vectors →
      t.bm25 = (w.refilled env).bm25 → (w.bm25.committed = [] → w.RowsKeyed) → t.Mirrored := by
    intro t hvectors hbm25 hkeyed id
    rw [hvectors, hbm25]
    exact @World.mirrored_refilled _ env w hcommitted (hkeyed hcommitted) id
  have honeEach : ∀ {t : World D}, t.vectors = w.vectors → t.Mirrored →
      t.Mirrored ∧ ((w.vectors.map Row.id).Nodup → t.OneEach) :=
    fun hvectors h ↦ ⟨h, fun hnodup ↦ h.one_each (hvectors ▸ hnodup)⟩
  refine ⟨⟨fun t h ↦ ?_, fun indexed t h ↦ ?_, fun hkeyed ↦ ?_⟩,
    fun hopened ↦ ⟨fun t h ↦ ?_, fun u t h ↦ ?_, fun hkeyed ↦ ?_⟩⟩
  · have ht := visits_rebuildBm25FromExistingStore h
    exact ⟨ht.vectors, (ht.empty_or_mirrored hcommitted).imp_right (honeEach ht.vectors)⟩
  · obtain ⟨rfl, hkeyed⟩ := eq_refilled_of_ok h
    exact ⟨rfl, honeEach rfl (hmirrored rfl rfl hkeyed)⟩
  · obtain ⟨indexed, hrun⟩ := @run_openWriter_rebuild _ env w fun _ ↦ hkeyed
    exact ⟨indexed, _, hrun⟩
  · have ht := visits_ensureIndexer h
    exact ⟨ht.vectors, (ht.empty_or_mirrored hcommitted).imp_right (honeEach ht.vectors)⟩
  · obtain ⟨hvectors, hbm25, hkeyed⟩ := bm25_of_ensureIndexer hopened h
    exact ⟨hvectors, honeEach hvectors (hmirrored hvectors hbm25 hkeyed)⟩
  · exact ⟨(), _, run_ensureIndexer fun _ ↦ hkeyed⟩

namespace World

/-- A table with two rows beside an empty index. -/
def unindexed : World ByteArray :=
  let chunk (name : String) (id : ℕ) : CodeChunk := ⟨⟨id⟩, "fn " ++ name ++ "() {}", {
    filePath := ["a.rs"]
    modulePath := []
    symbolName := name
    symbolKind := "function"
    docstring := none
    imports := []
    outgoingCalls := []
    parentSymbolName := none
    splitPart := none
    splitTotal := none
    lineStart := 1
    lineEnd := 1 }⟩
  { fresh ∅ with vectors := [⟨⟨0⟩, [], chunk "f" 0⟩, ⟨⟨1⟩, [], chunk "g" 1⟩] }

theorem rebuild_allOrNothing_unindexed :
    AllOrNothing Env.sample rebuildBm25FromExistingStore unindexed ∧
      AllOrNothing Env.sample ensureIndexer unindexed :=
  ⟨(rebuild_allOrNothing rfl).1, (rebuild_allOrNothing rfl).2 rfl⟩

end World

end RustCodeMcp
