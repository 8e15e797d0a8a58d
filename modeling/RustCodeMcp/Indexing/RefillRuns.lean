import RustCodeMcp.Indexing.WriteRuns

/-!
# Runs that bring the stores up

A new indexer refills an empty BM25 index from the vector table before it does anything else, and a
run without one does the same beside it. `World.broughtUp` is the world either leaves: its rows and
records are those before, and an empty BM25 index holds one document for every row.

The refill reads every row and refuses one whose key is not its chunk's; `RowsKeyed` is the absence
of such rows.

Whether a refill happens is decided by the index alone: it holds no committed document
(`NeedsRefill`). The order of the rows is that of a scan and need not be the one in which they were
written; what is held of a path afterwards is a matter of which documents there are.

Two results are cited elsewhere: `run_rebuildBm25IfEmpty`, that a refill leaves one document for
every row or the index as it was, and `run_ensureIndexer`, that bringing the stores up succeeds if
the rows that a refill reads are keyed.
-/

namespace RustCodeMcp

open Effect

variable {D : Type} {env : Env D}

/-! ### Decoding rows -/

/-- The row's key is the identifier its chunk carries. -/
def Row.Keyed (row : Row) : Prop := row.chunk.id = row.id

/-- The rows of a prepared file are keyed. -/
theorem PreparedFile.keyed_of_mem_rows {file : PreparedFile} : ∀ row ∈ file.rows, row.Keyed := by
  intro row hrow
  obtain ⟨pair, -, rfl⟩ := List.mem_map.1 hrow
  rfl

/-- Keyed rows are decoded, each to its chunk. -/
theorem decodeChunkRows_of_keyed {batch : List Row} (h : ∀ row ∈ batch, row.Keyed) :
    decodeChunkRows batch = .ok (batch.map Row.chunk) := by
  unfold decodeChunkRows
  induction batch with
  | nil => rfl
  | cons row rest ih =>
    rw [List.mapM_cons, ih fun row hrow ↦ h row (List.mem_cons_of_mem _ hrow),
      if_neg (not_not.2 (show row.chunk.id = row.id from h row List.mem_cons_self))]
    rfl

/-- A row under another key is refused, with its whole batch. -/
theorem decodeChunkRows_of_not_keyed {batch : List Row} {row : Row} (hrow : row ∈ batch)
    (h : ¬ row.Keyed) : ∃ e, decodeChunkRows batch = .error e := by
  unfold decodeChunkRows
  induction batch with
  | nil => simp at hrow
  | cons head rest ih =>
    rw [List.mapM_cons]
    by_cases hhead : head.chunk.id = head.id
    · rcases List.mem_cons.1 hrow with rfl | hrow
      · exact absurd hhead h
      · obtain ⟨e, he⟩ := ih hrow
        exact ⟨e, by rw [if_neg (not_not.2 hhead), he]; rfl⟩
    · exact ⟨_, by rw [if_pos hhead]; rfl⟩

/-! ### Refilling -/

namespace World

variable (w : World D) (env : Env D)

/-- Every row is keyed by its chunk's identifier. -/
def RowsKeyed : Prop := ∀ row ∈ w.vectors, row.Keyed

/-- The documents of the rows, in the order a scan yields them. -/
def scannedDocuments : List Document :=
  ((env.recordBatches w.vectors).flatten.map Row.chunk).map document

/-- The world with a fresh BM25 writer, and an empty BM25 index refilled. -/
def refilled : World D :=
  { w with bm25 :=
      ⟨if w.bm25.committed = [] then w.scannedDocuments env else w.bm25.committed, []⟩ }

/-- The world with the stores up. -/
def broughtUp : World D :=
  if w.opened then w else { w.refilled env with opened := true }

/-- Refilling BM25 will read the rows. -/
def NeedsRefill : Prop := w.opened = false ∧ w.bm25.committed = []

variable {w env}

/-- An empty table has no documents. -/
theorem scannedDocuments_eq_nil (h : w.vectors = []) : w.scannedDocuments env = [] := by
  have hflatten := env.flatten_recordBatches w.vectors
  rw [h] at hflatten
  rw [scannedDocuments, h, hflatten.eq_nil, List.map_nil, List.map_nil]

/-- They are the documents of all the rows. -/
theorem scannedDocuments_perm :
    (w.scannedDocuments env).Perm (w.vectors.map fun row ↦ document row.chunk) := by
  rw [scannedDocuments, List.map_map]
  exact (env.flatten_recordBatches w.vectors).map _

end World

section Run

variable {w : World D}

/-- A scan of keyed rows queues their documents. -/
theorem run_scanChunks_of_keyed {batches : List (List Row)} {indexed : ℕ}
    (h : ∀ row ∈ batches.flatten, row.Keyed) :
    ∃ indexed', run (World.handle env) (scanChunks batches indexed) w =
      (.ok indexed', { w with bm25 := ⟨w.bm25.committed, w.bm25.pending ++
        (batches.flatten.map Row.chunk).map fun chunk ↦ .addDocument (document chunk)⟩ }) := by
  induction batches generalizing indexed w with
  | nil => exact ⟨indexed, by simp [scanChunks]⟩
  | cons batch rest ih =>
    rw [List.flatten_cons, List.forall_mem_append] at h
    obtain ⟨indexed', hrun⟩ := @ih { w with bm25 := ⟨w.bm25.committed, w.bm25.pending ++
      (batch.map Row.chunk).map fun chunk ↦ .addDocument (document chunk)⟩ }
      (indexed + (batch.map Row.chunk).length) h.2
    refine ⟨indexed', ?_⟩
    rw [scanChunks, run_bind, run_decodeBatch, decodeChunkRows_of_keyed h.1]
    simp only [run_bind_ok (run_indexChunks _), hrun, List.flatten_cons, List.map_append,
      List.append_assoc]

/-- A scan that meets a row under another key fails. -/
theorem run_scanChunks_of_not_keyed {batches : List (List Row)} {indexed : ℕ} {row : Row}
    (hrow : row ∈ batches.flatten) (h : ¬ row.Keyed) :
    ∃ e w', run (World.handle env) (scanChunks batches indexed) w = (.error e, w') := by
  induction batches generalizing indexed w with
  | nil => simp at hrow
  | cons batch rest ih =>
    rcases hdecode : decodeChunkRows batch with e | chunks
    · exact ⟨e, w, by simp [scanChunks, run_bind, hdecode]⟩
    · rcases List.mem_append.1 (List.flatten_cons ▸ hrow) with hbatch | hrest
      · obtain ⟨e, he⟩ := decodeChunkRows_of_not_keyed hbatch h
        rw [he] at hdecode
        cases hdecode
      · obtain ⟨e, w', hrun⟩ := @ih { w with bm25 := ⟨w.bm25.committed, w.bm25.pending ++
          chunks.map fun chunk ↦ .addDocument (document chunk)⟩ } (indexed + chunks.length) hrest
        exact ⟨e, w', by simp [scanChunks, run_bind, hdecode, run_indexChunks, hrun]⟩

/-- **A refill leaves one document for every row**, or the index as it was if that held anything. -/
theorem run_rebuildBm25IfEmpty (hpending : w.bm25.pending = [])
    (hkeyed : w.bm25.committed = [] → w.RowsKeyed) :
    ∃ indexed, run (World.handle env) rebuildBm25IfEmpty w = (.ok indexed, w.refilled env) := by
  have hsame : { w with bm25 := ⟨w.bm25.committed, []⟩ } = w := by
    rw [← hpending]
  by_cases hcommitted : w.bm25.committed = []
  · by_cases hvectors : w.vectors = []
    · refine ⟨none, ?_⟩
      rw [World.refilled, if_pos hcommitted, World.scannedDocuments_eq_nil hvectors, ← hcommitted,
        hsame]
      simp [rebuildBm25IfEmpty, run_bind, hcommitted, hvectors, Except.mapError]
    · obtain ⟨indexed, hrun⟩ := @run_scanChunks_of_keyed _ env w (env.recordBatches w.vectors) 0
        fun row hrow ↦ hkeyed hcommitted row ((env.flatten_recordBatches _).mem_iff.1 hrow)
      refine ⟨some indexed, ?_⟩
      rw [World.refilled, if_pos hcommitted]
      simp only [rebuildBm25IfEmpty, run_bind, run_committedDocCount, hcommitted, List.length_nil,
        Nat.lt_irrefl, if_false, run_countRows, run_mapError, Except.mapError,
        List.length_eq_zero_iff, hvectors, run_scanBatches, hrun, run_commit, run_pure,
        TantivyIndex.current, hpending, List.nil_append, WriterOp.foldl_apply_addDocument,
        World.scannedDocuments]
  · refine ⟨none, ?_⟩
    have hpos : 0 < w.bm25.committed.length := List.length_pos_iff.2 hcommitted
    rw [World.refilled, if_neg hcommitted, hsame]
    simp [rebuildBm25IfEmpty, run_bind, hpos]

/-- A refill that has to read a row whose key is not its chunk's fails. -/
theorem run_rebuildBm25IfEmpty_error (hcommitted : w.bm25.committed = [])
    (hkeyed : ¬ w.RowsKeyed) :
    ∃ e w', run (World.handle env) rebuildBm25IfEmpty w = (.error e, w') := by
  simp only [World.RowsKeyed, not_forall] at hkeyed
  obtain ⟨row, hrow, hkeyed⟩ := hkeyed
  obtain ⟨e, w', hrun⟩ := @run_scanChunks_of_not_keyed _ env w (env.recordBatches w.vectors) 0 row
    ((env.flatten_recordBatches _).mem_iff.2 hrow) hkeyed
  refine ⟨"Failed to rebuild the BM25 index from the vector store", w', ?_⟩
  simp only [rebuildBm25IfEmpty, run_bind, run_committedDocCount, hcommitted, List.length_nil,
    Nat.lt_irrefl, if_false, run_countRows, run_mapError, Except.mapError,
    List.length_eq_zero_iff, List.ne_nil_of_mem hrow, run_scanBatches, hrun]

/-- The refill of an index that is there already, with a fresh writer. -/
theorem run_openWriter_rebuild (hkeyed : w.bm25.committed = [] → w.RowsKeyed) :
    ∃ indexed, run (World.handle env) rebuildBm25FromExistingStore w =
      (.ok indexed, w.refilled env) := by
  obtain ⟨indexed, hrun⟩ := @run_rebuildBm25IfEmpty _ env
    { w with bm25 := ⟨w.bm25.committed, []⟩ } rfl hkeyed
  exact ⟨indexed, by rw [rebuildBm25FromExistingStore, run_bind, run_openWriter]; exact hrun⟩

/-- **Bringing the stores up** succeeds if the rows a refill reads are keyed. -/
theorem run_ensureIndexer (hkeyed : w.NeedsRefill → w.RowsKeyed) :
    run (World.handle env) ensureIndexer w = (.ok (), w.broughtUp env) := by
  rcases hopened : w.opened with - | -
  · obtain ⟨indexed, hrun⟩ := @run_rebuildBm25IfEmpty _ env
      { w with bm25 := ⟨w.bm25.committed, []⟩ } rfl fun h ↦ hkeyed ⟨hopened, h⟩
    rw [hopened] at hrun
    simp only [ensureIndexer, run_bind, run_isOpened, hopened, Bool.false_eq_true, if_false,
      run_openWriter, hrun, run_setOpened, World.broughtUp]
    rfl
  · simp [ensureIndexer, run_bind, hopened, World.broughtUp]

/-- It fails if one of the rows it reads is not keyed. -/
theorem run_ensureIndexer_error (hneeds : w.NeedsRefill) (hkeyed : ¬ w.RowsKeyed) :
    ∃ e w', run (World.handle env) ensureIndexer w = (.error e, w') := by
  obtain ⟨e, w', hrun⟩ := @run_rebuildBm25IfEmpty_error _ env
    { w with bm25 := ⟨w.bm25.committed, []⟩ } hneeds.2 hkeyed
  rw [hneeds.1] at hrun
  exact ⟨e, w', by simp [ensureIndexer, run_bind, hneeds.1, hrun]⟩

end Run

/-! ### What is held once the stores are up -/

namespace World

variable {w : World D} {path : PathBuf}

@[simp] theorem tree_broughtUp : (w.broughtUp env).tree = w.tree := by
  unfold broughtUp; split <;> rfl

@[simp] theorem walkErrors_broughtUp : (w.broughtUp env).walkErrors = w.walkErrors := by
  unfold broughtUp; split <;> rfl

@[simp] theorem snapshot_broughtUp : (w.broughtUp env).snapshot = w.snapshot := by
  unfold broughtUp; split <;> rfl

@[simp] theorem cache_broughtUp : (w.broughtUp env).cache = w.cache := by
  unfold broughtUp; split <;> rfl

@[simp] theorem vectors_broughtUp : (w.broughtUp env).vectors = w.vectors := by
  unfold broughtUp; split <;> rfl

@[simp] theorem opened_broughtUp : (w.broughtUp env).opened = true := by
  unfold broughtUp; split <;> simp [*]

@[simp] theorem rowsAt_broughtUp : (w.broughtUp env).rowsAt path = w.rowsAt path := by
  simp [rowsAt]

theorem pending_broughtUp (hpending : w.bm25.pending = []) :
    (w.broughtUp env).bm25.pending = [] := by
  unfold broughtUp; split
  · exact hpending
  · rfl

/-- Without a refill every path holds what it held. -/
theorem entry_broughtUp_of_not_needsRefill (hpending : w.bm25.pending = [])
    (hneeds : ¬ w.NeedsRefill) : (w.broughtUp env).entry path = w.entry path := by
  rcases hopened : w.opened with - | -
  · have hcommitted : w.bm25.committed ≠ [] := fun h ↦ hneeds ⟨hopened, h⟩
    simp [broughtUp, hopened, refilled, hcommitted, entry, rowsAt, documentsAt,
      TantivyIndex.current, hpending]
  · simp [broughtUp, hopened]

/-- After a refill every path has one document for each of its rows. -/
theorem documentsAt_broughtUp_of_needsRefill (hneeds : w.NeedsRefill) :
    ((w.broughtUp env).documentsAt path).Perm
      ((w.rowsAt path).map fun row ↦ document row.chunk) := by
  have hdocuments : (w.broughtUp env).bm25.current = w.scannedDocuments env := by
    simp [broughtUp, hneeds.1, refilled, hneeds.2, TantivyIndex.current]
  rw [documentsAt, hdocuments]
  refine (scannedDocuments_perm.filter _).trans (List.Perm.of_eq ?_)
  rw [List.filter_map]
  rfl

end World

end RustCodeMcp
