import RustCodeMcp.Indexing.PrepareRuns

/-!
# Runs of the writing half

The world a write leaves, when its surroundings carry every call out: `World.write` is the effect of
`writeFiles`, and it is read path by path: a written path holds the file's chunks
(`entry_write_of_mem`), a removed one none (`entry_write_of_mem_removed`), and every other path what
it held (`entry_write_of_not_mem`). That `writeFiles` has this effect is `run_writeFiles`.

A path is read off the effect by filtering: of the rows of many files those of one path are its own
file's, since the chunks of a file name its path (`AtPath`) and no path is written twice. The same
lemma serves rows and documents (`filter_flatMap_of_mem`).
-/

namespace RustCodeMcp

open Effect

variable {D : Type} {env : Env D}

/-! ### The effect of a write -/

namespace World

variable (w : World D) (env : Env D)

/-- The world with the chunks of these paths deleted, in BM25 once committed. -/
def deleteChunks (paths : List PathBuf) : World D :=
  { w with
    vectors := w.vectors.filter fun row ↦ row.filePath ∉ paths
    bm25 := ⟨w.bm25.committed, w.bm25.pending ++ paths.map .deleteFile⟩ }

/-- The world with the chunks of these files added, in BM25 once committed. -/
def addChunks (files : List PreparedFile) : World D :=
  { w with
    vectors := w.vectors ++ files.flatMap PreparedFile.rows
    bm25 := ⟨w.bm25.committed, w.bm25.pending ++
      (files.flatMap PreparedFile.chunks).map fun chunk ↦ .addDocument (document chunk)⟩ }

/-- The record of a prepared file under the stat its path has now. -/
def recordOf (file : PreparedFile) : Option (FileMetadata D) :=
  (w.tree.lookup file.path).map fun entry ↦
    ⟨env.sha256 file.content.toUTF8, entry.metadata.stat.lastModified, entry.metadata.stat.size⟩

/-- A cache with a written file recorded, unless it has no chunks. -/
def recordFile (cache : PathMap (FileMetadata D)) (file : PreparedFile) :
    PathMap (FileMetadata D) :=
  match w.recordOf env file with
  | some metadata => if file.chunks.isEmpty then cache else cache.insert file.path metadata
  | none => cache

/-- The world with these files recorded in the metadata cache. -/
def recordFiles (files : List PreparedFile) : World D :=
  { w with cache := files.foldl (w.recordFile env) w.cache }

/-- The effect of `writeFiles`. -/
def write (files : List PreparedFile) (removed : List PathBuf) : World D :=
  ((w.deleteChunks (removed ++ files.map PreparedFile.path)).addChunks files).recordFiles env files

/-- The world with the cache entries of these paths gone. -/
def forget (paths : List PathBuf) : World D :=
  { w with cache := paths.foldl (fun cache path ↦ cache.erase path) w.cache }

end World

/-! ### A write, path by path -/

section Keyed

variable {κ ι α : Type} [DecidableEq κ] {key : ι → κ} {tag : α → κ} {items : ι → List α}

/-- Picking a key out of what no member has under it. -/
theorem filter_flatMap_of_not_mem {members : List ι} {k : κ}
    (htag : ∀ i ∈ members, ∀ a ∈ items i, tag a = key i) (hk : k ∉ members.map key) :
    (members.flatMap items).filter (fun a ↦ tag a = k) = [] := by
  refine List.filter_eq_nil_iff.2 fun a ha hka ↦ hk ?_
  obtain ⟨i, hi, ha⟩ := List.mem_flatMap.1 ha
  rw [← of_decide_eq_true hka, htag i hi a ha]
  exact List.mem_map_of_mem hi

/-- **Picking a member's key out of what all members have** gives what that member has. -/
theorem filter_flatMap_of_mem {members : List ι} {i : ι}
    (htag : ∀ i ∈ members, ∀ a ∈ items i, tag a = key i) (hnodup : (members.map key).Nodup)
    (hi : i ∈ members) : (members.flatMap items).filter (fun a ↦ tag a = key i) = items i := by
  induction members with
  | nil => simp at hi
  | cons head rest ih =>
    obtain ⟨hhead, hrest⟩ := List.nodup_cons.1 hnodup
    have htagRest : ∀ i ∈ rest, ∀ a ∈ items i, tag a = key i :=
      fun i hi ↦ htag i (List.mem_cons_of_mem _ hi)
    rw [List.flatMap_cons, List.filter_append]
    rcases List.mem_cons.1 hi with rfl | hi
    · rw [filter_flatMap_of_not_mem htagRest hhead, List.append_nil]
      exact List.filter_eq_self.2 fun a ha ↦ by simpa using htag i List.mem_cons_self a ha
    · rw [ih htagRest hrest hi, List.filter_eq_nil_iff.2 fun a ha ↦ ?_, List.nil_append]
      rw [htag head List.mem_cons_self a ha, decide_eq_true_eq]
      exact fun h ↦ hhead (h ▸ List.mem_map_of_mem hi)

end Keyed

namespace WriterOp

/-- Queued deletions take away the documents of their paths. -/
theorem foldl_apply_deleteFile (documents : List Document) (paths : List PathBuf) :
    (paths.map deleteFile).foldl apply documents =
      documents.filter fun document ↦ document.filePath ∉ paths := by
  induction paths generalizing documents with
  | nil => simp
  | cons path rest ih =>
    rw [List.map_cons, List.foldl_cons, ih, apply, List.filter_filter]
    congr 1
    funext document
    simp [Bool.and_comm]

theorem foldl_apply_addDocument (documents : List Document) (chunks : List CodeChunk) :
    (chunks.map fun chunk ↦ addDocument (document chunk)).foldl apply documents =
      documents ++ chunks.map document := by
  induction chunks generalizing documents with
  | nil => simp
  | cons chunk rest ih => simp [ih, apply]

end WriterOp

namespace PreparedFile

/-- Every chunk of the file names its path. -/
def AtPath (file : PreparedFile) : Prop :=
  ∀ chunk ∈ file.chunks, chunk.context.filePath = file.path

variable {file : PreparedFile}

theorem map_chunk_rows : file.rows.map Row.chunk = file.chunks := by
  simp only [rows, List.map_map]
  exact List.map_fst_zip (Nat.le_of_eq file.length_embeddings.symm)

theorem filePath_of_mem_rows (hat : file.AtPath) : ∀ row ∈ file.rows, row.filePath = file.path := by
  intro row hrow
  refine hat row.chunk ?_
  rw [← file.map_chunk_rows]
  exact List.mem_map_of_mem hrow

end PreparedFile

namespace World

variable {w : World D} {files : List PreparedFile} {removed : List PathBuf} {path : PathBuf}

/-- The rows of a path after a write: those it had, unless it was deleted, and those of its file. -/
theorem rowsAt_write : (w.write env files removed).rowsAt path =
    (if path ∈ removed ++ files.map PreparedFile.path then [] else w.rowsAt path) ++
      (files.flatMap PreparedFile.rows).filter fun row ↦ row.filePath = path := by
  simp only [write, recordFiles, addChunks, deleteChunks, rowsAt, List.filter_append,
    List.filter_filter]
  congr 1
  split
  next hmem =>
    refine List.filter_eq_nil_iff.2 fun row _ h ↦ ?_
    simp only [Bool.and_eq_true, decide_eq_true_eq] at h
    exact h.2 (h.1 ▸ hmem)
  next hmem =>
    refine List.filter_congr fun row _ ↦ ?_
    by_cases h : row.filePath = path
    · simp only [h, hmem, decide_true, not_false_eq_true, Bool.and_self]
    · simp [h]

theorem documentsAt_write : (w.write env files removed).documentsAt path =
    (if path ∈ removed ++ files.map PreparedFile.path then [] else w.documentsAt path) ++
      ((files.flatMap PreparedFile.chunks).filter
        fun chunk ↦ chunk.context.filePath = path).map document := by
  have hcurrent : (w.write env files removed).bm25.current =
      (w.bm25.current.filter fun document ↦
        document.filePath ∉ removed ++ files.map PreparedFile.path) ++
        (files.flatMap PreparedFile.chunks).map document := by
    simp only [write, recordFiles, addChunks, deleteChunks, TantivyIndex.current,
      List.foldl_append]
    rw [WriterOp.foldl_apply_deleteFile, WriterOp.foldl_apply_addDocument]
  rw [documentsAt, hcurrent, List.filter_append, List.filter_filter, List.filter_map]
  congr 1
  split
  next hmem =>
    refine List.filter_eq_nil_iff.2 fun document _ h ↦ ?_
    simp only [Bool.and_eq_true, decide_eq_true_eq] at h
    exact h.2 (h.1 ▸ hmem)
  next hmem =>
    refine List.filter_congr fun document _ ↦ ?_
    by_cases h : document.filePath = path
    · simp only [h, hmem, decide_true, not_false_eq_true, Bool.and_self]
    · simp [h]

theorem lookup_foldl_recordFile_of_not_mem {cache : PathMap (FileMetadata D)}
    (hpath : path ∉ files.map PreparedFile.path) :
    (files.foldl (w.recordFile env) cache).lookup path = cache.lookup path := by
  induction files generalizing cache with
  | nil => rfl
  | cons file rest ih =>
    rw [List.map_cons, List.mem_cons, not_or] at hpath
    rw [List.foldl_cons, ih hpath.2, recordFile]
    rcases w.recordOf env file with - | metadata
    · rfl
    · rcases file.chunks.isEmpty with - | - <;> simp [hpath.1]

/-- A file that is recorded once has that record. -/
theorem lookup_foldl_recordFile_of_mem {cache : PathMap (FileMetadata D)} {file : PreparedFile}
    {metadata : FileMetadata D} (hnodup : (files.map PreparedFile.path).Nodup)
    (hfile : file ∈ files) (hrecord : w.recordOf env file = some metadata)
    (hchunks : file.chunks ≠ []) :
    (files.foldl (w.recordFile env) cache).lookup file.path = some metadata := by
  induction files generalizing cache with
  | nil => simp at hfile
  | cons head rest ih =>
    obtain ⟨hhead, hrest⟩ := List.nodup_cons.1 hnodup
    rw [List.foldl_cons]
    rcases List.mem_cons.1 hfile with rfl | hfile
    · rw [lookup_foldl_recordFile_of_not_mem hhead]
      simp [recordFile, hrecord, hchunks]
    · exact ih hrest hfile

/-- **A written path holds the chunks of its file**, and is on record. -/
theorem entry_write_of_mem {file : PreparedFile} {metadata : FileMetadata D}
    (hnodup : (files.map PreparedFile.path).Nodup) (hat : ∀ file ∈ files, file.AtPath)
    (hfile : file ∈ files) (hrecord : w.recordOf env file = some metadata)
    (hchunks : file.chunks ≠ []) :
    (w.write env files removed).entry file.path =
      ⟨file.rows, file.chunks.map document, some metadata⟩ := by
  have hmem : file.path ∈ removed ++ files.map PreparedFile.path :=
    List.mem_append_right _ (List.mem_map_of_mem hfile)
  have hrows := filter_flatMap_of_mem
    (fun file hfile ↦ PreparedFile.filePath_of_mem_rows (hat file hfile)) hnodup hfile
  have hchunksAt := filter_flatMap_of_mem hat hnodup hfile
  simp only [entry, rowsAt_write, documentsAt_write, if_pos hmem, List.nil_append, Entry.mk.injEq]
  refine ⟨hrows, congrArg _ hchunksAt, ?_⟩
  exact lookup_foldl_recordFile_of_mem hnodup hfile hrecord hchunks

/-- **A removed path holds nothing**; its record in the cache, if any, stays. -/
theorem entry_write_of_mem_removed (hat : ∀ file ∈ files, file.AtPath) (hremoved : path ∈ removed)
    (hpath : path ∉ files.map PreparedFile.path) :
    (w.write env files removed).entry path = ⟨[], [], w.cache.lookup path⟩ := by
  have hmem : path ∈ removed ++ files.map PreparedFile.path := List.mem_append_left _ hremoved
  have hrows := filter_flatMap_of_not_mem
    (fun file hfile ↦ PreparedFile.filePath_of_mem_rows (hat file hfile)) hpath
  have hchunksAt := filter_flatMap_of_not_mem hat hpath
  simp only [entry, rowsAt_write, documentsAt_write, if_pos hmem, List.nil_append, Entry.mk.injEq]
  refine ⟨hrows, by rw [hchunksAt]; rfl, ?_⟩
  exact lookup_foldl_recordFile_of_not_mem hpath

/-- **Every other path holds what it held.** -/
theorem entry_write_of_not_mem (hat : ∀ file ∈ files, file.AtPath) (hremoved : path ∉ removed)
    (hpath : path ∉ files.map PreparedFile.path) :
    (w.write env files removed).entry path = w.entry path := by
  have hmem : path ∉ removed ++ files.map PreparedFile.path :=
    fun h ↦ (List.mem_append.1 h).elim hremoved hpath
  have hrows := filter_flatMap_of_not_mem
    (fun file hfile ↦ PreparedFile.filePath_of_mem_rows (hat file hfile)) hpath
  have hchunksAt := filter_flatMap_of_not_mem hat hpath
  simp only [entry, rowsAt_write, documentsAt_write, if_neg hmem, Entry.mk.injEq]
  refine ⟨by rw [hrows, List.append_nil], ?_, ?_⟩
  · rw [hchunksAt, List.map_nil, List.append_nil]
  · exact lookup_foldl_recordFile_of_not_mem hpath

/-- Forgetting paths takes their records, and no others. -/
theorem lookup_foldl_erase {cache : PathMap (FileMetadata D)} {paths : List PathBuf} :
    (paths.foldl (fun cache path ↦ cache.erase path) cache).lookup path =
      if path ∈ paths then none else cache.lookup path := by
  induction paths generalizing cache with
  | nil => simp
  | cons head rest ih =>
    rw [List.foldl_cons, ih]
    by_cases hrest : path ∈ rest
    · simp [hrest]
    · by_cases hhead : path = head
      · subst hhead
        simp [hrest]
      · simp [hrest, hhead]

/-- A forgotten path keeps what the stores hold of it. -/
theorem entry_forget {paths : List PathBuf} :
    (w.forget paths).entry path = { w.entry path with
      metadata := if path ∈ paths then none else (w.entry path).metadata } := by
  simp only [entry, forget, Entry.mk.injEq]
  exact ⟨rfl, rfl, lookup_foldl_erase⟩

end World

/-! ### Runs -/

section Run

variable {w : World D}

/-- The documents of the chunks are queued. -/
theorem run_indexChunks (chunks : List CodeChunk) :
    run (World.handle env) (indexChunks chunks) w = (.ok (), { w with
      bm25 := ⟨w.bm25.committed,
        w.bm25.pending ++ chunks.map fun chunk ↦ .addDocument (document chunk)⟩ }) := by
  unfold indexChunks
  induction chunks generalizing w with
  | nil => simp
  | cons chunk rest ih => simp [run_bind, Except.mapError, ih]

theorem run_commit :
    run (World.handle env) commit w = (.ok (), { w with bm25 := ⟨w.bm25.current, []⟩ }) := by
  simp [commit, Except.mapError]

/-- The chunks of the files are deleted. -/
theorem run_deleteFilesChunks (paths : List PathBuf) :
    run (World.handle env) (deleteFilesChunks paths) w = (.ok (), w.deleteChunks paths) := by
  have hqueue : ∀ (queued : List PathBuf) (w : World D),
      run (World.handle env) (Prog.forEach deleteFileChunks queued) w =
        (.ok (), { w with
          bm25 := ⟨w.bm25.committed, w.bm25.pending ++ queued.map .deleteFile⟩ }) := by
    intro queued
    induction queued with
    | nil => simp
    | cons path rest ih => simp [run_bind, ih]
  simp [deleteFilesChunks, run_bind, hqueue, Except.mapError, World.deleteChunks]

theorem run_insertChunks (rows : List Row) :
    run (World.handle env) (insertChunks rows) w =
      (.ok (), { w with vectors := w.vectors ++ rows }) := by
  rcases rows with - | ⟨row, rest⟩ <;> simp [insertChunks, Except.mapError]

/-- The documents of all the files are queued. -/
theorem run_indexFiles (files : List PreparedFile) :
    run (World.handle env) (Prog.forEach (fun file ↦ indexChunks file.chunks) files) w =
      (.ok (), { w with bm25 := ⟨w.bm25.committed, w.bm25.pending ++
        (files.flatMap PreparedFile.chunks).map fun chunk ↦ .addDocument (document chunk)⟩ }) := by
  induction files generalizing w with
  | nil => simp
  | cons file rest ih => simp [run_bind, run_indexChunks, ih]

/-- Recording a written file, whose path is still there. -/
theorem run_recordIfIndexed {file : PreparedFile} (htree : (w.tree.lookup file.path).isSome) :
    run (World.handle env) (recordIfIndexed env file) w =
      (.ok (), { w with cache := w.recordFile env w.cache file }) := by
  obtain ⟨entry, hentry⟩ := Option.isSome_iff_exists.1 htree
  rcases hchunks : file.chunks.isEmpty with - | - <;>
    simp [recordIfIndexed, updateFileMetadata, hchunks, run_bind, World.open?, hentry, Except.map,
      Except.mapError, World.recordFile, World.recordOf]

/-- The files are recorded in turn. -/
theorem run_recordFiles (files : List PreparedFile)
    (htree : ∀ file ∈ files, (w.tree.lookup file.path).isSome) :
    run (World.handle env) (Prog.forEach (recordIfIndexed env) files) w =
      (.ok (), w.recordFiles env files) := by
  have hfold : ∀ (files : List PreparedFile) (cache : PathMap (FileMetadata D)),
      (∀ file ∈ files, (w.tree.lookup file.path).isSome) →
      run (World.handle env) (Prog.forEach (recordIfIndexed env) files) { w with cache } =
        (.ok (), { w with cache := files.foldl (w.recordFile env) cache }) := by
    intro files
    induction files with
    | nil => simp
    | cons file rest ih =>
      intro cache htree
      have hhead : run (World.handle env) (recordIfIndexed env file) { w with cache } = _ :=
        run_recordIfIndexed (htree file List.mem_cons_self)
      rw [Prog.forEach_cons, run_bind_ok hhead]
      exact ih _ fun file hfile ↦ htree file (List.mem_cons_of_mem _ hfile)
  exact hfold files w.cache htree

/-- **A write goes through** when the files it records are still there. -/
theorem run_writeFiles (files : List PreparedFile) (removed : List PathBuf)
    (htree : ∀ file ∈ files, (w.tree.lookup file.path).isSome) :
    run (World.handle env) (writeFiles env files removed) w =
      (.ok (), w.write env files removed) := by
  by_cases hempty : files = [] ∧ removed = []
  · obtain ⟨rfl, rfl⟩ := hempty
    simp [writeFiles, World.write, World.deleteChunks, World.addChunks, World.recordFiles]
  · have hif : (files.isEmpty && removed.isEmpty) = false := by
      simpa [List.isEmpty_iff] using hempty
    simp only [writeFiles, hif, Bool.false_eq_true, if_false]
    rw [run_bind_ok (run_deleteFilesChunks _), run_bind_ok (run_indexFiles _),
      run_bind_ok (run_insertChunks _)]
    exact run_recordFiles files htree

end Run

end RustCodeMcp
