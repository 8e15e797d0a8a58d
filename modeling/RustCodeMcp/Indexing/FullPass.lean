import RustCodeMcp.Indexing.Agreement

/-!
# What a full pass leaves in the vector table

A full pass has no previous snapshot to learn from which files are gone. It ends with
`dropFilesOutsideWalk` instead, so that the table keeps no row of a file that the walk did not find
— unless the walk found none: then the pass is over before it gets there, and every row stays
(`leavesOnlyTree_iff`). A file that the metadata cache has on record is skipped as unchanged, and
nothing a pass does touches what is held of it (`Spares`).

What is skipped is the delicate part. A file that the cache has on record is not parsed, so that the
pass says nothing about its rows; they stay what they were, whether or not they are those of its
text. `LeavesOnlyTree` therefore speaks of two things: that every row is of a file of the walk, and
that skipped files keep all that was held of them.

Both directions of the result are about the walk and not about calls that fail:

* `spares_indexBatch`: a batch leaves the files that are skipped as they were, whatever becomes of
  its calls;
* `leavesOnlyTree_iff`: a pass with no walk error leaves rows of the tree alone exactly if the walk
  found a file, or there were no rows to begin with;
* `rows_outlive_tree`: over the empty tree every row stays, and the pass reports nothing.
-/

namespace RustCodeMcp

open Effect

variable {D : Type} {env : Env D}

namespace World

variable (env) (w w' : World D)

/-- The file at a path is on record in the metadata cache: a pass skips it as unchanged. -/
def Skips (path : PathBuf) : Prop :=
  ∃ file, w.tree.lookup path = some file ∧ w.Described env path file

/-- Every row is of a file of the walk, and the files skipped as unchanged have the rows they
had. -/
def LeavesOnlyTree : Prop :=
  (∀ row ∈ w'.vectors, row.filePath ∈ w.tree.keys) ∧
    ∀ path, w.Skips env path → w'.rowsAt path = w.rowsAt path

/-- Nothing has been done to the files that are skipped. -/
structure Spares : Prop where
  project : w.SameProject w'
  entry : ∀ path, w.Skips env path → w'.entry path = w.entry path

variable {env} {w w'} {path : PathBuf}

theorem Skips.congr (htree : w'.tree = w.tree) (hentry : w'.entry path = w.entry path)
    (h : w.Skips env path) : w'.Skips env path := by
  obtain ⟨file, hfile, metadata, hmetadata, hsame⟩ := h
  have hcache : w'.cache.lookup path = w.cache.lookup path := congrArg Entry.metadata hentry
  exact ⟨file, htree ▸ hfile, metadata, hcache ▸ hmetadata, hsame⟩

theorem Spares.refl (w : World D) : Spares env w w := ⟨.refl w, fun _ _ ↦ rfl⟩

theorem Spares.trans {w₂ : World D} (h : Spares env w w₂) (h' : Spares env w₂ w') :
    Spares env w w' := by
  refine ⟨h.project.trans h'.project, fun path hskips ↦ ?_⟩
  have hentry := h.entry path hskips
  exact (h'.entry path (hskips.congr h.project.tree hentry)).trans hentry

/-- A program about other paths spares the files that are skipped. -/
theorem SameBut.spares (h : w.SameBut (fun path ↦ ¬ w.Skips env path) w') : Spares env w w' :=
  ⟨h.project, fun path hskips ↦ h.entry path fun hnot ↦ hnot hskips⟩

end World

/-! ### One batch -/

section Batch

variable [DecidableEq D] {w w' : World D} {stats stats' : IndexStats}

/-- A processed file that is none to skip, with chunks of its own path. -/
def ProcessedFile.Fresh (env : Env D) (w : World D) (processed : ProcessedFile) : Prop :=
  ¬ w.Skips env processed.path ∧
    ∀ chunk ∈ processed.chunks, chunk.context.filePath = processed.path

/-- A file that is processed to the end was none to skip. -/
theorem fresh_of_processed {path : PathBuf} {processed : ProcessedFile}
    (htree : (w.tree.lookup path).isSome)
    (h : run (World.handle env) (processFileSync env path) w = (.ok processed, w')) :
    processed.Fresh env w := by
  obtain ⟨file, hfile⟩ := Option.isSome_iff_exists.1 htree
  rcases hchunks : env.chunksOf path file with - | ⟨text, bodies⟩
  · obtain ⟨e, herror⟩ := run_processFileSync_error hfile hchunks
    rw [h] at herror
    cases herror
  by_cases hdescribed : w.Described env path file
  · rw [run_processFileSync_described hfile hchunks hdescribed] at h
    cases h
  · rw [run_processFileSync_ok hfile hchunks hdescribed] at h
    cases h
    refine ⟨?_, fun chunk hchunk ↦ ?_⟩
    · rintro ⟨file', hfile', hdescribed'⟩
      obtain rfl : file = file' := Option.some.inj (hfile.symm.trans hfile')
      exact hdescribed hdescribed'
    · exact preparedFile_atPath w.nextId hchunks chunk hchunk

/-- **Parsing a batch** only reads, and gathers files that are none to skip. -/
theorem executes_parseBatch {batch : List PathBuf} {acc acc' : List ProcessedFile × IndexStats}
    (htree : ∀ path ∈ batch, (w.tree.lookup path).isSome)
    (hacc : ∀ processed ∈ acc.1, processed.Fresh env w)
    (h : Executes (World.mayFail env) (batch.foldlM (parseInto env) acc) w (.ok acc') w') :
    (∃ nextId, w' = { w with nextId }) ∧ ∀ processed ∈ acc'.1, processed.Fresh env w := by
  induction batch generalizing acc w with
  | nil =>
    obtain ⟨hacc', rfl⟩ := executes_pure.1 h
    cases hacc'
    exact ⟨⟨w'.nextId, rfl⟩, hacc⟩
  | cons path rest ih =>
    rw [List.foldlM_cons] at h
    obtain ⟨acc₁, w₁, hparse, hrest⟩ := executes_bind_ok.1 h
    obtain ⟨outcome, w₂, hattempt, hpure⟩ := executes_bind_ok.1 hparse
    obtain ⟨hacc₁, rfl⟩ := executes_pure.1 hpure
    obtain ⟨outcome', hok, hprocess⟩ := executes_attempt.1 hattempt
    obtain rfl := Except.ok.inj hok
    obtain ⟨nextId, rfl⟩ := visits_of_reads (reads_processFileSync path) hprocess.visits
    have hfresh₁ : ∀ processed ∈ acc₁.1, processed.Fresh env w := by
      rcases outcome with e | processed
      · cases hacc₁
        exact hacc
      · cases hacc₁
        have hrun := (failFast_processFileSync path).run_of_ok hprocess
        have hfresh := fresh_of_processed (htree path (by simp)) hrun
        intro other hother
        rcases List.mem_append.1 hother with hother | hother
        · exact hacc other hother
        · rw [List.mem_singleton.1 hother]
          exact hfresh
    exact @ih { w with nextId } acc₁ (fun p hp ↦ htree p (List.mem_cons_of_mem _ hp)) hfresh₁ hrest

omit [DecidableEq D] in
/-- Every file with its share of a batch's vectors is one of the batch. -/
theorem exists_of_mem_splitEmbeddings {processed : List ProcessedFile}
    {embeddings : List Embedding}
    {hlength : embeddings.length = (processed.flatMap ProcessedFile.chunks).length}
    {file : PreparedFile} (h : file ∈ splitEmbeddings processed embeddings hlength) :
    ∃ origin ∈ processed, file.path = origin.path ∧ file.chunks = origin.chunks := by
  induction processed generalizing embeddings with
  | nil => cases h
  | cons head rest ih =>
    rcases List.mem_cons.1 h with rfl | h
    · exact ⟨head, by simp, rfl, rfl⟩
    · obtain ⟨origin, horigin, hsame⟩ := ih h
      exact ⟨origin, List.mem_cons_of_mem _ horigin, hsame⟩

omit [DecidableEq D] in
/-- **Writing a batch** of such files spares the others. -/
theorem spares_processAndIndexBatch {processed : List ProcessedFile}
    (hfresh : ∀ file ∈ processed, file.Fresh env w)
    (h : Executes (World.mayFail env) (processAndIndexBatch env processed stats) w (.ok stats')
      w') : World.Spares env w w' := by
  obtain ⟨embeddings, w₁, hembed, hrest⟩ := executes_bind_ok.1 h
  obtain ⟨nextId, rfl⟩ := visits_of_reads (only_failingAs (reads_request (by trivial)))
    hembed.visits
  obtain ⟨_, w₂, hwrite, hpure⟩ := executes_bind_ok.1 hrest
  obtain ⟨-, rfl⟩ := executes_pure.1 hpure
  refine World.SameBut.spares (World.SameBut.of_nextId.trans (.visits ?_ hwrite.visits))
  refine within_writeFiles (fun file hfile chunk hchunk ↦ ?_) (by simp) fun file hfile ↦ ?_
  · obtain ⟨origin, horigin, -, hchunks⟩ := exists_of_mem_splitEmbeddings hfile
    obtain ⟨hskips, hat⟩ := hfresh origin horigin
    rw [hat chunk (hchunks ▸ hchunk)]
    exact hskips
  · obtain ⟨origin, horigin, hpath, -⟩ := exists_of_mem_splitEmbeddings hfile
    rw [hpath]
    exact (hfresh origin horigin).1

omit [DecidableEq D] in
theorem spares_commit
    (h : Executes (World.mayFail env) (commit >>= fun _ ↦ pure stats) w (.ok stats') w') :
    World.Spares env w w' := by
  obtain ⟨_, _, hcommit, hpure⟩ := executes_bind_ok.1 h
  have hcommit := failFast_commit.run_of_ok hcommit
  rw [run_commit] at hcommit
  cases hcommit
  obtain ⟨-, rfl⟩ := executes_pure.1 hpure
  exact ⟨⟨rfl, rfl, rfl, rfl⟩, fun _ _ ↦ rfl⟩

/-- **A batch of a full pass** leaves the files that are skipped as they were. -/
theorem spares_indexBatch {batch : List PathBuf}
    (htree : ∀ path ∈ batch, (w.tree.lookup path).isSome)
    (h : Executes (World.mayFail env) (indexBatch env stats batch) w (.ok stats') w') :
    World.Spares env w w' := by
  obtain ⟨_, _, hheadroom, hbatch⟩ := executes_bind_ok.1 h
  obtain rfl := executes_ensureIndexDiskHeadroom hheadroom
  obtain ⟨⟨processed, stats₁⟩, w₁, hparse, hrest⟩ := executes_bind_ok.1 hbatch
  obtain ⟨⟨nextId, rfl⟩, hfresh⟩ := executes_parseBatch htree (by simp) hparse
  have hparsed : World.Spares env w { w with nextId } := World.SameBut.of_nextId.spares
  simp only at hrest
  split at hrest
  · obtain ⟨_, _, hpure, hcommit⟩ := executes_bind_ok.1 hrest
    obtain ⟨-, rfl⟩ := executes_pure.1 hpure
    exact hparsed.trans (spares_commit hcommit)
  · obtain ⟨_, _, hwrite, hcommit⟩ := executes_bind_ok.1 hrest
    -- Identifiers handed out meanwhile say nothing about which files are skipped.
    have hfresh' : ∀ file ∈ processed, file.Fresh env { w with nextId } := hfresh
    exact hparsed.trans
      ((spares_processAndIndexBatch hfresh' hwrite).trans (spares_commit hcommit))

theorem spares_indexBatches {batches : List (List PathBuf)}
    (htree : ∀ path ∈ batches.flatten, (w.tree.lookup path).isSome)
    (h : Executes (World.mayFail env) (batches.foldlM (indexBatch env) stats) w (.ok stats') w') :
    World.Spares env w w' := by
  induction batches generalizing stats w with
  | nil =>
    obtain ⟨-, rfl⟩ := executes_pure.1 h
    exact .refl _
  | cons batch rest ih =>
    rw [List.foldlM_cons] at h
    obtain ⟨stats₁, w₁, hbatch, hrest⟩ := executes_bind_ok.1 h
    have hspares := spares_indexBatch (fun path hpath ↦ htree path (by simp [hpath])) hbatch
    refine hspares.trans (ih (fun path hpath ↦ ?_) hrest)
    rw [hspares.project.tree]
    exact htree path (by simp only [List.flatten_cons, List.mem_append, hpath, or_true])

/-- A pass over at least one batch leaves nothing queued, whatever was before. -/
theorem pending_indexBatches {batches : List (List PathBuf)} (hne : batches ≠ [])
    (h : Executes (World.mayFail env) (batches.foldlM (indexBatch env) stats) w (.ok stats') w') :
    w'.bm25.pending = [] := by
  obtain ⟨batch, rest, rfl⟩ := List.exists_cons_of_ne_nil hne
  obtain ⟨notes, h⟩ := executes_noted.1 h
  rw [List.foldlM_cons] at h
  obtain ⟨stats₁, u, hbatch, hrest⟩ := executes_bind_ok.1 h
  exact (executes_indexBatches (executes_indexBatch hbatch).pending hrest).pending

end Batch

/-! ### The whole pass -/

namespace World

variable [DecidableEq D] {w w' : World D} {stats : IndexStats}

omit [DecidableEq D] in
theorem mem_rowsAt_filePath {row : Row} (h : row ∈ w.vectors) : row ∈ w.rowsAt row.filePath :=
  List.mem_filter.2 ⟨h, decide_eq_true rfl⟩

/-- A pass over a tree with files ends with what the walk did not find dropped. -/
theorem leavesOnlyTree_of_files (hkeys : w.tree.keys ≠ []) (hwalk : w.walkErrors = 0)
    (h : Executes (mayFail env) (indexDirectoryParallel env) w (.ok stats) w') :
    LeavesOnlyTree env w w' := by
  obtain ⟨⟨files, walkErrors⟩, w₁, hcollect, hrest⟩ := executes_bind_ok.1 h
  have hcollect : run (handle env) collectProjectRustFiles w = _ :=
    failFast_request.run_of_ok hcollect
  rw [run_collectProjectRustFiles] at hcollect
  cases hcollect
  have hempty : w.tree.keys.isEmpty = false := by simpa using hkeys
  simp only [hempty, Bool.false_eq_true, if_false] at hrest
  obtain ⟨size, w₂, hsize, hrest⟩ := executes_bind_ok.1 hrest
  obtain ⟨nextId, rfl⟩ := visits_of_reads (reads_request (by trivial)) hsize.visits
  obtain ⟨stats₁, w₃, hbatches, hrest⟩ := executes_bind_ok.1 hrest
  have hflatten := flatten_pathChunks size w.tree.keys
  have hne : pathChunks size w.tree.keys ≠ [] := by
    intro hnil
    rw [hnil] at hflatten
    exact hkeys hflatten.symm
  have hspares : Spares env w w₃ := SameBut.of_nextId.spares.trans
    (@spares_indexBatches _ env _ { w with nextId } w₃ _ stats₁ _
      (fun path hpath ↦ mem_keys_tree.1 (hflatten ▸ hpath)) hbatches)
  obtain ⟨dropped, w₄, hdrop, hpure⟩ := executes_bind_ok.1 hrest
  obtain ⟨-, rfl⟩ := executes_pure.1 hpure
  have hdrop := failFast_dropFilesOutsideWalk.run_of_ok hdrop
  obtain ⟨_, _, hrun, -, -, hgone, hkept⟩ := @run_dropFilesOutsideWalk _ env w₃ w.tree.keys
    w.walkErrors (pending_indexBatches hne hbatches)
  rw [hdrop] at hrun
  cases hrun
  refine ⟨fun row hrow ↦ ?_, fun path hskips ↦ ?_⟩
  · by_contra hout
    have hin : row ∈ w'.rowsAt row.filePath := mem_rowsAt_filePath hrow
    by_cases houtside : w₃.Outside w.tree.keys row.filePath
    · have hrows : w'.rowsAt row.filePath = [] :=
        congrArg Entry.rows (hgone row.filePath hwalk houtside)
      simp [hrows] at hin
    · -- Nothing dropped it, so it was there to be dropped.
      have hrows : w'.rowsAt row.filePath = w₃.rowsAt row.filePath :=
        congrArg Entry.rows (hkept row.filePath fun h ↦ houtside h.2)
      exact houtside ⟨hout, List.ne_nil_of_mem (hrows ▸ hin)⟩
  · have hmem : path ∈ w.tree.keys := by
      obtain ⟨file, hfile, -⟩ := hskips
      exact mem_keys_tree.2 (by simp [hfile])
    have hentry : w'.entry path = w₃.entry path := hkept path fun h ↦ h.2.1 hmem
    exact congrArg Entry.rows (hentry.trans (hspares.entry path hskips))

/-- **A full pass that met no walk error leaves only the tree** in the vector table exactly if the
walk found a file, or there were no rows to begin with. -/
theorem leavesOnlyTree_iff (hwalk : w.walkErrors = 0)
    (h : Executes (mayFail env) (indexDirectoryParallel env) w (.ok stats) w') :
    LeavesOnlyTree env w w' ↔ w.tree.keys ≠ [] ∨ w.vectors = [] := by
  by_cases hkeys : w.tree.keys = []
  · -- The pass is over before anything is dropped.
    have hw' : w' = w := by
      obtain ⟨⟨files, walkErrors⟩, w₁, hcollect, hrest⟩ := executes_bind_ok.1 h
      have hcollect : run (handle env) collectProjectRustFiles w = _ :=
        failFast_request.run_of_ok hcollect
      rw [run_collectProjectRustFiles] at hcollect
      cases hcollect
      simp only [hkeys, List.isEmpty_nil, if_true] at hrest
      exact (executes_pure.1 hrest).2
    subst hw'
    simp only [LeavesOnlyTree, hkeys, List.not_mem_nil, imp_false, implies_true, and_true, ne_eq,
      not_true_eq_false, false_or]
    exact List.eq_nil_iff_forall_not_mem.symm
  · exact iff_of_true (leavesOnlyTree_of_files hkeys hwalk h) (Or.inl hkeys)

/-! ### An empty tree -/

/-- A project of one file, indexed. -/
def indexedOnce : World ByteArray :=
  (run (handle Env.sample) (indexDirectoryParallel Env.sample)
    (fresh (oneFile ["a.rs"] "fn f" 0))).2

/-- Its file deleted, with no snapshot to tell. -/
def leftEmpty : World ByteArray := { indexedOnce with tree := ∅ }

theorem run_indexDirectoryParallel_leftEmpty :
    run (handle Env.sample) (indexDirectoryParallel Env.sample) leftEmpty = (.ok {}, leftEmpty) :=
  rfl

/-- The project with its file moved. -/
def moved : World ByteArray := { indexedOnce with tree := oneFile ["b.rs"] "fn f" 0 }

/-- The pass after the move: the walk finds a file, so the rows of the old one go. -/
theorem leavesOnlyTree_moved : ∃ stats w',
    run (handle Env.sample) (indexDirectoryParallel Env.sample) moved = (.ok stats, w') ∧
    LeavesOnlyTree Env.sample moved w' := by
  obtain ⟨stats, hrun⟩ := @exists_run_eq_ok _ _ _ _ _ (handle Env.sample)
    (indexDirectoryParallel Env.sample) moved (by decide +kernel)
  exact ⟨stats, _, hrun, (leavesOnlyTree_iff (by decide +kernel) (executes_of_run hrun)).2
    (Or.inl (by decide))⟩

/-- **The rows of the last file outlive it**: a pass over the empty tree succeeds, with no walk
error and no failed file, and leaves them. -/
theorem rows_outlive_tree :
    ¬ ∀ (w : World ByteArray) (stats : IndexStats) (w' : World ByteArray), w.walkErrors = 0 →
      run (handle Env.sample) (indexDirectoryParallel Env.sample) w = (.ok stats, w') →
      stats.failedFiles = 0 → LeavesOnlyTree Env.sample w w' := by
  intro h
  have hrows : leftEmpty.vectors.map Row.filePath = [["a.rs"]] := by decide +kernel
  obtain ⟨row, hrow, -⟩ := List.mem_map.1 (hrows ▸ List.mem_singleton_self ["a.rs"])
  have hleaves := h leftEmpty {} leftEmpty
    (by decide +kernel) run_indexDirectoryParallel_leftEmpty rfl
  exact List.not_mem_nil (hleaves.1 row hrow)

end World

end RustCodeMcp
