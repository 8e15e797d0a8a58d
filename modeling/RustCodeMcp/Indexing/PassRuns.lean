import Mathlib.Data.List.Dedup
import RustCodeMcp.Indexing.SyncRuns

/-!
# Runs of a full pass

What a full pass over the tree does to every path, when its surroundings carry every call out. A
batch is parsed, embedded and written as a whole; since every path occurs in one batch, and once in
it, the cut into batches makes no difference to what a path holds in the end.

Within a batch the vectors are asked for once, for the chunks of all its files in turn, and cut up
afterwards by the numbers of chunks (`splitEmbeddings_map`). With that a batch is one write, with
nothing removed, and what was proved of a flush applies to it (`run_processAndIndexBatch`).

Upwards from one batch:

* `run_parseBatch`: parsing gathers the files to write;
* `run_indexBatch`: a batch writes what it can of its files, and leaves all other paths alone;
* `run_dropFilesOutside`: dropping what the walk did not find empties those paths, and no others;
* `run_indexDirectoryParallel`: the pass rewrites what it has to rewrite, and nothing else.
-/

namespace RustCodeMcp

open Effect

variable {D : Type} {env : Env D}

/-! ### One batch -/

/-- A processed file with the vectors of its chunks. -/
def ProcessedFile.embedded (env : Env D) (file : ProcessedFile) : PreparedFile :=
  ⟨file.path, file.content, file.chunks, file.chunks.map env.embed, List.length_map _⟩

/-- Cutting up the vectors of a batch gives every file those of its own chunks. -/
theorem splitEmbeddings_map (processed : List ProcessedFile) (embeddings : List Embedding)
    (hlength : embeddings.length = (processed.flatMap ProcessedFile.chunks).length)
    (hembed : embeddings = (processed.flatMap ProcessedFile.chunks).map env.embed) :
    splitEmbeddings processed embeddings hlength = processed.map (ProcessedFile.embedded env) := by
  induction processed generalizing embeddings with
  | nil => rfl
  | cons file rest ih =>
    subst hembed
    simp only [splitEmbeddings, List.map_cons, List.cons.injEq]
    refine ⟨?_, ih _ _ ?_⟩
    · simp [ProcessedFile.embedded]
    · simp

/-- A settled outcome is not retried. -/
theorem recordError_of_settled {stats : IndexStats} {path p : PathBuf} {outcome : String}
    (h : outcome ∈ SETTLED_OUTCOMES)
    (hp : p ∈ (stats.recordError path (IndexingError.parser outcome).display).retryFiles) :
    p ∈ stats.retryFiles := by
  rcases recordError_retryFiles hp with hp | ⟨-, htransient⟩
  · exact hp
  · rw [categorizeError_settled h] at htransient
    cases htransient

namespace LoopDone

variable {pending : PendingWrite} {toPrepare rest : List (PathBuf × Bool)} {w w₁ w' : World D}

/-- A commit at the end changes nothing of what the paths hold. -/
theorem commit (h : LoopDone env pending toPrepare w w') :
    LoopDone env pending toPrepare w { w' with bm25 := ⟨w'.bm25.current, []⟩ } :=
  ⟨⟨h.project.tree, h.project.walkErrors, h.project.snapshot, h.project.opened⟩,
    ⟨h.written.gone, h.written.cleared, h.written.files⟩, h.prepared, h.kept⟩

end LoopDone

section Batch

variable [DecidableEq D] {w : World D}

/-- Parsing one more file of the tree adds it to the batch, or leaves its path alone. -/
theorem run_parseInto (acc : List ProcessedFile × IndexStats) {path : PathBuf}
    (htree : (w.tree.lookup path).isSome) :
    ∃ acc' nextId, run (World.handle env) (parseInto env acc path) w =
        (.ok acc', { w with nextId }) ∧
      (∀ p ∈ acc'.2.retryFiles, p ∈ acc.2.retryFiles ∨ p = path ∧ w.Unindexable env path) ∧
      ((∃ file text bodies next, w.tree.lookup path = some file ∧
          env.chunksOf path file = some (text, bodies) ∧ ¬ w.Described env path file ∧
          acc'.1 = acc.1 ++ [⟨path, text, withIds next bodies⟩]) ∨
        (w.Prepared env true path (w.entry path) ∧ acc'.1 = acc.1)) := by
  obtain ⟨file, hfile⟩ := Option.isSome_iff_exists.1 htree
  have hfail : ∀ e, run (World.handle env) (processFileSync env path) w = (.error e, w) →
      run (World.handle env) (parseInto env acc path) w =
        (.ok (acc.1, acc.2.recordError path e), { w with nextId := w.nextId }) :=
    fun e h ↦ by simp [parseInto, run_bind, h]
  rcases hprocesses : env.processes path file with - | -
  · refine ⟨_, w.nextId, hfail _ (run_processFileSync_filtered hfile hprocesses), fun p hp ↦ ?_,
      Or.inr ⟨.kept hfile (Or.inl ⟨hprocesses, rfl⟩) rfl, rfl⟩⟩
    exact Or.inl (recordError_of_settled (by simp [SETTLED_OUTCOMES]) hp)
  rcases hchunks : env.chunksOf path file with - | ⟨text, bodies⟩
  · obtain ⟨e, hrun⟩ := run_processFileSync_error hfile hchunks
    refine ⟨_, w.nextId, hfail e hrun, fun p hp ↦ ?_,
      Or.inr ⟨.kept hfile (Or.inr ⟨hprocesses, Or.inl hchunks⟩) rfl, rfl⟩⟩
    exact (recordError_retryFiles hp).imp id fun h ↦ ⟨h.1, file, hfile, hprocesses, hchunks⟩
  by_cases hdescribed : w.Described env path file
  · refine ⟨_, w.nextId, hfail _ (run_processFileSync_described hfile hchunks hdescribed),
      fun p hp ↦ ?_, Or.inr ⟨.kept hfile (Or.inr ⟨hprocesses, Or.inr hdescribed⟩) rfl, rfl⟩⟩
    exact Or.inl (recordError_of_settled (by simp [SETTLED_OUTCOMES]) hp)
  · refine ⟨(acc.1 ++ [⟨path, text, withIds w.nextId bodies⟩], acc.2),
      w.nextId + bodies.length, ?_, fun p hp ↦ Or.inl hp,
      Or.inl ⟨file, text, bodies, w.nextId, hfile, hchunks, hdescribed, rfl⟩⟩
    simp [parseInto, run_bind, run_processFileSync_ok hfile hchunks hdescribed]

/-- The write of a batch. -/
def batchWrite (env : Env D) (processed : List ProcessedFile) : PendingWrite :=
  { files := processed.map (ProcessedFile.embedded env) }

omit [DecidableEq D] in
theorem paths_batchWrite {processed : List ProcessedFile} :
    (batchWrite env processed).paths = processed.map ProcessedFile.path := by
  simp [PendingWrite.paths, PendingWrite.removed, batchWrite, Function.comp_def,
    ProcessedFile.embedded]

/-- **Parsing a batch** gathers the files to write: once they are written, every path of the batch
is written or as it was. -/
theorem run_parseBatch (acc : List ProcessedFile × IndexStats) {batch : List PathBuf}
    (htree : ∀ path ∈ batch, (w.tree.lookup path).isSome)
    (hready : ∀ file ∈ (batchWrite env acc.1).files, file.Ready env w)
    (hnodup : (acc.1.map ProcessedFile.path ++ batch).Nodup) :
    ∃ acc' nextId, run (World.handle env) (batch.foldlM (parseInto env) acc) w =
        (.ok acc', { w with nextId }) ∧
      (∀ p ∈ acc'.2.retryFiles, p ∈ acc.2.retryFiles ∨ w.Unindexable env p) ∧
      (∀ file ∈ (batchWrite env acc'.1).files, file.Ready env w) ∧
      (acc'.1.map ProcessedFile.path).Nodup ∧
      ∀ w', LoopDone env (batchWrite env acc'.1) [] w w' →
        LoopDone env (batchWrite env acc.1) (batch.map fun path ↦ (path, true)) w w' := by
  induction batch generalizing acc w with
  | nil => exact ⟨acc, w.nextId, by simp, fun p hp ↦ Or.inl hp, hready, by simpa using hnodup,
      fun w' h ↦ h⟩
  | cons path rest ih =>
    obtain ⟨acc₁, nextId, hrun, hretry, hcases⟩ := @run_parseInto _ env _ w acc path
      (htree path List.mem_cons_self)
    obtain ⟨hacc, hcons, hdisjoint⟩ := List.nodup_append'.1 hnodup
    have hpath : path ∉ acc.1.map ProcessedFile.path := fun h ↦ hdisjoint h List.mem_cons_self
    have hready₁ : ∀ file ∈ (batchWrite env acc₁.1).files, file.Ready env w := by
      rcases hcases with ⟨file, text, bodies, next, hfile, hchunks, -, hacc₁⟩ | ⟨-, hacc₁⟩
      · rw [hacc₁]
        intro prepared hprepared
        simp only [batchWrite, List.map_append, List.map_cons, List.map_nil, List.mem_append,
          List.mem_singleton] at hprepared
        rcases hprepared with hprepared | rfl
        · exact hready prepared hprepared
        · exact ⟨next, path, file, text, bodies, rfl, hfile, hchunks⟩
      · rwa [hacc₁]
    have hnodup₁ : (acc₁.1.map ProcessedFile.path ++ rest).Nodup := by
      rcases hcases with ⟨_, _, _, _, -, -, -, hacc₁⟩ | ⟨-, hacc₁⟩
      · simpa [hacc₁] using hnodup
      · rw [hacc₁]
        exact hnodup.sublist ((List.sublist_cons_self _ _).append_left _)
    obtain ⟨acc', nextId', hrun', hretry', hready', hnodup', hdone'⟩ := @ih { w with nextId } acc₁
      (fun p hp ↦ htree p (List.mem_cons_of_mem _ hp)) hready₁ hnodup₁
    refine ⟨acc', nextId', ?_, fun p hp ↦ ?_, hready', hnodup', fun w' h ↦ ?_⟩
    · rw [List.foldlM_cons, run_bind_ok hrun, hrun']
    · rcases hretry' p hp with hp | hp
      · exact (hretry p hp).imp id fun ⟨hp, h⟩ ↦ hp ▸ h
      · exact Or.inr hp
    · have hrest : LoopDone env (batchWrite env acc₁.1) (rest.map fun path ↦ (path, true)) w w' :=
        (hdone' w' (h.congr_left ⟨rfl, rfl, rfl, rfl⟩ fun _ ↦ rfl)).congr_left
          ⟨rfl, rfl, rfl, rfl⟩ fun _ ↦ rfl
      rcases hcases with ⟨file, text, bodies, next, hfile, hchunks, hdescribed, hacc₁⟩ |
        ⟨hprepared, hacc₁⟩
      · rw [hacc₁, batchWrite, List.map_append] at hrest
        exact hrest.ready hfile hchunks hdescribed
      · rw [hacc₁] at hrest
        refine hrest.keep hprepared (by rwa [paths_batchWrite]) ?_
        simpa [Function.comp_def] using (List.nodup_cons.1 hcons).1

omit [DecidableEq D] in
/-- Embedding and writing the processed files of a batch is flushing its write. -/
theorem run_processAndIndexBatch (stats : IndexStats) {processed : List ProcessedFile}
    (hready : ∀ file ∈ (batchWrite env processed).files, file.Ready env w) :
    ∃ stats', run (World.handle env) (processAndIndexBatch env processed stats) w =
        (.ok stats', w.flush env (batchWrite env processed)) ∧
      stats'.retryFiles = stats.retryFiles := by
  have hsplit := @splitEmbeddings_map _ env processed _ (List.length_map _) rfl
  have hwrite := @run_writeFiles _ env w (processed.map (ProcessedFile.embedded env)) []
    fun file hfile ↦ (hready file hfile).isSome_lookup
  refine ⟨{ stats with
    indexedFiles := stats.indexedFiles + processed.length
    totalChunks := stats.totalChunks + (processed.flatMap ProcessedFile.chunks).length }, ?_, rfl⟩
  simp only [processAndIndexBatch, generateEmbeddingsBatched, run_bind, run_failingAs,
    run_embedChunks, Except.mapError, hsplit, hwrite, run_pure]
  rfl

/-- **A batch writes what it can of its files**, and leaves all other paths alone. -/
theorem run_indexBatch (stats : IndexStats) {batch : List PathBuf}
    (htree : ∀ path ∈ batch, (w.tree.lookup path).isSome) (hnodup : batch.Nodup) :
    ∃ stats' w', run (World.handle env) (indexBatch env stats batch) w = (.ok stats', w') ∧
      (∀ p ∈ stats'.retryFiles, p ∈ stats.retryFiles ∨ w.Unindexable env p) ∧
      w'.bm25.pending = [] ∧
      LoopDone env {} (batch.map fun path ↦ (path, true)) w w' := by
  obtain ⟨⟨processed, stats₁⟩, nextId, hparse, hretry, hready, hnodup', hdone⟩ :=
    @run_parseBatch _ env _ w ([], stats) batch htree (by simp [batchWrite]) (by simpa using hnodup)
  have hflushed : LoopDone env (batchWrite env processed) [] w
      (World.flush env { w with nextId } (batchWrite env processed)) :=
    LoopDone.congr_left
      ⟨World.sameProject_flush, written_flush hready (by rwa [paths_batchWrite]), by simp,
        fun path hpath _ ↦ entry_flush_of_not_mem hready hpath⟩
      ⟨rfl, rfl, rfl, rfl⟩ fun _ ↦ rfl
  rcases hempty : processed with - | ⟨first, others⟩
  · subst hempty
    have hkept : LoopDone env (batchWrite env []) [] w { w with nextId } :=
      ⟨⟨rfl, rfl, rfl, rfl⟩, ⟨by simp [batchWrite], by simp [batchWrite], by simp [batchWrite]⟩,
        by simp, fun _ _ _ ↦ rfl⟩
    refine ⟨stats₁, _, ?_, hretry, rfl, (hdone _ hkept).commit⟩
    simp [indexBatch, parallelParseBatch, run_bind, hparse, run_commit]
  · obtain ⟨stats₂, hwrite, hretry₂⟩ := @run_processAndIndexBatch _ env { w with nextId } stats₁ _
      hready
    refine ⟨stats₂, _, ?_, fun p hp ↦ hretry p (hretry₂ ▸ hp), rfl, (hdone _ hflushed).commit⟩
    have hne : processed.isEmpty = false := by simp [hempty]
    simp only [indexBatch, parallelParseBatch, run_bind, run_ensureIndexDiskHeadroom, hparse, hne,
      Bool.false_eq_true, if_false, hwrite, run_commit, run_pure]

/-- All batches in turn. -/
theorem run_indexBatches (stats : IndexStats) {batches : List (List PathBuf)}
    (htree : ∀ path ∈ batches.flatten, (w.tree.lookup path).isSome)
    (hnodup : batches.flatten.Nodup) (hpending : w.bm25.pending = []) :
    ∃ stats' w', run (World.handle env) (batches.foldlM (indexBatch env) stats) w =
        (.ok stats', w') ∧
      (∀ p ∈ stats'.retryFiles, p ∈ stats.retryFiles ∨ w.Unindexable env p) ∧
      w'.bm25.pending = [] ∧
      LoopDone env {} (batches.flatten.map fun path ↦ (path, true)) w w' := by
  induction batches generalizing stats w with
  | nil =>
    exact ⟨stats, w, by simp, fun p hp ↦ Or.inl hp, hpending, .refl w, ⟨by simp, by simp, by simp⟩,
      by simp, fun _ _ _ ↦ rfl⟩
  | cons batch rest ih =>
    rw [List.flatten_cons] at htree hnodup
    obtain ⟨hbatch, hrest, hdisjoint⟩ := List.nodup_append'.1 hnodup
    obtain ⟨stats₁, w₁, hrun₁, hretry₁, hpending₁, hdone₁⟩ := @run_indexBatch _ env _ w stats batch
      (fun path hpath ↦ htree path (List.mem_append_left _ hpath)) hbatch
    obtain ⟨stats', w', hrun', hretry', hpending', hdone'⟩ := ih stats₁ (fun path hpath ↦ by
      rw [hdone₁.project.tree]
      exact htree path (List.mem_append_right _ hpath)) hrest hpending₁
    refine ⟨stats', w', ?_, fun p hp ↦ ?_, hpending', ?_⟩
    · rw [List.foldlM_cons, run_bind_ok hrun₁, hrun']
    · rcases hretry' p hp with hp | hp
      · exact hretry₁ p hp
      · rw [World.Unindexable, hdone₁.project.tree] at hp
        exact Or.inr hp
    · rw [List.flatten_cons, List.map_append]
      refine hdone₁.trans hdone' (by simp [PendingWrite.paths, PendingWrite.removed]) ?_
      simp only [List.map_map, Function.comp_def, List.map_id']
      exact hdisjoint

end Batch

/-! ### The end of a pass -/

/-- The slices of a list make up the list. -/
theorem flatten_pathChunks (size : ℕ) (paths : List PathBuf) :
    (pathChunks size paths).flatten = paths := by
  have hall : ∀ (paths : List PathBuf) (i : ℕ),
      (paths.toChunksAux (size - 1) i).1 ++ (paths.toChunksAux (size - 1) i).2.flatten = paths := by
    intro paths
    induction paths with
    | nil => simp [List.toChunksAux]
    | cons path rest ih =>
      intro i
      cases i with
      | zero => simpa [List.toChunksAux] using ih (size - 1)
      | succ i => simpa [List.toChunksAux] using ih i
  have hfirst : (paths.toChunksAux (size - 1) 0).1 = [] := by
    cases paths <;> simp [List.toChunksAux]
  simpa [pathChunks, hfirst] using hall paths 0

section Drop

variable {w : World D}

theorem run_forgetFiles (paths : List PathBuf) :
    run (World.handle env) (Prog.forEach forgetFile paths) w = (.ok (), w.forget paths) := by
  induction paths generalizing w with
  | nil => rfl
  | cons path rest ih =>
    have hhead : run (World.handle env) (forgetFile path) w = (.ok (), w.forget [path]) := by
      simp [forgetFile, Except.mapError, World.forget]
    rw [Prog.forEach_cons, run_bind_ok hhead, ih]
    rfl

theorem mem_indexedFilePaths {path : PathBuf} :
    path ∈ (w.vectors.map Row.filePath).dedup ↔ w.rowsAt path ≠ [] := by
  rw [List.mem_dedup, List.mem_map, Ne, World.rowsAt, List.filter_eq_nil_iff]
  simp

/-- The paths that a full walk does not list and that have rows. -/
def World.Outside (w : World D) (tree : List PathBuf) (path : PathBuf) : Prop :=
  path ∉ tree ∧ w.rowsAt path ≠ []

theorem write_nil (removed : List PathBuf) : w.write env [] removed = w.deleteChunks removed := by
  simp [World.write, World.addChunks, World.recordFiles, World.deleteChunks]

/-- **Dropping what a walk did not find** empties the paths outside it, and leaves all others
alone. -/
theorem run_dropFilesOutside (tree : List PathBuf) (hpending : w.bm25.pending = []) :
    ∃ gone w', run (World.handle env) (dropFilesOutside tree) w = (.ok gone, w') ∧
      (∀ p, p ∈ gone ↔ w.Outside tree p) ∧ w.SameProject w' ∧ w'.bm25.pending = [] ∧
      (∀ p, w.Outside tree p → w'.entry p = ⟨[], [], none⟩) ∧
      ∀ p, ¬ w.Outside tree p → w'.entry p = w.entry p := by
  have hmem : ∀ p, p ∈ sortPaths ((w.vectors.map Row.filePath).dedup.filter
      fun path ↦ path ∉ tree) ↔ w.Outside tree p := by
    intro p
    rw [World.mem_sortPaths, List.mem_filter, mem_indexedFilePaths, decide_eq_true_eq, and_comm]
    rfl
  generalize hgone : sortPaths ((w.vectors.map Row.filePath).dedup.filter
      fun path ↦ path ∉ tree) = gone at hmem
  rcases hempty : gone with - | ⟨first, others⟩
  · refine ⟨[], w, ?_, hempty ▸ hmem, .refl w, hpending, fun p hp ↦ ?_, fun p _ ↦ rfl⟩
    · simp only [dropFilesOutside, run_bind, run_mapError, run_indexedFilePaths, Except.mapError,
        hgone, hempty, List.isEmpty_nil, if_true, run_pure]
    · rw [← hmem, hempty] at hp
      simp at hp
  · refine ⟨gone, World.forget { w.deleteChunks gone with
      bm25 := ⟨(w.deleteChunks gone).bm25.current, []⟩ } gone, ?_, hmem, ⟨rfl, rfl, rfl, rfl⟩, rfl,
      fun p hp ↦ ?_, fun p hp ↦ ?_⟩
    · have hne : gone.isEmpty = false := by simp [hempty]
      simp only [dropFilesOutside, run_bind, run_mapError, run_indexedFilePaths, Except.mapError,
        hgone, hne, Bool.false_eq_true, if_false, run_deleteFilesChunks, run_commit,
        run_forgetFiles, run_pure]
    · have hentry : (w.deleteChunks gone).entry p = ⟨[], [], w.cache.lookup p⟩ := by
        rw [← @write_nil _ env]
        exact World.entry_write_of_mem_removed (by simp) ((hmem p).2 hp) (by simp)
      rw [World.entry_forget, if_pos ((hmem p).2 hp)]
      rw [Entry.mk.injEq] at hentry ⊢
      exact ⟨hentry.1, hentry.2.1, rfl⟩
    · have hentry : (w.deleteChunks gone).entry p = w.entry p := by
        rw [← @write_nil _ env]
        exact World.entry_write_of_not_mem (by simp) (mt (hmem p).1 hp) (by simp)
      rw [World.entry_forget, if_neg (mt (hmem p).1 hp)]
      exact hentry

end Drop

/-! ### The whole pass -/

section Pass

variable {w : World D}

/-- The outcome for a file of the tree, in terms of what a pass rewrites. -/
theorem rewrittenByPass_of_prepared {path : PathBuf} {e : Entry D}
    (h : w.Prepared env true path e) :
    (w.RewrittenByPass env path → w.RewrittenEntry env path e) ∧
      (¬ w.RewrittenByPass env path → e = w.entry path) := by
  cases h with
  | fresh next hfile hchunks hdescribed he =>
    refine ⟨fun _ ↦ ?_, fun h ↦ absurd ?_ h⟩
    · simp only [World.RewrittenEntry, hfile, hchunks]
      exact ⟨next, he⟩
    · simp [World.RewrittenByPass, hfile, hchunks, hdescribed]
  | cleared hfile hprocesses hconsult he => cases hconsult
  | kept hfile hleft he =>
    refine ⟨fun h ↦ ?_, fun _ ↦ he⟩
    simp only [World.RewrittenByPass, hfile] at h
    rcases hleft with ⟨hprocesses, -⟩ | ⟨-, hchunks | hdescribed⟩
    · simp [Env.chunksOf_eq_none_of_not_processes hprocesses] at h
    · simp [hchunks] at h
    · exact absurd hdescribed h.2

/-- What dropping the files outside the walk, if it is done, leaves of each path. -/
theorem run_dropFilesOutsideWalk (walked : List PathBuf) (walkErrors : ℕ)
    (hpending : w.bm25.pending = []) :
    ∃ dropped w', run (World.handle env) (dropFilesOutsideWalk walked walkErrors) w =
        (.ok dropped, w') ∧
      w.SameProject w' ∧ w'.bm25.pending = [] ∧
      (∀ p, walkErrors = 0 → w.Outside walked p → w'.entry p = ⟨[], [], none⟩) ∧
      ∀ p, ¬ (walkErrors = 0 ∧ w.Outside walked p) → w'.entry p = w.entry p := by
  rcases Nat.eq_zero_or_pos walkErrors with rfl | hpos
  · obtain ⟨gone, w', hrun, -, hproject, hpending', houtside, hkept⟩ :=
      @run_dropFilesOutside _ env w walked hpending
    refine ⟨gone.length, w', ?_, hproject, hpending', fun p _ ↦ houtside p,
      fun p hp ↦ hkept p fun h ↦ hp ⟨rfl, h⟩⟩
    simp [dropFilesOutsideWalk, run_bind, hrun]
  · refine ⟨0, w, ?_, .refl w, hpending, fun p hzero ↦ ?_, fun p _ ↦ rfl⟩
    · simp [dropFilesOutsideWalk, hpos]
    · omega

/-- **A full pass over the tree** rewrites what it has to rewrite, and nothing else. -/
theorem run_indexDirectoryParallel [DecidableEq D] (hpending : w.bm25.pending = []) :
    ∃ stats w', run (World.handle env) (indexDirectoryParallel env) w = (.ok stats, w') ∧
      w.SameProject w' ∧ w'.bm25.pending = [] ∧
      (∀ p ∈ stats.retryFiles, w.Unindexable env p) ∧
      ∀ p, (w.RewrittenByPass env p → w.RewrittenEntry env p (w'.entry p)) ∧
        (¬ w.RewrittenByPass env p → w'.entry p = w.entry p) := by
  by_cases hkeys : w.tree.keys = []
  · refine ⟨{ totalFiles := w.tree.keys.length }, w, ?_, .refl w, hpending, by simp,
      fun p ↦ ⟨fun h ↦ ?_, fun _ ↦ rfl⟩⟩
    · simp [indexDirectoryParallel, run_bind, hkeys]
    · have hfile : w.tree.lookup p = none := by
        rw [← Option.not_isSome_iff_eq_none, ← World.mem_keys_tree, hkeys]
        simp
      simp [World.RewrittenByPass, hfile, hkeys] at h
  have hflatten := flatten_pathChunks env.safeBatchSize w.tree.keys
  obtain ⟨stats₁, w₁, hrun₁, hretry₁, hpending₁, hdone⟩ := @run_indexBatches _ env _ w
    { totalFiles := w.tree.keys.length } (pathChunks env.safeBatchSize w.tree.keys)
    (fun path hpath ↦ World.mem_keys_tree.1 (hflatten ▸ hpath))
    (hflatten.symm ▸ w.tree.keys_nodup) hpending
  obtain ⟨dropped, w', hrun', hproject', hpending', houtside, hkept⟩ :=
    @run_dropFilesOutsideWalk _ env w₁ w.tree.keys w.walkErrors hpending₁
  rw [hflatten] at hdone
  refine ⟨{ stats₁ with
    needsMaintenance := decide (0 < stats₁.indexedFiles) || decide (0 < dropped) }, w', ?_,
    hdone.project.trans hproject', hpending', fun p hp ↦ (hretry₁ p hp).resolve_left (by simp),
    fun p ↦ ?_⟩
  · have hne : w.tree.keys.isEmpty = false := by simpa using hkeys
    simp only [indexDirectoryParallel, run_bind, run_collectProjectRustFiles, hne,
      Bool.false_eq_true, if_false, run_calculateSafeBatchSize, hrun₁, hrun', run_pure]
  rcases hfile : w.tree.lookup p with - | file
  · have hmem : p ∉ w.tree.keys := fun h ↦ by
      simpa [hfile] using World.mem_keys_tree.1 h
    have hentry₁ : w₁.entry p = w.entry p :=
      hdone.kept p (by simp [PendingWrite.paths, PendingWrite.removed]) (by simpa using hmem)
    have hrows₁ : w₁.rowsAt p = w.rowsAt p := congrArg Entry.rows hentry₁
    have hrewritten : w.RewrittenByPass env p ↔ w.walkErrors = 0 ∧ w₁.Outside w.tree.keys p := by
      simp only [World.RewrittenByPass, hfile, World.Outside, hrows₁]
      tauto
    refine ⟨fun h ↦ ?_, fun h ↦ ?_⟩
    · simp only [World.RewrittenEntry, hfile]
      exact houtside p (hrewritten.1 h).1 (hrewritten.1 h).2
    · rw [hkept p (mt hrewritten.2 h), hentry₁]
  · have hmem : p ∈ w.tree.keys := World.mem_keys_tree.2 (by simp [hfile])
    rw [hkept p fun h ↦ h.2.1 hmem]
    exact rewrittenByPass_of_prepared (hdone.prepared p true (by simpa using hmem))

end Pass

end RustCodeMcp
