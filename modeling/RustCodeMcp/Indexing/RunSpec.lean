import RustCodeMcp.Indexing.PassRuns

/-!
# What a run does

The specification of a completed run whose surroundings carry every call out, path by path:
`runDone_of_ok`. Every result about runs that complete is drawn from it, and none looks at the code
of a run again. In particular `RunDone.upToDate_iff` says of each path, from the world before the
run, whether the run leaves the vector table holding what it should.

A run that completes may still fail: a row under a wrong key stops the refill
(`run_indexWithChangeDetectionExcluding_error`). Everything else that can go wrong with a file ends
as an error counted in the statistics, and the run goes on.
-/

namespace RustCodeMcp

open Effect

variable {D : Type} [DecidableEq D] {env : Env D}

/-- What a completed run has done. -/
structure RunDone (env : Env D) (w w' : World D) (stats : IndexStats) : Prop where
  tree : w'.tree = w.tree
  walkErrors : w'.walkErrors = w.walkErrors
  pending : w'.bm25.pending = []
  retry : ∀ path ∈ stats.retryFiles, w.Unindexable env path
  snapshot : w'.snapshot.isSome
  oldHash : ∀ path, w'.oldHash path =
    if path ∈ stats.retryFiles then w.oldHash path else w.newHash env path
  rewritten : ∀ path, w.Rewritten env path → w.RewrittenEntry env path (w'.entry path)
  kept : ∀ path, ¬ w.Rewritten env path → w'.entry path = (w.broughtUp env).entry path

/-! ### The strategy of a run -/

section Strategy

variable {w : World D} {old : FileSystemMerkle D}

omit [DecidableEq D] in
/-- Whether the readers are out is left alone by opening the stores. -/
theorem broughtUp_readersOut {readersOut : Bool} :
    World.broughtUp { w with readersOut } env = { w.broughtUp env with readersOut } := by
  simp only [World.broughtUp]
  split <;> rfl

omit [DecidableEq D] in
theorem rewrittenByPass_broughtUp {path : PathBuf} :
    (w.broughtUp env).RewrittenByPass env path ↔ w.RewrittenByPass env path := by
  unfold World.broughtUp; split <;> exact Iff.rfl

omit [DecidableEq D] in
theorem unindexable_broughtUp {path : PathBuf} :
    World.Unindexable env (w.broughtUp env) path ↔ World.Unindexable env w path := by
  unfold World.broughtUp; split <;> exact Iff.rfl

/-- **The full pass of a run without a snapshot synchronises the stores.** -/
theorem run_fullPass (exclusion : ReaderExclusion) (hpending : w.bm25.pending = [])
    (hkeyed : w.NeedsRefill → w.RowsKeyed) :
    ∃ stats w', run (World.handle env) (fullPass env exclusion) w = (.ok stats, w') ∧
      Synced env (w.RewrittenByPass env) w w' stats := by
  obtain ⟨readersOut, hexclude⟩ := @run_exclude _ env exclusion w
  have hensure : run (World.handle env) ensureIndexer { w with readersOut } =
      (.ok (), { w.broughtUp env with readersOut }) := by
    rw [← broughtUp_readersOut]
    exact run_ensureIndexer hkeyed
  obtain ⟨stats, w', hpass, hproject, hpending', hretry, hentry⟩ :=
    @run_indexDirectoryParallel _ env { w.broughtUp env with readersOut } _
      (World.pending_broughtUp hpending)
  obtain ⟨readersOut', hadmit⟩ := @run_admitAfter _ env { w with readersOut } _ exclusion
    (do ensureIndexer; indexDirectoryParallel env) stats w' (by rw [run_bind_ok hensure, hpass])
  refine ⟨stats, { w' with readersOut := readersOut' }, ?_, ?_⟩
  · rw [fullPass, run_bind_ok hexclude, hadmit]
  · refine ⟨?_, ?_, ?_, hpending', fun p hp ↦ ?_, fun p hp ↦ ?_, fun p hp ↦ ?_⟩
    · exact hproject.tree.trans World.tree_broughtUp
    · exact hproject.walkErrors.trans World.walkErrors_broughtUp
    · exact hproject.snapshot.trans World.snapshot_broughtUp
    · exact unindexable_broughtUp.1 (hretry p hp)
    · exact rewrittenEntry_broughtUp.1 ((hentry p).1 (rewrittenByPass_broughtUp.2 hp))
    · exact (hentry p).2 (mt rewrittenByPass_broughtUp.1 hp)

omit [DecidableEq D] in
/-- Refilling twice is refilling once. -/
theorem refilled_refilled : (w.refilled env).refilled env = w.refilled env := by
  by_cases hcommitted : w.bm25.committed = []
  · by_cases hscanned : w.scannedDocuments env = []
    · simp_all [World.refilled, World.scannedDocuments]
    · simp [World.refilled, hcommitted, hscanned]
  · simp [World.refilled, hcommitted]

omit [DecidableEq D] in
theorem run_refillBeside_of_needsRefill (hneeds : w.NeedsRefill) (hkeyed : w.RowsKeyed) :
    run (World.handle env) (refillBeside (some old)) w = (.ok (), w.refilled env) := by
  obtain ⟨indexed, hrun⟩ := @run_openWriter_rebuild _ env w fun _ ↦ hkeyed
  simp only [refillBeside, run_bind, run_isOpened, hneeds.1, Option.isSome_some, Bool.not_false,
    Bool.and_self, if_true, run_committedDocCount, hneeds.2, List.length_nil, hrun]
  rfl

omit [DecidableEq D] in
theorem run_refillBeside_of_not_needsRefill (hneeds : ¬ w.NeedsRefill) :
    run (World.handle env) (refillBeside (some old)) w = (.ok (), w) := by
  rcases hopened : w.opened with - | -
  · have hcommitted : w.bm25.committed ≠ [] := fun h ↦ hneeds ⟨hopened, h⟩
    simp only [refillBeside, run_bind, run_isOpened, hopened, Option.isSome_some, Bool.not_false,
      Bool.and_self, if_true, run_committedDocCount, List.length_eq_zero_iff, hcommitted, if_false]
    rfl
  · simp only [refillBeside, run_bind, run_isOpened, hopened, Bool.not_true, Bool.and_false,
      Bool.false_eq_true, if_false]
    rfl

omit [DecidableEq D] in
theorem run_refillBeside_error (hneeds : w.NeedsRefill) (hkeyed : ¬ w.RowsKeyed) :
    ∃ e w', run (World.handle env) (refillBeside (some old)) w = (.error e, w') := by
  obtain ⟨e, w₁, hrebuild⟩ := @run_rebuildBm25IfEmpty_error _ env
    { w with bm25 := ⟨w.bm25.committed, []⟩ } hneeds.2 hkeyed
  rw [hneeds.1, hneeds.2] at hrebuild
  refine ⟨e, w₁, ?_⟩
  simp only [refillBeside, run_bind, run_isOpened, hneeds.1, Option.isSome_some, Bool.not_false,
    Bool.and_self, if_true, run_committedDocCount, hneeds.2, List.length_nil,
    rebuildBm25FromExistingStore, run_openWriter, hrebuild]

omit [DecidableEq D] in
/-- A run with a snapshot refills an empty BM25 index first. -/
theorem run_refillBeside (hpending : w.bm25.pending = []) (hkeyed : w.NeedsRefill → w.RowsKeyed) :
    ∃ bm25, run (World.handle env) (refillBeside (some old)) w = (.ok (), { w with bm25 }) ∧
      bm25.pending = [] ∧ (bm25.committed = [] → w.bm25.committed = []) ∧
      World.broughtUp { w with bm25 } env = w.broughtUp env ∧
      ∀ path, World.entry { w with bm25 } path = (w.broughtUp env).entry path := by
  by_cases hneeds : w.NeedsRefill
  · refine ⟨(w.refilled env).bm25, run_refillBeside_of_needsRefill hneeds (hkeyed hneeds), rfl,
      fun _ ↦ hneeds.2, ?_, fun path ↦ ?_⟩
    · have hopened : (w.refilled env).opened = false := hneeds.1
      have hrefilled : (w.refilled env).broughtUp env = w.broughtUp env := by
        simp [World.broughtUp, refilled_refilled, hopened, hneeds.1]
      exact hrefilled
    · rw [World.broughtUp, if_neg (by simp [hneeds.1])]
      rfl
  · exact ⟨w.bm25, run_refillBeside_of_not_needsRefill hneeds, hpending, id, rfl, fun path ↦
      (World.entry_broughtUp_of_not_needsRefill hpending hneeds).symm⟩

/-- **A run synchronises the stores**, with or without a snapshot. -/
theorem run_strategy (exclusion : ReaderExclusion) (hpending : w.bm25.pending = [])
    (hkeyed : w.NeedsRefill → w.RowsKeyed) :
    ∃ stats w', run (World.handle env)
        (refillBeside w.oldMerkle >>= fun _ ↦ strategy env exclusion w.oldMerkle (w.merkle env)) w =
        (.ok stats, w') ∧
      Synced env (w.Rewritten env) w w' stats := by
  rcases hold : w.oldMerkle with - | old
  · obtain ⟨stats, w', hrun, hsynced⟩ := @run_fullPass _ _ env w exclusion hpending hkeyed
    have hrewritten : w.Rewritten env = w.RewrittenByPass env := by
      funext path
      simp [World.Rewritten, hold]
    refine ⟨stats, w', ?_, hrewritten ▸ hsynced⟩
    have hbeside : run (World.handle env) (refillBeside none) w = (.ok (), w) := by
      simp [refillBeside, run_bind]
    rw [run_bind_ok hbeside, strategy, hrun]
  · obtain ⟨bm25, hbeside, hpending', hcommitted, hup, hentry⟩ :=
      @run_refillBeside _ env w old hpending hkeyed
    have hkeyed' : World.NeedsRefill { w with bm25 } → World.RowsKeyed { w with bm25 } :=
      fun h ↦ hkeyed ⟨h.1, hcommitted h.2⟩
    obtain ⟨stats, w', hrun, hsynced⟩ :=
      @run_incrementalUpdate _ env _ { w with bm25 } old exclusion
      hpending' hkeyed' fun path ↦ by rw [hup]; exact hentry path
    have hrewritten : w.Rewritten env = w.RewrittenSince env old := by
      funext path
      simp [World.Rewritten, hold]
    refine ⟨stats, w', ?_, ?_⟩
    · rw [run_bind_ok hbeside, strategy]
      exact hrun
    · rw [hrewritten]
      exact ⟨hsynced.tree, hsynced.walkErrors, hsynced.snapshot, hsynced.pending, hsynced.retry,
        hsynced.rewritten, fun path hpath ↦ (hsynced.kept path hpath).trans (by rw [hup])⟩

end Strategy

/-! ### A whole run -/

section Whole

variable {w : World D}

/-- The snapshot a run saves, given the paths it asks to retry. -/
def World.nextSnapshot (env : Env D) (w : World D) (retryFiles : List PathBuf) :
    MerkleSnapshot D :=
  ((w.merkle env).snapshotWithRetries w.oldMerkle retryFiles).toSnapshot

omit [DecidableEq D] in
/-- It keeps the hash of a path to retry, and has the hash of every other file. -/
theorem World.oldHash_nextSnapshot {w' : World D} {retryFiles : List PathBuf} {path : PathBuf} :
    World.oldHash { w' with snapshot := some (w.nextSnapshot env retryFiles) } path =
      if path ∈ retryFiles then w.oldHash path else w.newHash env path := by
  rw [← World.hashOf_merkle]
  exact FileSystemMerkle.hashOf_snapshotWithRetries

/-- **A run completes, and has done what it has to do**, unless a refill meets a row under a wrong
key. -/
theorem run_indexWithChangeDetectionExcluding (exclusion : ReaderExclusion)
    (hpending : w.bm25.pending = []) (hkeyed : w.NeedsRefill → w.RowsKeyed) :
    ∃ stats w', run (World.handle env) (indexWithChangeDetectionExcluding env exclusion) w =
        (.ok stats, w') ∧
      RunDone env w w' stats := by
  obtain ⟨stats, w', hrun, hsynced⟩ := @run_strategy _ _ env w exclusion hpending hkeyed
  obtain ⟨_, w₁, hbeside, hstrategy⟩ := run_bind_eq_ok hrun
  refine ⟨stats, { w' with snapshot := some (w.nextSnapshot env stats.retryFiles) }, ?_, ?_⟩
  · simp only [indexWithChangeDetectionExcluding, run_bind, run_ensureIndexDiskHeadroom,
      run_loadSnapshot, run_fromDirectory]
    rw [World.oldMerkle] at hbeside hstrategy
    simp only [hbeside, hstrategy, run_saveSnapshot, run_pure]
    rfl
  · exact ⟨hsynced.tree, hsynced.walkErrors, hsynced.pending, hsynced.retry, rfl,
      fun _ ↦ World.oldHash_nextSnapshot, hsynced.rewritten, hsynced.kept⟩

/-- A run that has to refill BM25 from a row under a wrong key fails. -/
theorem run_indexWithChangeDetectionExcluding_error (exclusion : ReaderExclusion)
    (hneeds : w.NeedsRefill) (hkeyed : ¬ w.RowsKeyed) :
    ∃ e w', run (World.handle env) (indexWithChangeDetectionExcluding env exclusion) w =
      (.error e, w') := by
  have hfails : ∃ e w', run (World.handle env) (refillBeside w.oldMerkle >>= fun _ ↦
      strategy env exclusion w.oldMerkle (w.merkle env)) w = (.error e, w') := by
    rcases hold : w.oldMerkle with - | old
    · obtain ⟨readersOut, hexclude⟩ := @run_exclude _ env exclusion w
      obtain ⟨e, w₁, hensure⟩ := @run_ensureIndexer_error _ env { w with readersOut } hneeds hkeyed
      obtain ⟨readersOut', hadmit⟩ := @run_admitAfter_error _ env _ _ exclusion
        (do ensureIndexer; indexDirectoryParallel env) e w₁ (run_bind_error hensure)
      have hbeside : run (World.handle env) (refillBeside none) w = (.ok (), w) := by
        simp [refillBeside, run_bind]
      exact ⟨e, _, by rw [run_bind_ok hbeside, strategy, fullPass, run_bind_ok hexclude, hadmit]⟩
    · obtain ⟨e, w₁, hbeside⟩ := @run_refillBeside_error _ env w old hneeds hkeyed
      exact ⟨e, w₁, run_bind_error hbeside⟩
  obtain ⟨e, w', hrun⟩ := hfails
  refine ⟨e, w', ?_⟩
  simp only [indexWithChangeDetectionExcluding, run_bind, run_ensureIndexDiskHeadroom,
    run_loadSnapshot, run_fromDirectory]
  rw [run_bind] at hrun
  rw [World.oldMerkle] at hrun
  rcases hbeside : run (World.handle env)
    (refillBeside (w.snapshot.map FileSystemMerkle.ofSnapshot)) w with ⟨e₁ | u, w₁⟩
  · rw [hbeside] at hrun
    exact hrun
  · rw [hbeside] at hrun
    simp only [hrun]

/-- **What a completed run has done.** -/
theorem runDone_of_ok {exclusion : ReaderExclusion} {stats : IndexStats} {w' : World D}
    (hpending : w.bm25.pending = [])
    (hrun : run (World.handle env) (indexWithChangeDetectionExcluding env exclusion) w =
      (.ok stats, w')) : RunDone env w w' stats := by
  by_cases hkeyed : w.NeedsRefill → w.RowsKeyed
  · obtain ⟨stats₁, w₁, hrun₁, hdone⟩ := @run_indexWithChangeDetectionExcluding _ _ env w exclusion
      hpending hkeyed
    rw [hrun] at hrun₁
    cases hrun₁
    exact hdone
  · rw [Classical.not_imp] at hkeyed
    obtain ⟨e, w₁, herror⟩ := @run_indexWithChangeDetectionExcluding_error _ _ env w exclusion
      hkeyed.1 hkeyed.2
    rw [hrun] at herror
    cases herror

end Whole

/-! ### What the vector table holds after a run -/

section Vectors

variable {w w' : World D} {stats : IndexStats} {path : PathBuf}

omit [DecidableEq D] in
theorem bodiesAt_eq_of_entry {w₂ : World D} (h : w₂.rowsAt path = w.rowsAt path) :
    w₂.bodiesAt path = w.bodiesAt path := by
  rw [World.bodiesAt, World.bodiesAt, h]

omit [DecidableEq D] in
/-- A rewritten path holds what it should. -/
theorem World.RewrittenEntry.upToDate (htree : w'.tree = w.tree)
    (h : w.RewrittenEntry env path (w'.entry path)) : w'.UpToDate env path := by
  unfold World.RewrittenEntry at h
  rw [World.UpToDate, htree]
  have hbodies : w'.bodiesAt path = (w'.entry path).rows.map fun row ↦ row.chunk.body := rfl
  rcases hfile : w.tree.lookup path with - | file
  · simp only [hfile] at h
    simp [hbodies, h]
  · rcases hchunks : env.chunksOf path file with - | ⟨text, bodies⟩
    · simp only [hfile, hchunks] at h
      simp [hbodies, h.2, Env.expected_of_chunksOf_eq_none hchunks]
    · simp only [hfile, hchunks] at h
      obtain ⟨next, hentry⟩ := h
      rw [hbodies, hentry, map_body_freshEntry, Env.expected_of_chunksOf hchunks]

namespace RunDone

/-- A path that is not rewritten keeps its rows. -/
theorem rowsAt_of_not_rewritten (h : RunDone env w w' stats) (hpath : ¬ w.Rewritten env path) :
    w'.rowsAt path = w.rowsAt path := by
  have hrows : w'.rowsAt path = (w.broughtUp env).rowsAt path :=
    congrArg Entry.rows (h.kept path hpath)
  rw [hrows, World.rowsAt_broughtUp]

/-- **Which paths a run leaves up to date**: those that were, and those it rewrites. -/
theorem upToDate_iff (h : RunDone env w w' stats) :
    w'.UpToDate env path ↔ w.UpToDate env path ∨ w.Rewritten env path := by
  by_cases hpath : w.Rewritten env path
  · exact iff_of_true ((h.rewritten path hpath).upToDate h.tree) (Or.inr hpath)
  · rw [World.UpToDate, World.UpToDate, h.tree,
      bodiesAt_eq_of_entry (h.rowsAt_of_not_rewritten hpath)]
    simp [hpath]

/-- A run keys the rows it writes. -/
theorem rowsKeyed (h : RunDone env w w' stats) (hkeyed : w.RowsKeyed) : w'.RowsKeyed := by
  intro row hrow
  have hat : row ∈ w'.rowsAt row.filePath := List.mem_filter.2 ⟨hrow, by simp⟩
  by_cases hpath : w.Rewritten env row.filePath
  · have hentry := h.rewritten _ hpath
    have hrows : w'.rowsAt row.filePath = (w'.entry row.filePath).rows := rfl
    unfold World.RewrittenEntry at hentry
    split at hentry
    · simp [hrows, hentry] at hat
    · split at hentry
      · obtain ⟨next, hentry⟩ := hentry
        rw [hrows, hentry] at hat
        exact PreparedFile.keyed_of_mem_rows row hat
      · simp [hrows, hentry.2] at hat
  · rw [h.rowsAt_of_not_rewritten hpath] at hat
    exact hkeyed row (List.mem_of_mem_filter hat)

/-- A path on the retry list is not rewritten. -/
theorem not_rewritten_of_retry (h : RunDone env w w' stats) (hretry : path ∈ stats.retryFiles) :
    ¬ w.Rewritten env path := by
  obtain ⟨file, hfile, hprocesses, hchunks⟩ := h.retry path hretry
  unfold World.Rewritten
  split
  · simp [World.RewrittenSince, hfile, hprocesses, hchunks]
  · simp [World.RewrittenByPass, hfile, hchunks]

end RunDone

end Vectors

end RustCodeMcp
