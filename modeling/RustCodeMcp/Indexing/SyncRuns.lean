import RustCodeMcp.Indexing.ChangeRuns
import RustCodeMcp.Indexing.RefillRuns

/-!
# Runs of the incremental update

What an incremental update does to every path, when its surroundings carry every call out:
`Synced` says of each path that it was rewritten to hold what its file has to say, or left as it was
once the stores were up.

The proof has two halves. What is reported is read off the two trees (`Reports`), by the hashes of
each path; and what the loop makes of a reported path is read off its file (`entry_of_loopDone`).
Together they give every path its outcome from the world before the run, without a word on the order
in which the paths were dealt with.

The results, from the inside out:

* `entry_of_loopDone`: a loop over the reported changes rewrites what a run has to rewrite, and
  nothing else;
* `run_processChanges`: so does processing the changes, with its writes and its commit;
* `run_incrementalUpdate`: and so does the whole update, which looks for the changes first.
-/

namespace RustCodeMcp

open Effect

variable {D : Type} {env : Env D}

/-! ### What a run leaves -/

namespace World

variable (env) (w : World D)

/-- What a rewritten path holds: nothing, for a file that is gone; its chunks, for a file to index;
only its record, for a file not to process. -/
def RewrittenEntry (path : PathBuf) (e : Entry D) : Prop :=
  match w.tree.lookup path with
  | none => e = ⟨[], [], none⟩
  | some file =>
    match env.chunksOf path file with
    | some (text, bodies) => ∃ next, e = freshEntry env next path file text bodies
    | none => env.processes path file = false ∧ e = ⟨[], [], w.cache.lookup path⟩

end World

/-- A run has synchronised the stores: it rewrote the paths it had to rewrite, left the others
alone, and asks for the retry of none but files that could not be cut into chunks. -/
structure Synced (env : Env D) (Rewrites : PathBuf → Prop) (w w' : World D) (stats : IndexStats) :
    Prop where
  tree : w'.tree = w.tree
  walkErrors : w'.walkErrors = w.walkErrors
  snapshot : w'.snapshot = w.snapshot
  pending : w'.bm25.pending = []
  retry : ∀ path ∈ stats.retryFiles, w.Unindexable env path
  rewritten : ∀ path, Rewrites path → w.RewrittenEntry env path (w'.entry path)
  kept : ∀ path, ¬ Rewrites path → w'.entry path = (w.broughtUp env).entry path

/-! ### Committing -/

section Commit

variable {w : World D}

/-- Letting the readers in again changes nothing that is held. -/
theorem run_admitAfter {α : Type} {exclusion : ReaderExclusion} {task : Task D α} {a : α}
    {w' : World D} (h : run (World.handle env) task w = (.ok a, w')) :
    ∃ readersOut, run (World.handle env) (exclusion.admitAfter task) w =
      (.ok a, { w' with readersOut }) := by
  rcases exclusion with - | -
  · exact ⟨w'.readersOut, by simp [ReaderExclusion.admitAfter, run_bind, h, ReaderExclusion.admit]⟩
  · exact ⟨false, by simp [ReaderExclusion.admitAfter, run_bind, h, ReaderExclusion.admit]⟩

theorem run_admitAfter_error {α : Type} {exclusion : ReaderExclusion} {task : Task D α} {e : String}
    {w' : World D} (h : run (World.handle env) task w = (.error e, w')) :
    ∃ readersOut, run (World.handle env) (exclusion.admitAfter task) w =
      (.error e, { w' with readersOut }) := by
  rcases exclusion with - | -
  · exact ⟨w'.readersOut, by simp [ReaderExclusion.admitAfter, run_bind, h, ReaderExclusion.admit]⟩
  · exact ⟨false, by simp [ReaderExclusion.admitAfter, run_bind, h, ReaderExclusion.admit]⟩

end Commit

/-! ### Processing changes -/

section Changes

variable [DecidableEq D] {w : World D} {old : FileSystemMerkle D} {path : PathBuf}

/-- The outcome for a reported file of the tree, in terms of what a run rewrites. -/
theorem rewritten_of_prepared {consult : Bool} {e : Entry D}
    (hroot : w.RootChanged env old) (hhash : w.newHash env path ≠ old.hashOf path)
    (hconsult : consult = (old.hashOf path).isNone) (h : w.Prepared env consult path e) :
    (w.RewrittenSince env old path → w.RewrittenEntry env path e) ∧
      (¬ w.RewrittenSince env old path → e = w.entry path) := by
  cases h with
  | fresh next hfile hchunks hdescribed he =>
    refine ⟨fun _ ↦ ?_, fun h ↦ absurd ⟨hroot, hhash, ?_⟩ h⟩
    · simp only [World.RewrittenEntry, hfile, hchunks]
      exact ⟨next, he⟩
    · simp [hfile, hchunks, hdescribed]
  | cleared hfile hprocesses hcleared he =>
    have hchunks := Env.chunksOf_eq_none_of_not_processes hprocesses
    refine ⟨fun _ ↦ ?_, fun h ↦ absurd ⟨hroot, hhash, ?_⟩ h⟩
    · simp only [World.RewrittenEntry, hfile, hchunks]
      exact ⟨hprocesses, he⟩
    · have hold : (old.hashOf path).isSome := by
        rw [← Option.not_isNone, ← hconsult, hcleared]
        rfl
      simp [hfile, hprocesses, hold]
  | kept hfile hleft he =>
    refine ⟨fun ⟨_, _, h⟩ ↦ ?_, fun _ ↦ he⟩
    simp only [hfile] at h
    rcases hleft with ⟨hprocesses, rfl⟩ | ⟨hprocesses, hleft⟩
    · have hchunks := Env.chunksOf_eq_none_of_not_processes hprocesses
      rcases h with ⟨hold, -⟩ | ⟨hsome, -⟩
      · rw [Option.isNone_iff_eq_none.1 hconsult.symm] at hold
        simp at hold
      · simp [hchunks] at hsome
    · rcases hleft with hchunks | hdescribed
      · simp [hprocesses, hchunks] at h
      · simp [hprocesses, hdescribed] at h

omit [DecidableEq D] in
theorem newHash_broughtUp : (w.broughtUp env).newHash env path = w.newHash env path := by
  unfold World.broughtUp; split <;> rfl

omit [DecidableEq D] in
theorem rewrittenEntry_broughtUp {e : Entry D} :
    (w.broughtUp env).RewrittenEntry env path e ↔ w.RewrittenEntry env path e := by
  unfold World.broughtUp; split <;> exact Iff.rfl

theorem rewrittenSince_broughtUp :
    (w.broughtUp env).RewrittenSince env old path ↔ w.RewrittenSince env old path := by
  unfold World.broughtUp; split <;> exact Iff.rfl

theorem rootChanged_broughtUp :
    (w.broughtUp env).RootChanged env old ↔ w.RootChanged env old := by
  unfold World.broughtUp; split <;> exact Iff.rfl

/-- The reported changes are the differences between the two trees. -/
structure Reports (env : Env D) (w : World D) (old : FileSystemMerkle D) (changes : ChangeSet) :
    Prop where
  added : ∀ {path}, path ∈ changes.added ↔
    (w.newHash env path).isSome ∧ old.hashOf path = none
  modified : ∀ {path}, path ∈ changes.modified ↔
    ∃ h h', w.newHash env path = some h ∧ old.hashOf path = some h' ∧ h ≠ h'
  deleted : ∀ {path}, path ∈ changes.deleted ↔
    w.newHash env path = none ∧ (old.hashOf path).isSome
  nodup : (changes.deleted ++ (changes.modified ++ changes.added)).Nodup

/-- With different roots, the comparison path by path reports the differences. -/
theorem reports_detectChanges (hroot : w.RootChanged env old) :
    Reports env w old ((w.merkle env).detectChanges env.combine env.hashOrder old) where
  added := fun {path} ↦ by
    rw [FileSystemMerkle.mem_added env.hashOrder_perm hroot, World.hashOf_merkle]
  modified := fun {path} ↦ by
    rw [FileSystemMerkle.mem_modified env.hashOrder_perm hroot, World.hashOf_merkle]
  deleted := fun {path} ↦ by
    rw [FileSystemMerkle.mem_deleted env.hashOrder_perm hroot, World.hashOf_merkle]
  nodup := FileSystemMerkle.nodup_changes env.hashOrder_perm

/-- To be prepared are the modified and the added paths. -/
theorem map_fst_toPrepare {changes : ChangeSet} :
    changes.toPrepare.map Prod.fst = changes.modified ++ changes.added := by
  simp [ChangeSet.toPrepare, Function.comp_def]

namespace Reports

variable {changes : ChangeSet} {path : PathBuf}

omit [DecidableEq D] in
theorem isSome_newHash (h : Reports env w old changes)
    (hpath : path ∈ changes.toPrepare.map Prod.fst) : (w.newHash env path).isSome := by
  rw [map_fst_toPrepare, List.mem_append] at hpath
  rcases hpath with hpath | hpath
  · obtain ⟨_, _, hnew, -⟩ := h.modified.1 hpath
    simp [hnew]
  · exact (h.added.1 hpath).1

omit [DecidableEq D] in
/-- A path whose hash did not change is not reported. -/
theorem not_mem (h : Reports env w old changes) (hhash : w.newHash env path = old.hashOf path) :
    path ∉ changes.deleted ∧ path ∉ changes.toPrepare.map Prod.fst := by
  rw [map_fst_toPrepare, List.mem_append, h.deleted, h.modified, h.added, hhash]
  rcases old.hashOf path with - | hash <;> simp

omit [DecidableEq D] in
/-- A path whose hash changed and that has a file is to be prepared; the cache is consulted if it
was not there before. -/
theorem mem_toPrepare (h : Reports env w old changes) (hnew : (w.newHash env path).isSome)
    (hhash : w.newHash env path ≠ old.hashOf path) :
    (path, (old.hashOf path).isNone) ∈ changes.toPrepare := by
  obtain ⟨hash, hnew⟩ := Option.isSome_iff_exists.1 hnew
  rcases hold : old.hashOf path with - | hash'
  · refine List.mem_append_right _ (List.mem_map.2 ⟨path, h.added.2 ⟨by simp [hnew], hold⟩, rfl⟩)
  · refine List.mem_append_left _ (List.mem_map.2 ⟨path, h.modified.2 ⟨hash, hash', hnew, hold, ?_⟩,
      rfl⟩)
    rintro rfl
    exact hhash (hnew.trans hold.symm)

/-- **A loop over the reported changes rewrites what a run has to rewrite**, and nothing else. -/
theorem entry_of_loopDone {w' : World D} (h : Reports env w old changes)
    (hroot : w.RootChanged env old)
    (hdone : LoopDone env { gone := changes.deleted } changes.toPrepare (w.broughtUp env) w') :
    (w.RewrittenSince env old path → w.RewrittenEntry env path (w'.entry path)) ∧
      (¬ w.RewrittenSince env old path →
        w'.entry path = (w.broughtUp env).entry path) := by
  by_cases hhash : w.newHash env path = old.hashOf path
  · obtain ⟨hdeleted, hprepare⟩ := h.not_mem hhash
    refine ⟨fun hrewritten ↦ absurd hhash hrewritten.2.1, fun _ ↦ hdone.kept path ?_ hprepare⟩
    simpa [PendingWrite.paths, PendingWrite.removed] using hdeleted
  rcases hfile : w.tree.lookup path with - | file
  · have hnew : w.newHash env path = none := by simp [World.newHash, hfile]
    have hold : (old.hashOf path).isSome := by
      rw [← Option.ne_none_iff_isSome]
      exact fun h ↦ hhash (hnew.trans h.symm)
    refine ⟨fun _ ↦ ?_, fun hkept ↦ absurd ⟨hroot, hhash, by simp [hfile]⟩ hkept⟩
    simp only [World.RewrittenEntry, hfile]
    exact hdone.written.gone path (h.deleted.2 ⟨hnew, hold⟩)
  · have hprepared := hdone.prepared path _
      (h.mem_toPrepare (by simp [World.newHash, hfile]) hhash)
    have hresult := rewritten_of_prepared (rootChanged_broughtUp.2 hroot)
      (newHash_broughtUp.trans_ne hhash) rfl hprepared
    rwa [rewrittenSince_broughtUp, rewrittenEntry_broughtUp] at hresult

end Reports

/-- **Processing the reported changes synchronises the stores.** -/
theorem run_processChanges {exclusion : ReaderExclusion} {changes : ChangeSet}
    (hroot : w.RootChanged env old) (hreports : Reports env w old changes)
    (hkeyed : w.NeedsRefill → w.RowsKeyed) :
    ∃ stats w', run (World.handle env) (processChanges env exclusion changes) w =
        (.ok stats, w') ∧
      Synced env (w.RewrittenSince env old) w w' stats := by
  have htree : ∀ p ∈ changes.toPrepare.map Prod.fst,
      ((w.broughtUp env).tree.lookup p).isSome := by
    intro p hp
    simpa [World.newHash] using hreports.isSome_newHash hp
  have hnodup : (PendingWrite.paths { gone := changes.deleted } ++
      changes.toPrepare.map Prod.fst).Nodup := by
    rw [map_fst_toPrepare]
    simpa [PendingWrite.paths, PendingWrite.removed] using hreports.nodup
  obtain ⟨stats, w₁, hrun, hdone, hretry⟩ := @run_prepareAndWrite _ env _ exclusion
    changes.toPrepare { gone := changes.deleted } false {} (w.broughtUp env) htree (by simp) hnodup
  obtain ⟨readersOut, hcommit⟩ := @run_admitAfter _ env w₁ _ exclusion commit () _ run_commit
  refine ⟨{ stats with
      needsMaintenance := decide (0 < stats.indexedFiles) || decide (0 < changes.deleted.length) },
    { w₁ with bm25 := ⟨w₁.bm25.current, []⟩, readersOut }, ?_, ?_⟩
  · rw [processChanges, run_bind_ok (run_ensureIndexer hkeyed),
      run_bind_ok run_ensureIndexDiskHeadroom, run_bind_ok hrun, run_bind_ok hcommit, run_pure]
  · refine ⟨?_, ?_, ?_, rfl, fun p hp ↦ ?_, fun p ↦ ?_, fun p ↦ ?_⟩
    · simpa using hdone.project.tree
    · simpa using hdone.project.walkErrors
    · simpa using hdone.project.snapshot
    · have hunindexable : World.Unindexable env (w.broughtUp env) p :=
          ((hretry p hp).resolve_left (by simp)).2
      simpa [World.Unindexable] using hunindexable
    · exact (hreports.entry_of_loopDone hroot hdone).1
    · exact (hreports.entry_of_loopDone hroot hdone).2

omit [DecidableEq D] in
/-- A run that writes nothing synchronises the stores if it had to rewrite nothing. -/
theorem synced_refl {Rewrites : PathBuf → Prop} {stats : IndexStats}
    (hpending : w.bm25.pending = []) (hretry : stats.retryFiles = [])
    (hrewrites : ∀ path, ¬ Rewrites path)
    (hup : ∀ path, w.entry path = (w.broughtUp env).entry path) :
    Synced env Rewrites w w stats where
  tree := rfl
  walkErrors := rfl
  snapshot := rfl
  pending := hpending
  retry := fun path hpath ↦ by simp [hretry] at hpath
  rewritten := fun path h ↦ absurd h (hrewrites path)
  kept := fun path _ ↦ hup path

omit [DecidableEq D] in
/-- The statistics of a run matter only for what it asks to retry. -/
theorem Synced.congr_stats {Rewrites : PathBuf → Prop} {w' : World D} {stats stats' : IndexStats}
    (h : Synced env Rewrites w w' stats) (hretry : stats'.retryFiles = stats.retryFiles) :
    Synced env Rewrites w w' stats' :=
  { h with retry := fun path hpath ↦ h.retry path (hretry ▸ hpath) }

/-- With nothing reported, nothing is to be rewritten. -/
theorem Reports.not_rewrittenSince {changes : ChangeSet}
    (h : Reports env w old changes) (hempty : changes.isEmpty) :
    ¬ w.RewrittenSince env old path := by
  intro hrewritten
  simp only [ChangeSet.isEmpty, Bool.and_eq_true, List.isEmpty_iff] at hempty
  obtain ⟨⟨hadded, hmodified⟩, hdeleted⟩ := hempty
  rcases hfile : w.tree.lookup path with - | file
  · have hnew : w.newHash env path = none := by simp [World.newHash, hfile]
    have hmem := h.deleted.2 ⟨hnew, Option.ne_none_iff_isSome.1 fun hold ↦
      hrewritten.2.1 (hnew.trans hold.symm)⟩
    simp [hdeleted] at hmem
  · have hmem := h.mem_toPrepare (by simp [World.newHash, hfile]) hrewritten.2.1
    simp [ChangeSet.toPrepare, hadded, hmodified] at hmem

/-- **An incremental update synchronises the stores.** -/
theorem run_incrementalUpdate (exclusion : ReaderExclusion) (hpending : w.bm25.pending = [])
    (hkeyed : w.NeedsRefill → w.RowsKeyed)
    (hup : ∀ path, w.entry path = (w.broughtUp env).entry path) :
    ∃ stats w',
      run (World.handle env) (incrementalUpdate env exclusion old (w.merkle env)) w =
        (.ok stats, w') ∧
      Synced env (w.RewrittenSince env old) w w' stats := by
  rcases hroot : (w.merkle env).hasChanges env.combine old with - | -
  · refine ⟨{ unchangedFiles := (w.merkle env).fileCount, totalFiles := (w.merkle env).fileCount },
      w, by simp [incrementalUpdate, hroot], synced_refl hpending rfl (fun path h ↦ ?_) hup⟩
    have hchanged : (w.merkle env).hasChanges env.combine old = true := h.1
    simp [hroot] at hchanged
  have hreports := reports_detectChanges hroot
  rcases hempty : ((w.merkle env).detectChanges env.combine env.hashOrder old).isEmpty with - | -
  · obtain ⟨stats, w', hrun, hsynced⟩ := @run_processChanges _ env _ _ _ exclusion _ hroot hreports
      hkeyed
    exact ⟨{ stats with totalFiles := (w.merkle env).fileCount }, w',
      by simp [incrementalUpdate, hroot, hempty, run_bind_ok hrun], hsynced.congr_stats rfl⟩
  · exact ⟨{ unchangedFiles := (w.merkle env).fileCount, totalFiles := (w.merkle env).fileCount },
      w, by simp [incrementalUpdate, hroot, hempty],
      synced_refl hpending rfl (fun path ↦ hreports.not_rewrittenSince hempty) hup⟩

end Changes

end RustCodeMcp
