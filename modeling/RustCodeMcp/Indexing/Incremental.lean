import RustCodeMcp.Indexing.Unified

/-!
# Incremental indexing

A run compares the tree with the Merkle snapshot of the last one and indexes what changed: changed
files are prepared one by one, gathered in a `PendingWrite`, and written together. What could not be
written goes on a retry list, and `snapshotWithRetries` keeps these paths at their previous state,
so that the next run finds them changed again. Without a snapshot a run is a full pass.

Readers are kept off the stores as `ReaderExclusion` says.

A write is made when enough rows are pending (`WRITE_BATCH_ROWS`) and once more at the end. Each one
succeeds or fails as a whole as far as the statistics go: after an error all its paths are on the
retry list, though some of them may have been written.

The snapshot is saved last. A run that is cut off before that leaves the old one, so that the next
run compares with what was there before.
-/

namespace RustCodeMcp

open Effect

variable {D : Type}

/-! ### Keeping readers out -/

/-- How a run keeps the workspace's readers off the stores while it writes. -/
inductive ReaderExclusion
  /-- The caller keeps readers out for the whole run, or there are none. -/
  | heldByCaller
  /-- The run takes the lock itself, only around what readers could see half done. -/
  | aroundPublish

/-- Keep the readers out from now on, unless the caller already does. -/
def ReaderExclusion.exclude : ReaderExclusion → Task D Unit
  | heldByCaller => pure ()
  | aroundPublish => excludeReaders

/-- Let the readers back in, if this run kept them out. -/
def ReaderExclusion.admit : ReaderExclusion → Task D Unit
  | heldByCaller => pure ()
  | aroundPublish => admitReaders

/-- Run `task` and let the readers back in however it ends, as dropping the guard does. -/
def ReaderExclusion.admitAfter {α : Type} (exclusion : ReaderExclusion) (task : Task D α) :
    Task D α := do
  let outcome ← task.attempt
  exclusion.admit
  match outcome with
  | .ok a => pure a
  | .error e => .fail e

/-! ### Pending writes -/

/-- Prepared rows a sync holds before writing them out. -/
def WRITE_BATCH_ROWS : ℕ := 20000

/-- The writes a sync has prepared and not yet made. -/
structure PendingWrite where
  /-- Files to write. -/
  files : List PreparedFile := []
  /-- How many rows they have. -/
  rows : ℕ := 0
  /-- Files gone from the tree: their chunks and their cache entry go. -/
  gone : List PathBuf := []
  /-- Modified files the indexer no longer processes: their chunks go. -/
  cleared : List PathBuf := []

/-- The paths whose chunks a write only drops. -/
def PendingWrite.removed (pending : PendingWrite) : List PathBuf :=
  pending.gone ++ pending.cleared

/-- The statistics of a file that was written. -/
def IndexStats.recordWritten (stats : IndexStats) (file : PreparedFile) : IndexStats :=
  if file.chunks.isEmpty then stats.skip
  else { stats with
    indexedFiles := stats.indexedFiles + 1
    totalChunks := stats.totalChunks + file.chunks.length }

/-- Forget a file gone from the tree; a failure has the path retried. -/
def forgetGone (stats : IndexStats) (path : PathBuf) : Task D IndexStats := do
  let outcome ← (forgetFile path).attempt
  match outcome with
  | .ok () => pure stats.skip
  | .error _ => pure (stats.retry path)

/-- Write everything pending in one `writeFiles` and account for it. On failure every file of the
write goes to the retry list. -/
def PendingWrite.flush (env : Env D) (pending : PendingWrite) (stats : IndexStats) :
    Task D IndexStats := do
  let outcome ← (writeFiles env pending.files pending.removed).attempt
  match outcome with
  | .error _ =>
    pure ((pending.files.map PreparedFile.path ++ pending.removed).foldl IndexStats.retry stats)
  | .ok () =>
    let stats := { stats with skippedFiles := stats.skippedFiles + pending.cleared.length }
    pending.gone.foldlM forgetGone (pending.files.foldl IndexStats.recordWritten stats)

/-! ### Processing changes -/

/-- Account for one prepared file: what it adds to the pending write, and to the statistics. -/
def accountPreparation (path : PathBuf) (consultMetadataCache : Bool)
    (outcome : Except String Preparation) (pending : PendingWrite) (stats : IndexStats) :
    PendingWrite × IndexStats :=
  match outcome with
  | .ok (.ready file) =>
    ({ pending with rows := pending.rows + file.chunks.length, files := pending.files ++ [file] },
      stats)
  -- A modified file this indexer no longer processes keeps no chunks; an added one never had any
  -- to drop.
  | .ok .skipped =>
    if consultMetadataCache then (pending, stats.skip)
    else ({ pending with cleared := pending.cleared ++ [path] }, stats)
  | .ok .unchanged => (pending, stats.skip)
  -- Its old chunks stay until the retry: stale results beat none.
  | .error e => (pending, stats.recordError path e)

/-- Called before every write; waits for the readers inside only the first time. -/
def beforeWrite (exclusion : ReaderExclusion) (entered : Bool) : Task D Unit :=
  if entered then pure () else exclusion.exclude

/-- Prepare the changed files in turn, each with whether the metadata cache is consulted for it, and
write whenever enough rows are pending; then write the rest. -/
def prepareAndWrite [DecidableEq D] (env : Env D) (exclusion : ReaderExclusion) :
    List (PathBuf × Bool) → PendingWrite → Bool → IndexStats → Task D IndexStats
  | [], pending, entered, stats => do
    beforeWrite exclusion entered
    pending.flush env stats
  | (path, consultMetadataCache) :: toPrepare, pending, entered, stats => do
    let outcome ← (prepareFile env path consultMetadataCache).attempt
    let (pending, stats) := accountPreparation path consultMetadataCache outcome pending stats
    if WRITE_BATCH_ROWS ≤ pending.rows then do
      beforeWrite exclusion entered
      let stats ← pending.flush env stats
      prepareAndWrite env exclusion toPrepare {} true stats
    else prepareAndWrite env exclusion toPrepare pending entered stats

/-- Modified files are prepared without the metadata cache; added files consult it. -/
def ChangeSet.toPrepare (changes : ChangeSet) : List (PathBuf × Bool) :=
  changes.modified.map (fun path ↦ (path, false)) ++ changes.added.map (fun path ↦ (path, true))

/-- Process detected changes: add, modify, delete. -/
def processChanges [DecidableEq D] (env : Env D) (exclusion : ReaderExclusion)
    (changes : ChangeSet) : Task D IndexStats := do
  ensureIndexer
  ensureIndexDiskHeadroom
  let stats ← prepareAndWrite env exclusion changes.toPrepare { gone := changes.deleted } false {}
  exclusion.admitAfter commit
  pure { stats with
    needsMaintenance := decide (0 < stats.indexedFiles) || decide (0 < changes.deleted.length) }

/-! ### A run -/

/-- Build a Merkle tree from the project's files. -/
def fromDirectory (env : Env D) : Task D (FileSystemMerkle D) := do
  let (files, _) ← collectProjectRustFiles
  let files := sortPaths files
  let start : FileSystemMerkle D := ⟨[], ∅, 1⟩
  files.foldlM (fun (merkle : FileSystemMerkle D) path ↦ do
    let content ← fsRead path
    let hash := env.sha256 content
    let metadata ← fsMetadata path
    -- One hash a file: the hashes so far are as many as the files before this one.
    pure { merkle with
      tree := merkle.tree ++ [hash]
      fileToNode := merkle.fileToNode.insert path ⟨hash, merkle.tree.length, metadata.modified⟩ })
      start

/-- One round of the loop of `fromDirectory`. -/
def hashNext (env : Env D) (merkle : FileSystemMerkle D) (path : PathBuf) :
    Task D (FileSystemMerkle D) := do
  let content ← fsRead path
  let hash := env.sha256 content
  let metadata ← fsMetadata path
  pure { merkle with
    tree := merkle.tree ++ [hash]
    fileToNode := merkle.fileToNode.insert path ⟨hash, merkle.tree.length, metadata.modified⟩ }

/-- Perform incremental update based on Merkle tree comparison. -/
def incrementalUpdate [DecidableEq D] (env : Env D) (exclusion : ReaderExclusion)
    (oldMerkle newMerkle : FileSystemMerkle D) : Task D IndexStats :=
  let unchanged : IndexStats :=
    { unchangedFiles := newMerkle.fileCount, totalFiles := newMerkle.fileCount }
  if !newMerkle.hasChanges env.combine oldMerkle then pure unchanged
  else
    let changes := newMerkle.detectChanges env.combine env.hashOrder oldMerkle
    if changes.isEmpty then pure unchanged
    else do
      let stats ← processChanges env exclusion changes
      pure { stats with totalFiles := newMerkle.fileCount }

/-- The first time: a full pass. It writes as it goes, so the readers stay out for all of it. -/
def fullPass [DecidableEq D] (env : Env D) (exclusion : ReaderExclusion) : Task D IndexStats := do
  exclusion.exclude
  exclusion.admitAfter do
    ensureIndexer
    indexDirectoryParallel env

/-- Refill an empty BM25 index that no indexer is up to refill. Readers are not kept out for it. -/
def refillBeside (oldMerkle : Option (FileSystemMerkle D)) : Task D Unit := do
  let opened ← isOpened
  if oldMerkle.isSome && !opened then do
    let docs ← committedDocCount
    if docs = 0 then do
      let _ ← rebuildBm25FromExistingStore
      pure ()
    else pure ()
  else pure ()

/-- The indexing strategy: compare with the previous tree, or, the first time, a full pass. -/
def strategy [DecidableEq D] (env : Env D) (exclusion : ReaderExclusion)
    (oldMerkle : Option (FileSystemMerkle D)) (newMerkle : FileSystemMerkle D) :
    Task D IndexStats :=
  match oldMerkle with
  | some old => incrementalUpdate env exclusion old newMerkle
  | none => fullPass env exclusion

/-- Index codebase with automatic change detection, keeping the readers out as `exclusion` says. -/
def indexWithChangeDetectionExcluding [DecidableEq D] (env : Env D) (exclusion : ReaderExclusion) :
    Task D IndexStats := do
  ensureIndexDiskHeadroom
  -- Step 1: load the previous snapshot.
  let stored ← loadSnapshot
  let oldMerkle := stored.map FileSystemMerkle.ofSnapshot
  -- Step 2: build the new Merkle tree.
  let newMerkle ← fromDirectory env
  refillBeside oldMerkle
  -- Step 3: determine the indexing strategy.
  let stats ← strategy env exclusion oldMerkle newMerkle
  -- Step 4: commit only the paths whose index writes completed.
  saveSnapshot (newMerkle.snapshotWithRetries oldMerkle stats.retryFiles).toSnapshot
  pure stats

/-- Index codebase with automatic change detection, readers kept out by the caller. -/
def indexWithChangeDetection [DecidableEq D] (env : Env D) : Task D IndexStats :=
  indexWithChangeDetectionExcluding env .heldByCaller

end RustCodeMcp
