import RustCodeMcp.Indexing.PrepareRuns
import RustCodeMcp.Indexing.Retries

/-!
# Freshness without hashing everything

`detectDiskChanges` compares a snapshot with the disk as it is now. It walks the files the indexer
walks, looks at the time of modification of each, and reads only the files whose time moved.
`fromDirectory` followed by a comparison path by path answers the same question by reading every
file. They agree whenever the slow way answers at all (`detectDiskChanges_exact`): a file that
cannot be read ends the slow one, while the fast one says that the file changed, unless its time
tells otherwise.

**Times can lie**: a file may be changed and given its recorded time again, and then the probe does
not read it. `TimesTell` is that no file does so. The order in which the hash map is gone through
makes no difference to what is reported, only to the order of the report.

The two programs are run over one disk (`Disk`), which answers their calls and does not change.
-/

namespace RustCodeMcp

open Effect

variable {D : Type}

/-! ### What is on disk -/

/-- What the file system answers about a project. -/
structure Disk where
  /-- The files a walk finds. -/
  files : List PathBuf
  /-- A walk meets every file once. -/
  nodup : files.Nodup
  /-- How many entries the walk cannot read. -/
  walkErrors : ℕ
  /-- What reading a file answers. -/
  read : PathBuf → Except String ByteArray
  /-- What a stat of a file answers. -/
  metadata : PathBuf → Except String Metadata

namespace Disk

/-- Answer the calls that look at the disk. The others find nothing behind them. -/
def handle (disk : Disk) : Handler String (Call.Ret (D := D)) Unit
  | .walk, s => (.ok (disk.files, disk.walkErrors), s)
  | .read path, s => (disk.read path, s)
  | .metadata path, s => (disk.metadata path, s)
  | _, s => (.error "not a call on the disk", s)

/-- Reading and a stat both succeed. -/
def Reads (disk : Disk) (path : PathBuf) : Prop :=
  ∃ content metadata, disk.read path = .ok content ∧ disk.metadata path = .ok metadata

/-- The stat of a file shows the time that a node records. -/
def ShowsTime (disk : Disk) (path : PathBuf) (node : FileNode D) : Prop :=
  ∃ metadata, disk.metadata path = .ok metadata ∧ metadata.modified = node.lastModified

/-- Reading a file yields the content that a node records. -/
def ShowsHash (disk : Disk) (env : Env D) (path : PathBuf) (node : FileNode D) : Prop :=
  ∃ content, disk.read path = .ok content ∧ env.sha256 content = node.contentHash

/-- The hash of a file of the walk. -/
def hash (disk : Disk) (env : Env D) (path : PathBuf) : Option D :=
  if path ∈ disk.files then (disk.read path).toOption.map env.sha256 else none

end Disk

/-! ### The probe -/

variable [DecidableEq D]

/-- Whether a stat shows the time that a node records; one that fails proves nothing. -/
def FileNode.stampUnchanged (node : FileNode D) : Except String Metadata → Bool
  | .ok metadata => decide (metadata.modified = node.lastModified)
  | .error _ => false

/-- Whether a file that was read has the content that a node records. -/
def FileNode.hashUnchanged (env : Env D) (node : FileNode D) : Except String ByteArray → Bool
  | .ok content => decide (env.sha256 content = node.contentHash)
  | .error _ => false

/-- What a probe has found so far. -/
structure Probe where
  /-- Files the snapshot does not have. -/
  added : List PathBuf
  /-- Files whose content moved away from the snapshot, or cannot be read. -/
  modified : List PathBuf
  /-- Every file of the walk. -/
  onDisk : List PathBuf

/-- Compare one file of the walk with a snapshot. -/
def probeFile (env : Env D) (merkle : FileSystemMerkle D) (probe : Probe) (path : PathBuf) :
    Task D Probe :=
  let met := { probe with onDisk := probe.onDisk ++ [path] }
  match merkle.fileToNode.lookup path with
  | none => pure { met with added := met.added ++ [path] }
  | some node => do
    -- An untouched time means untouched content.
    let metadata ← (fsMetadata path).attempt
    if node.stampUnchanged metadata then pure met
    else do
      let content ← (fsRead path).attempt
      pure (if node.hashUnchanged env content then met
        else { met with modified := met.modified ++ [path] })

/-- Compare a snapshot with what is on disk right now. -/
def detectDiskChanges (env : Env D) (merkle : FileSystemMerkle D) : Task D ChangeSet := do
  let (files, _) ← collectProjectRustFiles
  let probe ← files.foldlM (probeFile env merkle) ⟨[], [], []⟩
  let deleted := (env.hashOrder merkle.fileToNode.keys).filter (· ∉ probe.onDisk)
  pure ⟨sortPaths probe.added, sortPaths probe.modified, sortPaths deleted⟩

/-! ### What the probe finds -/

section Probing

variable {disk : Disk} {env : Env D} {merkle : FileSystemMerkle D} {path : PathBuf}

/-- Whether a file counts as unchanged. -/
def Disk.unchanged (disk : Disk) (env : Env D) (path : PathBuf) (node : FileNode D) : Bool :=
  node.stampUnchanged (disk.metadata path) || node.hashUnchanged env (disk.read path)

omit [DecidableEq D] in
theorem stampUnchanged_iff {node : FileNode D} :
    node.stampUnchanged (disk.metadata path) = true ↔ disk.ShowsTime path node := by
  rw [Disk.ShowsTime]
  rcases disk.metadata path with e | metadata <;> simp [FileNode.stampUnchanged]

theorem hashUnchanged_iff {node : FileNode D} :
    node.hashUnchanged env (disk.read path) = true ↔ disk.ShowsHash env path node := by
  rw [Disk.ShowsHash]
  rcases disk.read path with e | content <;> simp [FileNode.hashUnchanged]

/-- Whether the probe reports a file of the walk as modified. -/
def Disk.reported (disk : Disk) (env : Env D) (merkle : FileSystemMerkle D) (path : PathBuf) :
    Bool :=
  (merkle.fileToNode.lookup path).any fun node ↦ !disk.unchanged env path node

theorem run_probeFile {probe : Probe} :
    run disk.handle (probeFile env merkle probe path) () =
      (.ok { added := probe.added ++ [path].filter fun path ↦ path ∉ merkle.fileToNode
             modified := probe.modified ++ [path].filter (disk.reported env merkle)
             onDisk := probe.onDisk ++ [path] }, ()) := by
  rcases hnode : merkle.fileToNode.lookup path with - | node
  · have hmem : path ∉ merkle.fileToNode := AList.lookup_eq_none.1 hnode
    simp [probeFile, hnode, hmem, Disk.reported]
  · have hmem : path ∈ merkle.fileToNode := AList.lookup_isSome.1 (hnode ▸ rfl)
    simp only [probeFile, hnode, run_bind, run_attempt, fsMetadata, request, run_perform,
      Disk.handle]
    rcases hstamp : node.stampUnchanged (disk.metadata path) with - | -
    · rcases hhash : node.hashUnchanged env (disk.read path) with - | - <;>
        simp [run_bind, fsRead, request, Disk.handle, hmem, Disk.reported, hnode, Disk.unchanged,
          hstamp, hhash]
    · simp [hmem, Disk.reported, hnode, Disk.unchanged, hstamp]

theorem run_probeFiles (files : List PathBuf) (probe : Probe) :
    run disk.handle (files.foldlM (probeFile env merkle) probe) () =
      (.ok { added := probe.added ++ files.filter fun path ↦ path ∉ merkle.fileToNode
             modified := probe.modified ++ files.filter (disk.reported env merkle)
             onDisk := probe.onDisk ++ files }, ()) := by
  induction files generalizing probe with
  | nil => simp
  | cons path rest ih =>
    rw [List.foldlM_cons, run_bind, run_probeFile]
    show run disk.handle (rest.foldlM _ _) () = _
    rw [ih, List.append_assoc, List.append_assoc, List.append_assoc, ← List.filter_append,
      ← List.filter_append]
    rfl

/-- **The probe always answers**, and with these paths. -/
theorem run_detectDiskChanges :
    run disk.handle (detectDiskChanges env merkle) () =
      (.ok { added := sortPaths (disk.files.filter fun path ↦ path ∉ merkle.fileToNode)
             modified := sortPaths (disk.files.filter (disk.reported env merkle))
             deleted := sortPaths
              ((env.hashOrder merkle.fileToNode.keys).filter (· ∉ disk.files)) }, ()) := by
  simp only [detectDiskChanges, collectProjectRustFiles, request, run_bind, run_perform,
    Disk.handle, run_probeFiles, List.nil_append, run_pure]

end Probing

/-! ### What the slow builder finds -/

section Building

variable {disk : Disk} {env : Env D}

/-- A Merkle tree with one more file of the disk. -/
def Disk.hashFile (disk : Disk) (env : Env D) (merkle : FileSystemMerkle D) (path : PathBuf) :
    FileSystemMerkle D :=
  match disk.read path, disk.metadata path with
  | .ok content, .ok metadata =>
    { merkle with
      tree := merkle.tree ++ [env.sha256 content]
      fileToNode := merkle.fileToNode.insert path
        ⟨env.sha256 content, merkle.tree.length, metadata.modified⟩ }
  | _, _ => merkle

omit [DecidableEq D] in
theorem run_hashFiles (files : List PathBuf) (start : FileSystemMerkle D) :
    ((∀ path ∈ files, disk.Reads path) →
      run disk.handle (files.foldlM (hashNext env) start) () =
        (.ok (files.foldl (disk.hashFile env) start), ())) ∧
    ((∃ path ∈ files, ¬ disk.Reads path) →
      ∃ e, run disk.handle (files.foldlM (hashNext env) start) () = (.error e, ())) := by
  induction files generalizing start with
  | nil => exact ⟨fun _ ↦ rfl, fun ⟨_, h, _⟩ ↦ absurd h List.not_mem_nil⟩
  | cons path rest ih =>
    rcases hread : disk.read path with e | content
    · have hnot : ¬ disk.Reads path := by
        rintro ⟨content, metadata, h, -⟩
        rw [hread] at h
        cases h
      refine ⟨fun h ↦ absurd (h path List.mem_cons_self) hnot, fun _ ↦ ⟨e, ?_⟩⟩
      simp [hashNext, run_bind, fsRead, request, Disk.handle, hread]
    rcases hmetadata : disk.metadata path with e | metadata
    · have hnot : ¬ disk.Reads path := by
        rintro ⟨content, metadata, -, h⟩
        rw [hmetadata] at h
        cases h
      refine ⟨fun h ↦ absurd (h path List.mem_cons_self) hnot, fun _ ↦ ⟨e, ?_⟩⟩
      simp [hashNext, run_bind, fsRead, fsMetadata, request, Disk.handle, hread, hmetadata]
    have hreads : disk.Reads path := ⟨content, metadata, hread, hmetadata⟩
    have hstep : disk.hashFile env start path =
        { start with
          tree := start.tree ++ [env.sha256 content]
          fileToNode := start.fileToNode.insert path
            ⟨env.sha256 content, start.tree.length, metadata.modified⟩ } := by
      simp only [Disk.hashFile, hread, hmetadata]
    simp only [List.foldlM_cons, List.foldl_cons, hashNext, run_bind, fsRead, fsMetadata, request,
      run_perform, Disk.handle, hread, hmetadata, run_pure, hstep]
    refine ⟨fun h ↦ (ih _).1 fun p hp ↦ h p (List.mem_cons_of_mem _ hp), ?_⟩
    rintro ⟨p, hp, hnot⟩
    rcases List.mem_cons.1 hp with rfl | hp
    · exact absurd hreads hnot
    · exact (ih _).2 ⟨p, hp, hnot⟩

omit [DecidableEq D] in
theorem hashOf_hashFiles {path : PathBuf} (files : List PathBuf) (start : FileSystemMerkle D)
    (hreads : ∀ path ∈ files, disk.Reads path) :
    (files.foldl (disk.hashFile env) start).hashOf path =
      if path ∈ files then (disk.read path).toOption.map env.sha256 else start.hashOf path := by
  induction files generalizing start with
  | nil => rfl
  | cons first rest ih =>
    obtain ⟨content, metadata, hread, hmetadata⟩ := hreads first List.mem_cons_self
    rw [List.foldl_cons, ih _ fun p hp ↦ hreads p (List.mem_cons_of_mem _ hp)]
    by_cases hrest : path ∈ rest
    · simp [hrest]
    · by_cases hfirst : path = first
      · subst hfirst
        simp [hrest, Disk.hashFile, hread, hmetadata, FileSystemMerkle.hashOf, Except.toOption]
      · simp [hrest, hfirst, Disk.hashFile, hread, hmetadata, FileSystemMerkle.hashOf]

omit [DecidableEq D] in
/-- **A tree is built exactly when every file of the walk can be read**, and then it has the hash of
every file. -/
theorem run_fromDirectory_disk :
    ((∃ tree, run disk.handle (fromDirectory env) () = (.ok tree, ())) ↔
      ∀ path ∈ disk.files, disk.Reads path) ∧
    ∀ tree, run disk.handle (fromDirectory env) () = (.ok tree, ()) →
      ∀ path, tree.hashOf path = disk.hash env path := by
  have hrun : run disk.handle (fromDirectory env) () =
      run disk.handle ((sortPaths disk.files).foldlM (hashNext env) ⟨[], ∅, 1⟩) () := rfl
  obtain ⟨hok, herror⟩ := @run_hashFiles D disk env (sortPaths disk.files) ⟨[], ∅, 1⟩
  by_cases hreads : ∀ path ∈ disk.files, disk.Reads path
  · have hsorted : ∀ path ∈ sortPaths disk.files, disk.Reads path := fun path hpath ↦
      hreads path (World.mem_sortPaths.1 hpath)
    rw [hrun, hok hsorted]
    refine ⟨iff_of_true ⟨_, rfl⟩ hreads, ?_⟩
    rintro tree ⟨⟩ path
    rw [hashOf_hashFiles _ _ hsorted, Disk.hash]
    simp only [World.mem_sortPaths]
    rfl
  · obtain ⟨path, hpath, hnot⟩ : ∃ path ∈ disk.files, ¬ disk.Reads path := by
      simpa using hreads
    obtain ⟨e, he⟩ := herror ⟨path, World.mem_sortPaths.2 hpath, hnot⟩
    rw [hrun, he]
    refine ⟨iff_of_false ?_ hreads, fun _ h ↦ by cases h⟩
    rintro ⟨_, h⟩
    cases h

end Building

/-! ### The two agree -/

section Agreement

variable {disk : Disk} {env : Env D} {snapshot : FileSystemMerkle D}

/-- A file whose time is the recorded one has the recorded content. -/
def Disk.TimesTell (disk : Disk) (env : Env D) (snapshot : FileSystemMerkle D) : Prop :=
  ∀ path ∈ disk.files, ∀ node, snapshot.fileToNode.lookup path = some node →
    disk.ShowsTime path node → ∀ content, disk.read path = .ok content →
      env.sha256 content = node.contentHash

/-- Two lists report the same paths. -/
theorem perm_of_mem_iff {l l' : List PathBuf} (hl : l.Nodup) (hl' : l'.Nodup)
    (h : ∀ path, path ∈ l ↔ path ∈ l') : l.Perm l' :=
  (List.perm_ext_iff_of_nodup hl hl').2 h

theorem nodup_sortPaths {l : List PathBuf} (hl : l.Nodup) : (sortPaths l).Nodup :=
  (List.perm_insertionSort _ _).nodup_iff.2 hl

/-- A file that can be read counts as unchanged exactly when its content is the recorded one. -/
theorem reported_iff (htimes : disk.TimesTell env snapshot) {path : PathBuf}
    (hpath : path ∈ disk.files) {content : ByteArray} (hread : disk.read path = .ok content) :
    disk.reported env snapshot path = true ↔
      ∃ node, snapshot.fileToNode.lookup path = some node ∧
        env.sha256 content ≠ node.contentHash := by
  rw [Disk.reported, Option.any_eq_true]
  refine exists_congr fun node ↦ and_congr_right fun hnode ↦ ?_
  rw [Bool.not_eq_true', ← Bool.not_eq_true, Disk.unchanged, Bool.or_eq_true, stampUnchanged_iff,
    hashUnchanged_iff]
  have hshows : disk.ShowsHash env path node ↔ env.sha256 content = node.contentHash := by
    simp [Disk.ShowsHash, hread]
  rw [hshows, not_or]
  exact ⟨And.right, fun hne ↦ ⟨fun htime ↦ hne (htimes path hpath node hnode htime content hread),
    hne⟩⟩

omit [DecidableEq D] in
/-- The paths the snapshot has and the walk does not are gone. -/
theorem hash_eq_none (hreads : ∀ path ∈ disk.files, disk.Reads path) {path : PathBuf} :
    disk.hash env path = none ↔ path ∉ disk.files := by
  by_cases hpath : path ∈ disk.files
  · obtain ⟨content, -, hread, -⟩ := hreads path hpath
    simp [Disk.hash, hpath, hread, Except.toOption]
  · simp [Disk.hash, hpath]

/-- **The probe and the slow comparison report the same paths whenever a tree can be built**, which
is when every file of the walk can be read. The probe answers in any case: of a tracked file that
cannot be read it says that it was modified, unless its time is the recorded one. -/
theorem detectDiskChanges_exact (disk : Disk) (env : Env D) (snapshot : FileSystemMerkle D)
    (htimes : disk.TimesTell env snapshot) :
    ∃ changes, run disk.handle (detectDiskChanges env snapshot) () = (.ok changes, ()) ∧
      (∀ tree, run disk.handle (fromDirectory env) () = (.ok tree, ()) →
        changes.added.Perm (tree.pathChanges env.hashOrder snapshot).added ∧
        changes.modified.Perm (tree.pathChanges env.hashOrder snapshot).modified ∧
        changes.deleted.Perm (tree.pathChanges env.hashOrder snapshot).deleted) ∧
      ((∃ tree, run disk.handle (fromDirectory env) () = (.ok tree, ())) ↔
        ∀ path ∈ disk.files, disk.Reads path) ∧
      ∀ path ∈ disk.files, (∀ content, disk.read path ≠ .ok content) →
        (path ∈ changes.modified ↔ ∃ node, snapshot.fileToNode.lookup path = some node ∧
          ¬ disk.ShowsTime path node) := by
  refine ⟨_, run_detectDiskChanges, fun tree htree ↦ ?_, run_fromDirectory_disk.1,
    fun path hpath hread ↦ ?_⟩
  · have hreads := run_fromDirectory_disk.1.1 ⟨tree, htree⟩
    have hhash := run_fromDirectory_disk.2 tree htree
    have horder := env.hashOrder_perm
    have htracked : ∀ path, path ∉ snapshot.fileToNode ↔ snapshot.hashOf path = none := fun _ ↦
      FileSystemMerkle.hashOf_eq_none.symm
    have hkeys : ∀ keys : List PathBuf, keys.Nodup → (env.hashOrder keys).Nodup := fun keys h ↦
      (horder keys).nodup_iff.2 h
    refine ⟨perm_of_mem_iff (nodup_sortPaths (disk.nodup.filter _))
      ((hkeys _ (AList.keys_nodup _)).filter _) fun path ↦ ?_,
      perm_of_mem_iff (nodup_sortPaths (disk.nodup.filter _))
      ((hkeys _ (AList.keys_nodup _)).filter _) fun path ↦ ?_,
      perm_of_mem_iff (nodup_sortPaths ((hkeys _ (AList.keys_nodup _)).filter _))
      ((hkeys _ (AList.keys_nodup _)).filter _) fun path ↦ ?_⟩
    · rw [FileSystemMerkle.mem_pathChanges_added horder, hhash, World.mem_sortPaths,
        List.mem_filter, decide_eq_true_iff, htracked, Option.isSome_iff_ne_none, Ne,
        hash_eq_none hreads, not_not]
    · rw [FileSystemMerkle.mem_pathChanges_modified horder, hhash, World.mem_sortPaths,
        List.mem_filter]
      by_cases hpath : path ∈ disk.files
      · obtain ⟨content, -, hread, -⟩ := hreads path hpath
        rw [reported_iff htimes hpath hread]
        simp [hpath, Disk.hash, hread, Except.toOption, FileSystemMerkle.hashOf]
      · simp [hpath, Disk.hash]
    · rw [FileSystemMerkle.mem_pathChanges_deleted horder, hhash, World.mem_sortPaths,
        List.mem_filter, (horder _).mem_iff, decide_eq_true_iff, hash_eq_none hreads,
        FileSystemMerkle.isSome_hashOf, AList.mem_keys, and_comm]
  · rw [World.mem_sortPaths, List.mem_filter, Disk.reported, Option.any_eq_true]
    refine (and_iff_right hpath).trans (exists_congr fun node ↦ and_congr_right fun _ ↦ ?_)
    -- What cannot be read shows no content.
    have hshows : ¬ disk.ShowsHash env path node := by
      rintro ⟨content, h, -⟩
      exact hread content h
    rw [Bool.not_eq_true', ← Bool.not_eq_true, Disk.unchanged, Bool.or_eq_true, stampUnchanged_iff,
      hashUnchanged_iff, not_or, and_iff_left hshows]

/-- A snapshot of a file that cannot be read any more. -/
def unreadable : Disk where
  files := [["a.rs"]]
  nodup := by decide
  walkErrors := 0
  read _ := .error "Permission denied (os error 13)"
  metadata _ := .ok ⟨2, 0⟩

/-- A snapshot of one file. -/
def recordedFile : FileSystemMerkle ByteArray :=
  .fromNodes (AList.singleton ["a.rs"] ⟨⟨#[]⟩, 0, 1⟩) 1

/-- A tree with a file that cannot be read is not built, and the probe reports the file. -/
theorem not_built_unreadable :
    unreadable.TimesTell Env.sample recordedFile ∧
      (run unreadable.handle (detectDiskChanges Env.sample recordedFile) ()).1 =
        .ok ⟨[], [["a.rs"]], []⟩ ∧
      ¬ ∃ tree, run unreadable.handle (fromDirectory Env.sample) () = (.ok tree, ()) := by
  refine ⟨fun path _ node _ _ content h ↦ (by cases h), ?_, ?_⟩
  · rw [run_detectDiskChanges]
    rfl
  · rw [run_fromDirectory_disk.1]
    intro h
    obtain ⟨content, -, hread, -⟩ := h ["a.rs"] List.mem_cons_self
    cases hread

/-- A snapshot of two files. -/
def recordedFiles : FileSystemMerkle ByteArray :=
  .fromNodes ((AList.singleton ["b.rs"] ⟨⟨#[]⟩, 0, 1⟩).insert ["a.rs"] ⟨⟨#[]⟩, 0, 1⟩) 1

/-- A disk on which one of them was edited later, and the other has the time on record. -/
def edited : Disk where
  files := [["a.rs"], ["b.rs"]]
  nodup := by decide
  walkErrors := 0
  read path := .ok (if path = ["a.rs"] then ⟨#[1]⟩ else ⟨#[]⟩)
  metadata path := .ok ⟨if path = ["a.rs"] then 2 else 1, 0⟩

/-- The time of the edited file is not the one on record; that of the other one is, and so is its
content. -/
theorem timesTell_edited : edited.TimesTell Env.sample recordedFiles := by
  rintro path hpath node hnode ⟨metadata, hmetadata, htime⟩ content hread
  obtain rfl | hpath := List.mem_cons.1 hpath
  · cases hmetadata
    rw [show recordedFiles.fileToNode.lookup ["a.rs"] = some ⟨⟨#[]⟩, 0, 1⟩ from rfl] at hnode
    cases hnode
    cases htime
  · obtain rfl := List.mem_singleton.1 hpath
    cases hread
    rw [show recordedFiles.fileToNode.lookup ["b.rs"] = some ⟨⟨#[]⟩, 1, 1⟩ from rfl] at hnode
    cases hnode
    rfl

theorem detectDiskChanges_exact_edited :
    edited.TimesTell Env.sample recordedFiles ∧
      ∃ changes, run edited.handle (detectDiskChanges Env.sample recordedFiles) () =
        (.ok changes, ()) ∧
      (∀ tree, run edited.handle (fromDirectory Env.sample) () = (.ok tree, ()) →
        changes.added.Perm (tree.pathChanges Env.sample.hashOrder recordedFiles).added ∧
        changes.modified.Perm (tree.pathChanges Env.sample.hashOrder recordedFiles).modified ∧
        changes.deleted.Perm (tree.pathChanges Env.sample.hashOrder recordedFiles).deleted) ∧
      ∃ tree, run edited.handle (fromDirectory Env.sample) () = (.ok tree, ()) := by
  obtain ⟨changes, hrun, hagree, hbuilt, -⟩ :=
    detectDiskChanges_exact edited Env.sample recordedFiles timesTell_edited
  exact ⟨timesTell_edited, changes, hrun, hagree, hbuilt.2 fun _ _ ↦ ⟨_, _, rfl, rfl⟩⟩

end Agreement

end RustCodeMcp
