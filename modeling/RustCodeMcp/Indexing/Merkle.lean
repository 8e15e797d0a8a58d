import Mathlib.Data.List.AList
import Mathlib.Data.List.Lex
import Mathlib.Data.List.Sort
import Mathlib.Data.String.Basic
import RustCodeMcp.Chunker.Types

/-!
# The Merkle snapshot of a tree

A snapshot maps each file of a project to the hash of its content. Two questions are asked of a
pair of snapshots: `hasChanges`, the fast one, compares the roots of the trees built over the
content hashes in path order; `detectChanges`, the precise one, compares path by path — and only
when the fast one says so. `snapshotWithRetries` is what a run that left some paths undone commits.

Digests are an arbitrary type: the code compares them and combines two into one, and nothing else.

**What a root stands for.** The leaves are laid out by sorting the paths, and a layer with an odd
node hands it up as it is, so that the number of leaves decides the shape. No path enters the root.
Two trees with the same hashes in the same order therefore have the same root, whatever their files
are called; see `RustCodeMcp.Indexing.Roots` for when that matters.

The precise path goes through both node maps in the order of a hash map (`order`), which is any
permutation, and sorts what it found.
-/

namespace RustCodeMcp

/-- A finite map keyed by paths. -/
abbrev PathMap (V : Type) := AList fun _ : PathBuf ↦ V

variable {D : Type}

/-! ### Roots -/

/-- The layer above a layer of nodes: neighbours are combined, a last node without a neighbour goes
up as it is. -/
def parentLayer (combine : D → D → D) : List D → List D
  | left :: right :: rest => combine left right :: parentLayer combine rest
  | layer => layer

/-- The root over a layer, given at least as many steps as there are layers above it. -/
def merkleRoot (combine : D → D → D) : ℕ → List D → Option D
  | _, [] => none
  | _, [node] => some node
  | 0, node :: _ => some node
  | height + 1, layer => merkleRoot combine height (parentLayer combine layer)

/-! ### Snapshots -/

/-- Metadata of a file node: its content hash and its time of last modification. -/
structure FileNode (D : Type) where
  /-- Hash of the file's bytes. -/
  contentHash : D
  /-- Index in the leaves of the tree. -/
  leafIndex : ℕ
  /-- Time of last modification. -/
  lastModified : ℕ

/-- What a snapshot file holds. -/
structure MerkleSnapshot (D : Type) where
  /-- File path to node. -/
  fileToNode : PathMap (FileNode D)
  /-- Snapshot version number. -/
  snapshotVersion : ℕ

/-- A Merkle tree of a project's files. -/
structure FileSystemMerkle (D : Type) where
  /-- The leaves of the tree, in path order. -/
  tree : List D
  /-- File path to node. -/
  fileToNode : PathMap (FileNode D)
  /-- Snapshot version number. -/
  snapshotVersion : ℕ

/-- What changed between two trees. -/
structure ChangeSet where
  /-- Files that were added. -/
  added : List PathBuf
  /-- Files that were modified. -/
  modified : List PathBuf
  /-- Files that were deleted. -/
  deleted : List PathBuf

namespace ChangeSet

/-- Nothing changed. -/
def empty : ChangeSet := ⟨[], [], []⟩

/-- Whether nothing changed. -/
def isEmpty (changes : ChangeSet) : Bool :=
  changes.added.isEmpty && changes.modified.isEmpty && changes.deleted.isEmpty

end ChangeSet

/-- Paths in the order in which the leaves of a tree are laid out. -/
def sortPaths (paths : List PathBuf) : List PathBuf :=
  paths.insertionSort (· ≤ ·)

namespace FileSystemMerkle

/-- The content hashes of a node map, in path order. -/
def sortedHashes (fileToNode : PathMap (FileNode D)) : List D :=
  (sortPaths fileToNode.keys).filterMap fun path ↦
    (fileToNode.lookup path).map FileNode.contentHash

theorem keys_map_entries {V W : Type} (f : PathBuf → V → W) (nodes : PathMap V) :
    (nodes.entries.map (Sigma.map id f : (Σ _ : PathBuf, V) → Σ _ : PathBuf, W)).keys =
      nodes.keys := by
  show (nodes.entries.map _).map _ = nodes.entries.map _
  rw [List.map_map]
  rfl

/-- A node map whose nodes know their places among the leaves. -/
def numberLeaves (fileToNode : PathMap (FileNode D)) : PathMap (FileNode D) :=
  let paths := sortPaths fileToNode.keys
  ⟨fileToNode.entries.map (Sigma.map id fun path node ↦
    { node with leafIndex := paths.idxOf path }),
    (congrArg List.Nodup (keys_map_entries _ fileToNode)).mpr fileToNode.keys_nodup⟩

/-- Build the tree over a node map. -/
def fromNodes (fileToNode : PathMap (FileNode D)) (snapshotVersion : ℕ) : FileSystemMerkle D :=
  ⟨sortedHashes fileToNode, numberLeaves fileToNode, snapshotVersion⟩

/-- The tree of a stored snapshot: rebuilt from its nodes. -/
def ofSnapshot (snapshot : MerkleSnapshot D) : FileSystemMerkle D :=
  ⟨sortedHashes snapshot.fileToNode, snapshot.fileToNode, snapshot.snapshotVersion⟩

/-- What is stored of a tree. -/
def toSnapshot (merkle : FileSystemMerkle D) : MerkleSnapshot D :=
  ⟨merkle.fileToNode, merkle.snapshotVersion⟩

/-- The number of files. -/
def fileCount (merkle : FileSystemMerkle D) : ℕ := merkle.fileToNode.keys.length

/-- The hash recorded for a path. -/
def hashOf (merkle : FileSystemMerkle D) (path : PathBuf) : Option D :=
  (merkle.fileToNode.lookup path).map FileNode.contentHash

/-- The Merkle root hash. -/
def rootHash (combine : D → D → D) (merkle : FileSystemMerkle D) : Option D :=
  merkleRoot combine merkle.tree.length merkle.tree

/-- The snapshot that is safe to commit after a run that has to retry some paths: a path to retry
keeps its previous node, or stays absent. -/
def snapshotWithRetries (merkle : FileSystemMerkle D) (previous : Option (FileSystemMerkle D))
    (retryPaths : List PathBuf) : FileSystemMerkle D :=
  let nodes := retryPaths.foldl (fun (nodes : PathMap (FileNode D)) path ↦
    match previous.bind fun snapshot ↦ snapshot.fileToNode.lookup path with
    | some oldNode => nodes.insert path oldNode
    | none => nodes.erase path) merkle.fileToNode
  fromNodes nodes merkle.snapshotVersion

/-! ### What a tree says of one path -/

section HashOf

variable {merkle : FileSystemMerkle D} {path : PathBuf} {nodes : PathMap (FileNode D)} {v : ℕ}

@[simp] theorem keys_numberLeaves : (numberLeaves nodes).keys = nodes.keys :=
  keys_map_entries _ _

theorem lookup_numberLeaves : (numberLeaves nodes).lookup path = (nodes.lookup path).map fun node ↦
    { node with leafIndex := (sortPaths nodes.keys).idxOf path } :=
  List.dlookup_map₂ path

@[simp] theorem hashOf_fromNodes :
    (fromNodes nodes v).hashOf path = (nodes.lookup path).map FileNode.contentHash := by
  show ((numberLeaves nodes).lookup path).map _ = _
  rw [lookup_numberLeaves, Option.map_map]
  rfl

theorem isSome_hashOf : (merkle.hashOf path).isSome ↔ path ∈ merkle.fileToNode := by
  simp [hashOf, ← AList.lookup_isSome]

theorem hashOf_eq_none : merkle.hashOf path = none ↔ path ∉ merkle.fileToNode := by
  rw [← isSome_hashOf]
  simp

@[simp] theorem hashOf_ofSnapshot_toSnapshot :
    (ofSnapshot merkle.toSnapshot).hashOf path = merkle.hashOf path := rfl

/-- **What a committed snapshot says of a path**: what the new tree says, except for a path to
retry, of which it says what the previous one did. -/
theorem hashOf_snapshotWithRetries {previous : Option (FileSystemMerkle D)}
    {retryPaths : List PathBuf} :
    (merkle.snapshotWithRetries previous retryPaths).hashOf path =
      if path ∈ retryPaths then previous.bind fun snapshot ↦ snapshot.hashOf path
      else merkle.hashOf path := by
  simp only [snapshotWithRetries, hashOf_fromNodes]
  simp only [hashOf]
  generalize merkle.fileToNode = nodes
  induction retryPaths generalizing nodes with
  | nil => simp
  | cons retried rest ih =>
    rw [List.foldl_cons, ih]
    by_cases hrest : path ∈ rest
    · simp [hrest]
    · by_cases hhead : path = retried
      · subst hhead
        rcases previous with - | snapshot
        · simp [hrest]
        · rcases hnode : snapshot.fileToNode.lookup path with - | node <;> simp [hrest, hnode]
      · rcases previous.bind fun snapshot ↦ snapshot.fileToNode.lookup retried with - | node <;>
          simp [hrest, hhead]

end HashOf

/-! ### Comparing two trees -/

variable [DecidableEq D]

/-- The fast path: whether the roots differ. -/
def hasChanges (combine : D → D → D) (merkle old : FileSystemMerkle D) : Bool :=
  decide (merkle.rootHash combine ≠ old.rootHash combine)

/-- The precise path: what changed, path by path. `order` is the order in which a hash map yields
its keys. -/
def detectChanges (combine : D → D → D) (order : List PathBuf → List PathBuf)
    (merkle old : FileSystemMerkle D) : ChangeSet :=
  if !merkle.hasChanges combine old then ChangeSet.empty
  else
    { added := (order merkle.fileToNode.keys).filter fun path ↦
        (old.fileToNode.lookup path).isNone
      modified := (order merkle.fileToNode.keys).filter fun path ↦
        match merkle.fileToNode.lookup path, old.fileToNode.lookup path with
        | some newNode, some oldNode => decide (newNode.contentHash ≠ oldNode.contentHash)
        | _, _ => false
      deleted := (order old.fileToNode.keys).filter fun path ↦
        (merkle.fileToNode.lookup path).isNone }

/-- What changed, path by path, whatever the roots say. -/
def pathChanges (order : List PathBuf → List PathBuf) (merkle old : FileSystemMerkle D) :
    ChangeSet where
  added := (order merkle.fileToNode.keys).filter fun path ↦ (old.fileToNode.lookup path).isNone
  modified := (order merkle.fileToNode.keys).filter fun path ↦
    match merkle.fileToNode.lookup path, old.fileToNode.lookup path with
    | some newNode, some oldNode => decide (newNode.contentHash ≠ oldNode.contentHash)
    | _, _ => false
  deleted := (order old.fileToNode.keys).filter fun path ↦ (merkle.fileToNode.lookup path).isNone

section Changes

variable {combine : D → D → D} {order : List PathBuf → List PathBuf}
  {merkle old : FileSystemMerkle D} {path : PathBuf}

theorem detectChanges_eq : merkle.detectChanges combine order old =
    if !merkle.hasChanges combine old then .empty else merkle.pathChanges order old :=
  rfl

theorem mem_pathChanges_added (horder : ∀ l, (order l).Perm l) :
    path ∈ (merkle.pathChanges order old).added ↔
      (merkle.hashOf path).isSome ∧ old.hashOf path = none := by
  simp [pathChanges, (horder _).mem_iff, ← AList.mem_keys, ← AList.lookup_isSome, hashOf]

/-- Modified are the paths with different hashes. -/
theorem mem_pathChanges_modified (horder : ∀ l, (order l).Perm l) :
    path ∈ (merkle.pathChanges order old).modified ↔
      ∃ h h', merkle.hashOf path = some h ∧ old.hashOf path = some h' ∧ h ≠ h' := by
  have hmem : path ∈ merkle.fileToNode ↔ (merkle.fileToNode.lookup path).isSome :=
    AList.lookup_isSome.symm
  simp only [pathChanges, List.mem_filter, (horder _).mem_iff, ← AList.mem_keys, hmem, hashOf]
  rcases merkle.fileToNode.lookup path with - | node <;>
    rcases old.fileToNode.lookup path with - | oldNode <;> simp

/-- Deleted are the paths with a hash before, and none now. -/
theorem mem_pathChanges_deleted (horder : ∀ l, (order l).Perm l) :
    path ∈ (merkle.pathChanges order old).deleted ↔
      merkle.hashOf path = none ∧ (old.hashOf path).isSome := by
  simp [pathChanges, (horder _).mem_iff, ← AList.mem_keys, ← AList.lookup_isSome, hashOf, and_comm]

/-- No path changed in two ways. -/
theorem nodup_pathChanges (horder : ∀ l, (order l).Perm l) :
    ((merkle.pathChanges order old).deleted ++ ((merkle.pathChanges order old).modified ++
      (merkle.pathChanges order old).added)).Nodup := by
  have hnew : (order merkle.fileToNode.keys).Nodup :=
    (horder _).nodup_iff.2 merkle.fileToNode.keys_nodup
  have hold : (order old.fileToNode.keys).Nodup :=
    (horder _).nodup_iff.2 old.fileToNode.keys_nodup
  refine (hold.filter _).append ((hnew.filter _).append (hnew.filter _) fun p hp hq ↦ ?_)
    fun p hp hq ↦ ?_
  · obtain ⟨h, h', -, hsome, -⟩ := (mem_pathChanges_modified horder).1 hp
    simp [((mem_pathChanges_added horder).1 hq).2] at hsome
  · have hnone := ((mem_pathChanges_deleted horder).1 hp).1
    rcases List.mem_append.1 hq with hq | hq
    · obtain ⟨h, h', hsome, -, -⟩ := (mem_pathChanges_modified horder).1 hq
      simp [hnone] at hsome
    · have hsome := ((mem_pathChanges_added horder).1 hq).1
      simp [hnone] at hsome

/-- With different roots, what changed is told path by path. -/
theorem detectChanges_of_hasChanges (hchanged : merkle.hasChanges combine old) :
    merkle.detectChanges combine order old = merkle.pathChanges order old := by
  rw [detectChanges_eq, hchanged]
  rfl

theorem mem_added (horder : ∀ l, (order l).Perm l) (hchanged : merkle.hasChanges combine old) :
    path ∈ (merkle.detectChanges combine order old).added ↔
      (merkle.hashOf path).isSome ∧ old.hashOf path = none := by
  rw [detectChanges_of_hasChanges hchanged, mem_pathChanges_added horder]

/-- What is reported as modified, with different roots. -/
theorem mem_modified (horder : ∀ l, (order l).Perm l) (hchanged : merkle.hasChanges combine old) :
    path ∈ (merkle.detectChanges combine order old).modified ↔
      ∃ h h', merkle.hashOf path = some h ∧ old.hashOf path = some h' ∧ h ≠ h' := by
  rw [detectChanges_of_hasChanges hchanged, mem_pathChanges_modified horder]

/-- What is reported as deleted, with different roots. -/
theorem mem_deleted (horder : ∀ l, (order l).Perm l) (hchanged : merkle.hasChanges combine old) :
    path ∈ (merkle.detectChanges combine order old).deleted ↔
      merkle.hashOf path = none ∧ (old.hashOf path).isSome := by
  rw [detectChanges_of_hasChanges hchanged, mem_pathChanges_deleted horder]

/-- **No path is reported twice.** -/
theorem nodup_changes (horder : ∀ l, (order l).Perm l) :
    ((merkle.detectChanges combine order old).deleted ++
      ((merkle.detectChanges combine order old).modified ++
        (merkle.detectChanges combine order old).added)).Nodup := by
  by_cases hchanged : merkle.hasChanges combine old
  · rw [detectChanges_of_hasChanges hchanged]
    exact nodup_pathChanges horder
  · simp [detectChanges, hchanged, ChangeSet.empty]

end Changes

end FileSystemMerkle

end RustCodeMcp
