import RustCodeMcp.Indexing.Roots

/-!
# Paths left for the next run

`snapshotWithRetries` commits the new tree except at the paths to retry, where it keeps what the
previous tree said. So the next comparison, path by path, reports the paths to retry that the last
one reported, in the same way, and no other path (`retries_reported`). The tree it builds is the
one `fromNodes` builds of its own node map: every node knows its place among the leaves, and its
hash is there (`Numbered`).

A path that is to be retried is either one that changed, and then it is reported again in the way it
was, or one that did not change, and then it stays unreported: both trees say the same of it. A run
that keeps failing for a file thus reports it every time, and forgets nothing else meanwhile.
-/

namespace RustCodeMcp.FileSystemMerkle

variable {D : Type} {merkle : FileSystemMerkle D} {nodes : PathMap (FileNode D)} {v : ℕ}
  {path : PathBuf}

/-! ### Leaves and their indices -/

/-- The leaves are the hashes of the map in path order, and every node is at its index. -/
structure Numbered (merkle : FileSystemMerkle D) : Prop where
  tree : merkle.tree = sortedHashes merkle.fileToNode
  leaf : ∀ path node, merkle.fileToNode.lookup path = some node →
    merkle.paths[node.leafIndex]? = some path ∧
      merkle.tree[node.leafIndex]? = some node.contentHash

theorem numberLeaves_numberLeaves :
    numberLeaves (numberLeaves nodes) = numberLeaves nodes := by
  have hpaths : sortPaths (numberLeaves nodes).keys = sortPaths nodes.keys :=
    congrArg sortPaths keys_numberLeaves
  refine AList.ext ?_
  show (nodes.entries.map _).map _ = nodes.entries.map _
  rw [hpaths, List.map_map]
  rfl

theorem sortedHashes_numberLeaves : sortedHashes (numberLeaves nodes) = sortedHashes nodes := by
  rw [sortedHashes, keys_numberLeaves, sortedHashes]
  exact List.filterMap_congr fun path _ ↦ hashOf_fromNodes (v := 0)

/-- **Building a tree once more from its own map changes nothing.** -/
theorem fromNodes_fromNodes : fromNodes (fromNodes nodes v).fileToNode v = fromNodes nodes v := by
  show (⟨sortedHashes (numberLeaves nodes), numberLeaves (numberLeaves nodes), v⟩ :
    FileSystemMerkle D) = ⟨sortedHashes nodes, numberLeaves nodes, v⟩
  rw [numberLeaves_numberLeaves, sortedHashes_numberLeaves]

/-- A tree that was built over a node map is numbered. -/
theorem numbered_fromNodes : (fromNodes nodes v).Numbered where
  tree := sortedHashes_numberLeaves.symm
  leaf path node hnode := by
    rw [show (fromNodes nodes v).fileToNode = numberLeaves nodes from rfl,
      lookup_numberLeaves, Option.map_eq_some_iff] at hnode
    obtain ⟨stored, hstored, rfl⟩ := hnode
    have hmem : path ∈ sortPaths nodes.keys :=
      (List.mem_insertionSort _).2 (AList.lookup_isSome.1 (hstored ▸ rfl))
    have hindex : (fromNodes nodes v).paths[(sortPaths nodes.keys).idxOf path]? = some path := by
      rw [paths_fromNodes]
      exact List.getElem?_idxOf hmem
    refine ⟨hindex, ?_⟩
    -- The hash at the index of the path is the one the map has for the path.
    have hhash := congrArg (fun l ↦ l[(sortPaths nodes.keys).idxOf path]?)
      (@map_some_tree D nodes v)
    simp only [List.getElem?_map, hindex, Option.map_some, hashOf_fromNodes, hstored] at hhash
    obtain ⟨hash, hget, heq⟩ := Option.map_eq_some_iff.1 hhash
    rw [hget, heq]

/-- **A stored tree is loaded as it was.** -/
theorem ofSnapshot_toSnapshot (h : merkle.Numbered) : ofSnapshot merkle.toSnapshot = merkle := by
  show (⟨sortedHashes merkle.fileToNode, merkle.fileToNode, merkle.snapshotVersion⟩ :
    FileSystemMerkle D) = merkle
  rw [← h.tree]

/-! ### What the next run is told -/

variable [DecidableEq D] {order : List PathBuf → List PathBuf}

/-- The tree a run compares with: without a previous one every file is new. -/
def before (previous : Option (FileSystemMerkle D)) : FileSystemMerkle D :=
  previous.getD (fromNodes ∅ 1)

omit [DecidableEq D] in
theorem hashOf_before {previous : Option (FileSystemMerkle D)} :
    (before previous).hashOf path = previous.bind fun snapshot ↦ snapshot.hashOf path := by
  rcases previous with - | snapshot <;> rfl

/-- **A committed snapshot differs from the new tree at the paths to retry**, as the previous one
did, and it is the tree that its own map gives. -/
theorem retries_reported (horder : ∀ l, (order l).Perm l) (merkle : FileSystemMerkle D)
    (previous : Option (FileSystemMerkle D)) (retryPaths : List PathBuf) :
    let committed := merkle.snapshotWithRetries previous retryPaths
    (∀ path,
      (path ∈ (merkle.pathChanges order committed).added ↔
        path ∈ retryPaths ∧ path ∈ (merkle.pathChanges order (before previous)).added) ∧
      (path ∈ (merkle.pathChanges order committed).modified ↔
        path ∈ retryPaths ∧ path ∈ (merkle.pathChanges order (before previous)).modified) ∧
      (path ∈ (merkle.pathChanges order committed).deleted ↔
        path ∈ retryPaths ∧ path ∈ (merkle.pathChanges order (before previous)).deleted)) ∧
    fromNodes committed.fileToNode committed.snapshotVersion = committed ∧
    committed.Numbered := by
  refine ⟨fun path ↦ ?_, fromNodes_fromNodes, numbered_fromNodes⟩
  simp only [mem_pathChanges_added horder, mem_pathChanges_modified horder,
    mem_pathChanges_deleted horder, hashOf_snapshotWithRetries, hashOf_before]
  by_cases hretry : path ∈ retryPaths
  · simp only [hretry, if_true, true_and, and_self]
  · -- The new tree does not differ from itself.
    simp only [hretry, if_false, false_and, iff_false]
    rcases merkle.hashOf path with - | hash <;> simp

/-- A file whose edit a run did not get into the index. -/
theorem retries_reported_edited :
    let merkle := ofHashes [(["a.rs"], 2)]
    let previous := ofHashes [(["a.rs"], 1)]
    ["a.rs"] ∈ (merkle.pathChanges id
      (merkle.snapshotWithRetries (some previous) [["a.rs"]])).modified :=
  ((retries_reported (fun _ ↦ List.Perm.refl _) _ _ _).1 _).2.1.2 ⟨by decide, by decide⟩

end RustCodeMcp.FileSystemMerkle
