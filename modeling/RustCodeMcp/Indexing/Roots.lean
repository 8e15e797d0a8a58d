import RustCodeMcp.Digest.HashTree
import RustCodeMcp.Indexing.Merkle

/-!
# What the roots of two snapshots tell

The root is taken over the content hashes in path order, and over nothing else. So two snapshots
with the same hashes in that order have the same root whatever their paths: a file that is renamed
and keeps its place is not noticed (`unnoticed_changes`). Apart from this, and from a file whose
bytes are digests that the other tree combines in its place, the comparison is exact (`exact_iff`).

The argument goes through hash trees: the root is the value of the tree over the leaves, and if
combining digests is injective on the pairs that occur in either tree, equal values mean that the
trees are equal up to a subtree standing where the other has a leaf. With as many leaves on both
sides there is no room for that (`coincides_iff`).
-/

namespace RustCodeMcp

variable {D E : Type} {combine : D → D → D}

/-! ### The tree over the leaves -/

/-- A homomorphism takes layers to layers. -/
theorem parentLayer_map {node : E → E → E} {f : E → D}
    (hf : ∀ a b, f (node a b) = combine (f a) (f b)) (layer : List E) :
    parentLayer combine (layer.map f) = (parentLayer node layer).map f := by
  induction layer using parentLayer.induct with
  | case1 left right rest ih =>
    show combine (f left) (f right) :: parentLayer combine (rest.map f) =
      f (node left right) :: (parentLayer node rest).map f
    rw [ih, hf]
  | case2 layer h =>
    rcases layer with _ | ⟨left, _ | ⟨right, rest⟩⟩
    · rfl
    · rfl
    · exact absurd rfl (h left right rest)

theorem merkleRoot_map {node : E → E → E} {f : E → D}
    (hf : ∀ a b, f (node a b) = combine (f a) (f b)) (height : ℕ) (layer : List E) :
    merkleRoot combine height (layer.map f) = (merkleRoot node height layer).map f := by
  induction height generalizing layer with
  | zero =>
    match layer with
    | [] => rfl
    | [_] => rfl
    | _ :: _ :: _ => rfl
  | succ height ih =>
    match layer with
    | [] => rfl
    | [_] => rfl
    | left :: right :: rest =>
      refine Eq.trans ?_ (ih (parentLayer node (left :: right :: rest)))
      rw [← parentLayer_map hf]
      rfl

/-- The layer above has the same leaves. -/
theorem flatMap_leaves_parentLayer (layer : List (HashTree D)) :
    (parentLayer .node layer).flatMap HashTree.leaves = layer.flatMap HashTree.leaves := by
  induction layer using parentLayer.induct with
  | case1 left right rest ih =>
    rw [parentLayer, List.flatMap_cons, ih, List.flatMap_cons, List.flatMap_cons, HashTree.leaves,
      List.append_assoc]
  | case2 layer h =>
    rcases layer with _ | ⟨left, _ | ⟨right, rest⟩⟩
    · rfl
    · rfl
    · exact absurd rfl (h left right rest)

theorem length_parentLayer_le (combine : D → D → D) (layer : List D) :
    2 * (parentLayer combine layer).length ≤ layer.length + 1 := by
  induction layer using parentLayer.induct with
  | case1 left right rest ih =>
    rw [parentLayer, List.length_cons, List.length_cons, List.length_cons]
    omega
  | case2 layer h =>
    match layer with
    | [] => exact Nat.zero_le _
    | [_] => exact Nat.le_refl _
    | left :: right :: rest => exact absurd rfl (h left right rest)

/-- With enough steps, the tree has all the leaves. -/
theorem leaves_merkleRoot {height : ℕ} {layer : List (HashTree D)}
    (hheight : layer.length ≤ height + 1) (hne : layer ≠ []) :
    ∃ t, merkleRoot .node height layer = some t ∧ t.leaves = layer.flatMap HashTree.leaves := by
  induction height generalizing layer with
  | zero =>
    obtain ⟨t, rfl⟩ := List.length_eq_one_iff.1
      (Nat.le_antisymm hheight (List.length_pos_iff.2 hne))
    exact ⟨t, rfl, (List.append_nil _).symm⟩
  | succ height ih =>
    match layer, hne with
    | [t], _ => exact ⟨t, rfl, (List.append_nil _).symm⟩
    | left :: right :: rest, _ =>
      have hlength := length_parentLayer_le HashTree.node (left :: right :: rest)
      rw [List.length_cons, List.length_cons] at hlength hheight
      obtain ⟨t, ht, hleaves⟩ := @ih (parentLayer .node (left :: right :: rest)) (by omega) nofun
      exact ⟨t, ht, hleaves.trans (flatMap_leaves_parentLayer _)⟩

namespace FileSystemMerkle

variable (combine) (merkle old : FileSystemMerkle D)

/-- The tree over the content hashes. -/
def hashTree : Option (HashTree D) :=
  merkleRoot .node merkle.tree.length (merkle.tree.map .leaf)

/-- The pairs of digests that are combined. -/
def combined : List (D × D) :=
  merkle.hashTree.elim [] (HashTree.pairs combine)

/-- The content hashes are the same in path order; with other numbers of files, a file hashes to
what the other tree has combined in its place. -/
def Coincides : Prop :=
  Option.Rel (HashTree.Coincides combine) merkle.hashTree old.hashTree

/-- The root is the value of the tree over the leaves. -/
theorem rootHash_eq : merkle.rootHash combine = merkle.hashTree.map (HashTree.value combine) := by
  have hnode : ∀ left right, (HashTree.node left right).value combine =
      combine (left.value combine) (right.value combine) := fun _ _ ↦ rfl
  have h := merkleRoot_map hnode merkle.tree.length (merkle.tree.map .leaf)
  rw [List.map_map] at h
  exact (congrArg _ (List.map_id _).symm).trans h

variable {combine merkle old}

/-- Roots are equal exactly if the trees coincide, where combining digests is injective. -/
theorem rootHash_eq_iff
    (hinj : Set.InjOn (Function.uncurry combine)
      {p | p ∈ merkle.combined combine ∨ p ∈ old.combined combine}) :
    merkle.rootHash combine = old.rootHash combine ↔ merkle.Coincides combine old := by
  rw [rootHash_eq, rootHash_eq, Coincides]
  unfold combined at hinj
  generalize merkle.hashTree = t at hinj ⊢
  generalize old.hashTree = t' at hinj ⊢
  rcases t with - | t <;> rcases t' with - | t'
  · exact iff_of_true rfl .none
  · exact iff_of_false nofun nofun
  · exact iff_of_false nofun nofun
  · rw [Option.map_some, Option.map_some, Option.some.injEq, HashTree.value_eq_iff hinj]
    exact ⟨.some, fun h ↦ by cases h; assumption⟩

/-- With as many files, it is the hashes in path order that coincide. -/
theorem coincides_iff (hlength : merkle.tree.length = old.tree.length) :
    merkle.Coincides combine old ↔ merkle.tree = old.tree := by
  -- Both are trees over the pairs of hashes, of which one takes the first and the other the second.
  obtain ⟨z, htree, htree'⟩ : ∃ z : List (D × D),
      merkle.tree = z.map Prod.fst ∧ old.tree = z.map Prod.snd :=
    ⟨merkle.tree.zip old.tree, (List.map_fst_zip hlength.le).symm,
      (List.map_snd_zip hlength.ge).symm⟩
  have hmap : ∀ f : D × D → D, merkleRoot .node (z.map f).length ((z.map f).map .leaf) =
      (merkleRoot .node z.length (z.map .leaf)).map (HashTree.map f) := by
    intro f
    rw [List.length_map, ← merkleRoot_map fun _ _ ↦ rfl, List.map_map, List.map_map]
    rfl
  rw [Coincides, hashTree, hashTree, htree, htree', hmap, hmap]
  by_cases hnil : z = []
  · subst hnil
    exact iff_of_true .none rfl
  · obtain ⟨t, ht, hleaves⟩ := @leaves_merkleRoot _ z.length (z.map .leaf)
      ((List.length_map _).trans_le (Nat.le_succ _)) fun h ↦ hnil (List.map_eq_nil_iff.1 h)
    have hz : t.leaves = z := by
      rw [hleaves, List.flatMap_map]
      exact List.flatMap_singleton' z
    have hcoincides : (t.map Prod.fst).Coincides combine (t.map Prod.snd) ↔ ∀ e ∈ z, e.1 = e.2 :=
      hz ▸ HashTree.coincides_map
    rw [ht, List.map_inj_left, ← hcoincides]
    exact ⟨fun h ↦ by cases h; assumption, .some⟩

/-! ### The maps -/

/-- The paths, in the order of the leaves. -/
def paths (merkle : FileSystemMerkle D) : List PathBuf :=
  sortPaths merkle.fileToNode.keys

section FromNodes

variable {nodes nodes' : PathMap (FileNode D)} {v v' : ℕ}

@[simp] theorem paths_fromNodes : (fromNodes nodes v).paths = sortPaths nodes.keys :=
  congrArg sortPaths keys_numberLeaves

/-- The leaves are the hashes of the paths in that order. -/
theorem map_some_tree : (fromNodes nodes v).tree.map some =
    (fromNodes nodes v).paths.map (fromNodes nodes v).hashOf := by
  have hmem : ∀ path ∈ sortPaths nodes.keys,
      ((nodes.lookup path).map FileNode.contentHash).isSome = true := by
    intro path hpath
    rw [Option.isSome_map, AList.lookup_isSome]
    exact (List.mem_insertionSort _).1 hpath
  have hhashOf : (fromNodes nodes v).hashOf =
      fun path ↦ (nodes.lookup path).map FileNode.contentHash :=
    funext fun _ ↦ hashOf_fromNodes
  rw [paths_fromNodes, hhashOf]
  show (sortedHashes nodes).map some = _
  rw [sortedHashes]
  generalize sortPaths nodes.keys = l at hmem
  induction l with
  | nil => rfl
  | cons path l ih =>
    obtain ⟨hash, hhash⟩ := Option.isSome_iff_exists.1 (hmem path List.mem_cons_self)
    rw [List.filterMap_cons_some
        (f := fun path ↦ (nodes.lookup path).map FileNode.contentHash) hhash,
      List.map_cons, List.map_cons, hhash, ih fun p hp ↦ hmem p (List.mem_cons_of_mem _ hp)]

theorem length_tree : (fromNodes nodes v).tree.length = (fromNodes nodes v).paths.length := by
  rw [← List.length_map some, map_some_tree, List.length_map]

theorem mem_paths {path : PathBuf} :
    path ∈ (fromNodes nodes v).paths ↔ ((fromNodes nodes v).hashOf path).isSome = true :=
  (List.mem_insertionSort _).trans isSome_hashOf.symm

/-- Two trees have the same paths if the same paths have hashes. -/
theorem paths_eq_iff : (fromNodes nodes v).paths = (fromNodes nodes' v').paths ↔
    ∀ path, ((fromNodes nodes v).hashOf path).isSome =
      ((fromNodes nodes' v').hashOf path).isSome := by
  constructor
  · intro h path
    rw [Bool.eq_iff_iff, ← mem_paths, ← mem_paths, h]
  · intro h
    have hperm : (fromNodes nodes v).fileToNode.keys.Perm (fromNodes nodes' v').fileToNode.keys :=
      (List.perm_ext_iff_of_nodup (AList.keys_nodup _) (AList.keys_nodup _)).2 fun path ↦
        isSome_hashOf.symm.trans ((Bool.eq_iff_iff.1 (h path)).trans isSome_hashOf)
    have hsorted : (fromNodes nodes v).paths.Perm (fromNodes nodes' v').paths :=
      (List.perm_insertionSort _ _).trans (hperm.trans (List.perm_insertionSort _ _).symm)
    exact hsorted.eq_of_pairwise' (List.pairwise_insertionSort _ _)
      (List.pairwise_insertionSort _ _)

/-- **Two maps are equal when their paths are and the hashes in path order.** -/
theorem hashOf_eq_iff :
    (∀ path, (fromNodes nodes v).hashOf path = (fromNodes nodes' v').hashOf path) ↔
      (fromNodes nodes v).paths = (fromNodes nodes' v').paths ∧
        (fromNodes nodes v).tree = (fromNodes nodes' v').tree := by
  have htree : ∀ {l l' : List D}, l.map some = l'.map some ↔ l = l' :=
    (Option.some_injective D).list_map.eq_iff
  constructor
  · intro h
    have hpaths := paths_eq_iff.2 fun path ↦ congrArg Option.isSome (h path)
    refine ⟨hpaths, htree.1 ?_⟩
    rw [map_some_tree, map_some_tree, hpaths, funext h]
  · rintro ⟨hpaths, hhashes⟩ path
    by_cases hmem : path ∈ (fromNodes nodes v).paths
    · rw [← htree, map_some_tree, map_some_tree, ← hpaths] at hhashes
      exact List.map_inj_left.1 hhashes path hmem
    · have hmem' : path ∉ (fromNodes nodes' v').paths := hpaths ▸ hmem
      rw [mem_paths, Bool.not_eq_true, Option.isSome_eq_false_iff,
        Option.isNone_iff_eq_none] at hmem hmem'
      rw [hmem, hmem']

end FromNodes

variable [DecidableEq D]

/-- Both paths answer what the maps say. -/
structure Exact (combine : D → D → D) (order : List PathBuf → List PathBuf)
    (merkle old : FileSystemMerkle D) : Prop where
  hasChanges : merkle.hasChanges combine old = false ↔ ∀ path, merkle.hashOf path = old.hashOf path
  added : ∀ path, path ∈ (merkle.detectChanges combine order old).added ↔
    (merkle.hashOf path).isSome ∧ old.hashOf path = none
  modified : ∀ path, path ∈ (merkle.detectChanges combine order old).modified ↔
    ∃ hash oldHash, merkle.hashOf path = some hash ∧ old.hashOf path = some oldHash ∧ hash ≠ oldHash
  deleted : ∀ path, path ∈ (merkle.detectChanges combine order old).deleted ↔
    merkle.hashOf path = none ∧ (old.hashOf path).isSome
  nodup : ((merkle.detectChanges combine order old).deleted ++
    ((merkle.detectChanges combine order old).modified ++
      (merkle.detectChanges combine order old).added)).Nodup

variable {order : List PathBuf → List PathBuf}

theorem hasChanges_eq_false : merkle.hasChanges combine old = false ↔
    merkle.rootHash combine = old.rootHash combine := by
  rw [hasChanges, decide_eq_false_iff_not, not_not]

theorem detectChanges_of_eq (h : merkle.hasChanges combine old = false) :
    merkle.detectChanges combine order old = .empty := by
  rw [detectChanges, h]
  rfl

/-- **The precise path is right where the fast one is.** -/
theorem Exact.of_hasChanges (horder : ∀ l, (order l).Perm l)
    (h : merkle.hasChanges combine old = false ↔ ∀ path, merkle.hashOf path = old.hashOf path) :
    merkle.Exact combine order old := by
  rcases hchanged : merkle.hasChanges combine old with - | -
  · have hsame := h.1 hchanged
    refine ⟨h, fun path ↦ ?_, fun path ↦ ?_, fun path ↦ ?_, nodup_changes horder⟩ <;>
      rw [detectChanges_of_eq hchanged, hsame path] <;> refine iff_of_false List.not_mem_nil ?_
    · rintro ⟨hsome, hnone⟩
      rw [hnone] at hsome
      cases hsome
    · rintro ⟨hash, oldHash, heq, heq', hne⟩
      exact hne (Option.some.inj (heq.symm.trans heq'))
    · rintro ⟨hnone, hsome⟩
      rw [hnone] at hsome
      cases hsome
  · exact ⟨h, fun _ ↦ mem_added horder hchanged, fun _ ↦ mem_modified horder hchanged,
      fun _ ↦ mem_deleted horder hchanged, nodup_changes horder⟩

/-- **The comparison of two trees is exact unless their hashes coincide under different paths.** -/
theorem exact_iff {nodes nodes' : PathMap (FileNode D)} {v v' : ℕ} (horder : ∀ l, (order l).Perm l)
    (hinj : Set.InjOn (Function.uncurry combine)
      {p | p ∈ (fromNodes nodes v).combined combine ∨ p ∈ (fromNodes nodes' v').combined combine}) :
    (fromNodes nodes v).Exact combine order (fromNodes nodes' v') ↔
      ((fromNodes nodes v).Coincides combine (fromNodes nodes' v') →
        (fromNodes nodes v).paths = (fromNodes nodes' v').paths) := by
  constructor
  · intro h hcoincides
    exact (hashOf_eq_iff.1 (h.hasChanges.1 (hasChanges_eq_false.2
      ((rootHash_eq_iff hinj).2 hcoincides)))).1
  · intro h
    refine .of_hasChanges horder ?_
    rw [hasChanges_eq_false, rootHash_eq_iff hinj, hashOf_eq_iff]
    constructor
    · intro hcoincides
      have hpaths := h hcoincides
      refine ⟨hpaths, (coincides_iff ?_).1 hcoincides⟩
      rw [length_tree, length_tree, hpaths]
    · exact fun hsame ↦ (coincides_iff (congrArg List.length hsame.2)).2 hsame.2

/-! ### Small trees -/

/-- A tree of files with these hashes. -/
def ofHashes (files : List (PathBuf × ℕ)) : FileSystemMerkle ℕ :=
  fromNodes (files.map fun file ↦ (⟨file.1, ⟨file.2, 0, 0⟩⟩ : Σ _ : PathBuf, FileNode ℕ)).toAList 1

/-- Injective on what small trees combine. -/
def primePair (left right : ℕ) : ℕ :=
  2 ^ left * 3 ^ right

/-- Injectivity on the pairs of two small trees can be checked pair by pair. -/
theorem injOn_combined {merkle old : FileSystemMerkle ℕ}
    (h : ∀ p ∈ merkle.combined primePair ++ old.combined primePair,
      ∀ q ∈ merkle.combined primePair ++ old.combined primePair,
        primePair p.1 p.2 = primePair q.1 q.2 → p = q) :
    Set.InjOn (Function.uncurry primePair)
      {p | p ∈ merkle.combined primePair ∨ p ∈ old.combined primePair} :=
  fun p hp q hq ↦ h p (List.mem_append.2 hp) q (List.mem_append.2 hq)

/-- A file is renamed, and keeps its place among the others; and two files are replaced by one whose
bytes are their two digests. -/
theorem unnoticed_changes :
    (Set.InjOn (Function.uncurry primePair)
        {p | p ∈ (ofHashes [(["a.rs"], 1), (["c.rs"], 2)]).combined primePair ∨
          p ∈ (ofHashes [(["a.rs"], 1), (["b.rs"], 2)]).combined primePair} ∧
      (ofHashes [(["a.rs"], 1), (["c.rs"], 2)]).hasChanges primePair
        (ofHashes [(["a.rs"], 1), (["b.rs"], 2)]) = false ∧
      (ofHashes [(["a.rs"], 1), (["c.rs"], 2)]).hashOf ["b.rs"] ≠
        (ofHashes [(["a.rs"], 1), (["b.rs"], 2)]).hashOf ["b.rs"]) ∧
    Set.InjOn (Function.uncurry primePair)
        {p | p ∈ (ofHashes [(["a.rs"], primePair 1 2), (["c.rs"], 4)]).combined primePair ∨
          p ∈ (ofHashes [(["a.rs"], 1), (["b.rs"], 2), (["c.rs"], 4)]).combined primePair} ∧
      (ofHashes [(["a.rs"], primePair 1 2), (["c.rs"], 4)]).hasChanges primePair
        (ofHashes [(["a.rs"], 1), (["b.rs"], 2), (["c.rs"], 4)]) = false ∧
      (ofHashes [(["a.rs"], primePair 1 2), (["c.rs"], 4)]).hashOf ["b.rs"] ≠
        (ofHashes [(["a.rs"], 1), (["b.rs"], 2), (["c.rs"], 4)]).hashOf ["b.rs"] :=
  ⟨⟨injOn_combined (by decide), by decide, by decide⟩,
    injOn_combined (by decide), by decide, by decide⟩

/-- An edit of one of two files. -/
theorem exact_edit :
    (ofHashes [(["a.rs"], 1), (["b.rs"], 3)]).Exact primePair id
      (ofHashes [(["a.rs"], 1), (["b.rs"], 2)]) :=
  (exact_iff List.Perm.refl (injOn_combined (by decide))).2 fun _ ↦ rfl

end FileSystemMerkle

end RustCodeMcp
