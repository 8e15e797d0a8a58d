import RustCodeMcp.Query.ModuleTree

/-!
# The hierarchy of a codemap

A codemap shows of the trees of its crates the branches that lead to what it holds. No node that is
held and in its tree is lost, and nothing is shown that leads nowhere (`shows_projectHierarchy`).

Branches are found by names: a subtree is kept if its root or something below it has a qualified
name of a retained node in the same crate. Since a tree is filtered from the leaves up, what is kept
is closed under ancestors, and it is enough to say which rows are shown (`shown`). **The crates
themselves come from a hash set**, sorted by label afterwards; so the order is the same on every run
only when labels are distinct, which is a hypothesis of the result.
-/

namespace RustCodeMcp.ModuleTree

open Effect Navigation Ranking

/-- Only branches with a name that is retained. -/
def filterModuleTree (tree : ModuleTreeNode) (retainedQns : List Name) : Option ModuleTreeNode :=
  tree.keep fun row ↦ decide (row.qualifiedName ∈ retainedQns)

/-- A root for any number of trees but one. -/
def wrap : List ModuleTreeNode → ModuleTreeNode
  | [tree] => tree
  | trees => .node ⟨"<workspace>".toList, "workspace".toList, "Workspace", none, none⟩ trees

namespace OpenedSnapshot

variable {N : Type} [LinearOrder N] (snap : OpenedSnapshot N)

/-- The crate that a node is in. -/
def crateOf (id : N) : Option N :=
  (snap.get id).bind Node.crateId

/-- The names of a crate's retained nodes. -/
def retainedQns (retained : List N) (crateId : N) : List Name :=
  ((retained.filterMap snap.get).filter fun node ↦ node.crateId = some crateId).map
    Node.qualifiedName

/-- The crates of the retained nodes with their labels, sorted. The hash set of the crates is
iterated in some order. -/
def retainedCrates (order : List N → List N) (retained : List N) : List (N × Name) :=
  rankBy (fun krate : N × Name ↦ OrderDual.toDual (toLex (krate.2, krate.1)))
    ((order (retained.filterMap snap.crateOf).dedup).filterMap fun crateId ↦
      snap.targetLabels.find? fun krate ↦ krate.1 = crateId)

/-- The filtered trees of the crates, below one root. -/
def projectHierarchy (room : ℕ) (order : List N → List N) (retained : List N) :
    Except (TreeError N) ModuleTreeNode := do
  let filtered ← (snap.retainedCrates order retained).mapM fun (crateId, name) ↦ do
    let tree ← snap.moduleTree room name none
    return filterModuleTree tree (snap.retainedQns retained crateId)
  return wrap (filtered.filterMap id)

/-! ### What is shown -/

/-- The crates that hold something, by their labels. -/
structure Represented (retained : List N) (crates : List (Node N)) : Prop where
  mem_iff : ∀ krate, krate ∈ crates ↔ krate ∈ snap.crates ∧
    ∃ id ∈ retained, snap.crateOf id = some krate.id
  sorted : crates.Pairwise fun a b ↦ snap.targetLabel a < snap.targetLabel b

/-- The rows of the nodes with a retained name at or below them. -/
def shown (retained : List N) (tree : ModuleTreeNode) (crateId : N) : List Row :=
  (tree.subtrees.filter fun below ↦ below.labels.any fun row ↦
    decide (row.qualifiedName ∈ snap.retainedQns retained crateId)).map Rose.label

variable {snap} {retained : List N}

theorem find?_targetLabels (crateId : N) :
    (snap.targetLabels.find? fun krate ↦ krate.1 = crateId) =
      (snap.crates.find? fun krate ↦ krate.id = crateId).map fun krate ↦
        (krate.id, snap.targetLabel krate) :=
  List.find?_map

theorem find?_crates {krate : Node N} {crateId : N} :
    (snap.crates.find? fun other ↦ other.id = crateId) = some krate ↔
      krate ∈ snap.crates ∧ krate.id = crateId :=
  Grouping.find?_key_eq_some (snap.nodup.sublist (List.filter_sublist.map _))

theorem mem_shown {tree : ModuleTreeNode} {crateId id : N} {node : Node N} {row : Row}
    (hid : id ∈ retained) (hnode : snap.get id = some node) (hcrate : node.crateId = some crateId)
    (hrow : row ∈ tree.labels) (hname : row.qualifiedName = node.qualifiedName) :
    row ∈ snap.shown retained tree crateId := by
  rw [Rose.labels_eq_map, List.mem_map] at hrow
  obtain ⟨below, hbelow, rfl⟩ := hrow
  have hretained : node ∈ (retained.filterMap snap.get).filter fun node ↦
      node.crateId = some crateId :=
    List.mem_filter.2 ⟨List.mem_filterMap.2 ⟨id, hid, hnode⟩, decide_eq_true hcrate⟩
  refine List.mem_map_of_mem (List.mem_filter.2 ⟨hbelow, List.any_eq_true.2
    ⟨below.label, below.label_mem_labels, decide_eq_true ?_⟩⟩)
  rw [hname]
  exact List.mem_map_of_mem hretained

/-- The crates that are gone through, with their labels, in order. -/
theorem exists_retainedCrates (hdistinct : (snap.targetLabels.map Prod.snd).Nodup)
    {order : List N → List N} (horder : ∀ l, (order l).Perm l) (retained : List N) :
    ∃ crates, snap.Represented retained crates ∧
      snap.retainedCrates order retained =
        crates.map fun krate ↦ (krate.id, snap.targetLabel krate) := by
  -- the crates in the order of the hash set, then by label and id
  let ids := order (retained.filterMap snap.crateOf).dedup
  let found := ids.filterMap fun crateId ↦ snap.crates.find? fun krate ↦ krate.id = crateId
  let key := fun krate : Node N ↦ OrderDual.toDual (toLex (snap.targetLabel krate, krate.id))
  have hfound : ∀ krate, krate ∈ found ↔ krate ∈ snap.crates ∧
      ∃ id ∈ retained, snap.crateOf id = some krate.id := by
    intro krate
    rw [List.mem_filterMap]
    constructor
    · rintro ⟨crateId, hid, hfind⟩
      obtain ⟨hkrate, rfl⟩ := find?_crates.1 hfind
      rw [(horder _).mem_iff, List.mem_dedup, List.mem_filterMap] at hid
      exact ⟨hkrate, hid⟩
    · rintro ⟨hkrate, hid⟩
      refine ⟨krate.id, ?_, find?_crates.2 ⟨hkrate, rfl⟩⟩
      rw [(horder _).mem_iff, List.mem_dedup, List.mem_filterMap]
      exact hid
  have hnodup : found.Nodup := by
    refine List.Nodup.filterMap (fun a b krate ha hb ↦ ?_)
      ((horder _).nodup_iff.2 (List.nodup_dedup _))
    exact (find?_crates.1 ha).2.symm.trans (find?_crates.1 hb).2
  have hperm := rankBy_perm key found
  refine ⟨rankBy key found, ⟨fun krate ↦ hperm.mem_iff.trans (hfound krate), ?_⟩, ?_⟩
  · refine ((pairwise_rankBy key found).and (hperm.nodup_iff.2 hnodup)).imp_of_mem ?_
    rintro a b ha hb ⟨hle, hne⟩
    have ha := ((hfound a).1 (hperm.mem_iff.1 ha)).1
    have hb := ((hfound b).1 (hperm.mem_iff.1 hb)).1
    have hlabels : snap.targetLabel a ≠ snap.targetLabel b := by
      intro hlabel
      rw [Navigation.OpenedSnapshot.targetLabels, List.map_map] at hdistinct
      exact hne (List.inj_on_of_nodup_map hdistinct ha hb hlabel)
    rcases Prod.Lex.toLex_le_toLex.1 (OrderDual.toDual_le_toDual.1 hle) with hlt | ⟨heq, -⟩
    · exact hlt
    · exact absurd heq hlabels
  · have hpairs : (ids.filterMap fun crateId ↦
        snap.targetLabels.find? fun krate ↦ krate.1 = crateId) =
          found.map fun krate ↦ (krate.id, snap.targetLabel krate) := by
      rw [List.map_filterMap]
      exact List.filterMap_congr fun crateId _ ↦ find?_targetLabels crateId
    rw [retainedCrates, hpairs]
    exact (map_rankBy (fun _ ↦ rfl) found).symm

/-- **The hierarchy shows the branches that lead to what is retained**, for each crate in the order
of the labels. Both assumptions on labels are part of `LabelsResolve`. -/
theorem shows_projectHierarchy {rank : N → ℕ} (h : snap.Hierarchy rank)
    (hdistinct : (snap.targetLabels.map Prod.snd).Nodup)
    (htrees : ∀ krate ∈ snap.crates,
      snap.moduleTreeCrate (snap.targetLabel krate) = .ok (some krate.id))
    {order : List N → List N} (horder : ∀ l, (order l).Perm l) (retained : List N) :
    ∃ tree : N → ModuleTreeNode,
      (∀ krate ∈ snap.crates,
        snap.TreeOf (snap.declaredVisibility (snap.declaredTargets krate.id)) krate.id
          (tree krate.id)) ∧
      ∃ crates, snap.Represented retained crates ∧ ∃ branches : List ModuleTreeNode,
        branches.flatMap Rose.labels =
          (crates.flatMap fun krate ↦ snap.shown retained (tree krate.id) krate.id) ∧
        (∀ krate ∈ crates, ∀ id ∈ retained, ∀ node, snap.get id = some node →
          node.crateId = some krate.id → ∀ row ∈ (tree krate.id).labels,
            row.qualifiedName = node.qualifiedName → row ∈ branches.flatMap Rose.labels) ∧
        ∀ room, (∀ krate ∈ crates, rank krate.id < room) →
          snap.projectHierarchy room order retained = .ok (wrap branches) := by
  have hstored : ∀ krate ∈ snap.crates, (snap.get krate.id).isSome := fun krate hkrate ↦
    Option.isSome_of_eq_some
      (Navigation.OpenedSnapshot.get_eq_some.2 ⟨List.mem_of_mem_filter hkrate, rfl⟩)
  have : Nonempty ModuleTreeNode := ⟨.node default []⟩
  -- Each crate has a tree, which the walk finds given room enough.
  have hexists : ∀ crateId, ∃ tree, ∀ krate ∈ snap.crates, krate.id = crateId →
      snap.TreeOf (snap.declaredVisibility (snap.declaredTargets crateId)) crateId tree ∧
        ∀ room, rank crateId < room →
          snap.moduleTree room (snap.targetLabel krate) none = .ok tree := by
    intro crateId
    by_cases hcrate : ∃ krate ∈ snap.crates, krate.id = crateId
    · obtain ⟨krate, hkrate, rfl⟩ := hcrate
      obtain ⟨tree, htree, hwalk⟩ := h.exists_moduleTree (htrees krate hkrate)
        (hstored krate hkrate)
      refine ⟨tree, fun other hother hid ↦ ⟨htree, fun room hroom ↦ ?_⟩⟩
      rw [List.inj_on_of_nodup_map snap.nodup (List.mem_of_mem_filter hother)
        (List.mem_of_mem_filter hkrate) hid]
      exact (hwalk room hroom).1
    · exact ⟨.node default [], fun krate hkrate hid ↦ absurd ⟨krate, hkrate, hid⟩ hcrate⟩
  -- One tree for each crate: the statement names it before the crates that are shown.
  choose tree htree using hexists
  obtain ⟨crates, hcrates, hretained⟩ := exists_retainedCrates hdistinct horder retained
  let branch := fun krate : Node N ↦
    filterModuleTree (tree krate.id) (snap.retainedQns retained krate.id)
  have hshown : (crates.filterMap branch).flatMap Rose.labels =
      crates.flatMap fun krate ↦ snap.shown retained (tree krate.id) krate.id := by
    rw [Rose.flatMap_labels_filterMap]
    exact List.flatMap_congr fun krate _ ↦ Rose.labels_keep _ _
  refine ⟨tree, fun krate hkrate ↦ (htree _ krate hkrate rfl).1, crates, hcrates,
    crates.filterMap branch, hshown, ?_, fun room hroom ↦ ?_⟩
  · intro krate hkrate id hid node hnode hcrate row hrow hname
    rw [hshown, List.mem_flatMap]
    exact ⟨krate, hkrate, mem_shown hid hnode hcrate hrow hname⟩
  -- The loop over the crates walks each of these trees and keeps its branches.
  · have hwalks : (crates.map fun krate ↦ (krate.id, snap.targetLabel krate)).mapM
        (fun krate : N × Name ↦ do
          let tree ← snap.moduleTree room krate.2 none
          return filterModuleTree tree (snap.retainedQns retained krate.1)) =
        .ok (crates.map branch) := by
      rw [List.mapM_map]
      refine mapM_eq_ok fun krate hkrate ↦ ?_
      have hwalk := (htree _ krate ((hcrates.mem_iff krate).1 hkrate).1 rfl).2 room
        (hroom krate hkrate)
      show (snap.moduleTree room (snap.targetLabel krate) none >>= fun tree ↦
        pure (filterModuleTree tree (snap.retainedQns retained krate.id))) = _
      rw [hwalk]
      rfl
    rw [projectHierarchy, hretained, hwalks]
    show Except.ok (wrap ((crates.map branch).filterMap id)) = _
    rw [List.filterMap_map]
    rfl

end OpenedSnapshot

theorem shows_projectHierarchy_drawer : ∃ tree : ℕ → ModuleTreeNode,
    (∀ krate ∈ drawer.crates,
      drawer.TreeOf (drawer.declaredVisibility (drawer.declaredTargets krate.id)) krate.id
        (tree krate.id)) ∧
    ∃ crates, drawer.Represented [2] crates ∧ ∃ branches : List ModuleTreeNode,
      branches.flatMap Rose.labels =
        (crates.flatMap fun krate ↦ drawer.shown [2] (tree krate.id) krate.id) ∧
      (∀ krate ∈ crates, ∀ id ∈ [2], ∀ node, drawer.get id = some node →
        node.crateId = some krate.id → ∀ row ∈ (tree krate.id).labels,
          row.qualifiedName = node.qualifiedName → row ∈ branches.flatMap Rose.labels) ∧
      ∀ room, (∀ krate ∈ crates, 2 - krate.id < room) →
        drawer.projectHierarchy room id [2] = .ok (wrap branches) :=
  OpenedSnapshot.shows_projectHierarchy hierarchy_drawer (by decide +kernel) (by decide +kernel)
    (fun _ ↦ .refl _) [2]

end RustCodeMcp.ModuleTree
