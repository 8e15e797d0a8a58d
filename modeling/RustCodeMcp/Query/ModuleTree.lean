import RustCodeMcp.Effect.Except
import RustCodeMcp.Graph.Labels
import RustCodeMcp.Graph.TargetLabels
import RustCodeMcp.Order.Ranking
import RustCodeMcp.Tree.Rose
import Mathlib.Data.Char
import Mathlib.Data.List.Lex
import Mathlib.Data.Prod.Lex

/-!
# The tree of a crate

The modules and items of a crate are read as a tree, to a depth if one is asked for. Without one, a
large tree is cut at the last depth that keeps it within a budget, and so the answer is the one for
that depth (`answers_moduleTree`).

The tree is a `Rose` whose labels are rows, so that cutting it at a depth is `Rose.prune` and
counting its nodes `Rose.size`. The walk stops at the depth it is given; the tool's default walks
the whole tree first, looks for the depth at which it has to be cut, and cuts what it has. **Both
give the same tree for the same depth**, since a walk to a depth is the whole tree cut there
(`Hierarchy.exists_tree`).

The results:

* `declaredVisibilityMap_eq`: the map has the visibility that the parent of an item declares it
  with, if it does;
* `Hierarchy.exists_tree`: a node has one tree, and a walk to a depth gives what is no deeper of it;
* `respond_none`: without a depth the answer is the last one within the budget;
* `answers_moduleTree`: the tool, put together from these.
-/

namespace RustCodeMcp.ModuleTree

open Effect Navigation Ranking

/-! ### The rows -/

/-- From where a binding can be seen. -/
inductive BindingVisibility (N : Type)
  | public_
  | private_
  | crate (id : N)
  | restrictedTo (id : N)

/-- A snapshot with what its tables say of trees. -/
structure OpenedSnapshot (N : Type) extends toLookups : Navigation.OpenedSnapshot N where
  parentId : N → Option N
  visibility : Navigation.Node N → Option Name
  bindingVisibility : Binding N → BindingVisibility N
  /-- `children_by_parent`, in the byte order of the ids -/
  childrenByParent : N → List N

/-- What a `ModuleTreeNode` says beside its children. -/
structure Row where
  qualifiedName : Name
  displayName : Name
  kind : String
  itemKind : Option String
  visibility : Option Name
  deriving DecidableEq, Inhabited

/-- A node of the tree with its children. -/
abbrev ModuleTreeNode := Rose Row

/-- Why there is no tree. -/
inductive TreeError (N : Type)
  | lookup (error : LookupError N)
  /-- "no Crate node with qualified_name `{crate_name}`" -/
  | noCrate (crateName : Name)
  /-- "dangling NodeId in module_tree walk" -/
  | dangling
  /-- The call stack has no room. -/
  | overflow

namespace OpenedSnapshot

variable {N : Type} [DecidableEq N] (snap : OpenedSnapshot N)

/-! ### Visibilities -/

/-- A visibility as it is printed. -/
def formatBindingVisibility : BindingVisibility N → Name
  | .public_ => "pub".toList
  | .private_ => "pub(self)".toList
  | .crate _ => "pub(crate)".toList
  | .restrictedTo id =>
    match snap.get id with
    | some node => "pub(in ".toList ++ node.qualifiedName ++ [')']
    | none => "pub(in ?)".toList

/-- The parent of the target declares it there. -/
def parentMatch (binding : Binding N) : Bool :=
  ((snap.get binding.target).bind fun node ↦ snap.parentId node.id) = some binding.fromModule

/-- What one binding changes of the picks: a declaration in the parent is preferred to others. -/
def pickVisibility (targetIds : List N) (picks : N → Option (BindingVisibility N × Bool))
    (binding : Binding N) : N → Option (BindingVisibility N × Bool) :=
  if binding.kind ≠ .declared then picks
  else if binding.target ∉ targetIds then picks
  else
    match picks binding.target with
    | none => Function.update picks binding.target
        (some (snap.bindingVisibility binding, snap.parentMatch binding))
    | some (_, existing) =>
      if !existing && snap.parentMatch binding then
        Function.update picks binding.target
          (some (snap.bindingVisibility binding, snap.parentMatch binding))
      else picks

/-- The visibilities of the declarations, by what they declare. -/
def declaredVisibilityMap (targetIds : List N) (id : N) : Option Name :=
  (snap.bindings.foldl (snap.pickVisibility targetIds) (fun _ ↦ none) id).map fun pick ↦
    snap.formatBindingVisibility pick.1

/-! ### The walk -/

/-- What `module_tree` looks up visibilities of. -/
def declaredTargets (crateId : N) : List N :=
  (snap.nodes.filter fun node ↦
    (node.kind = .item || node.kind = .module) && node.crateId = some crateId).map Node.id

/-- What the tree says of a node. -/
def row (itemVisibility : N → Option Name) (node : Navigation.Node N) : Row where
  qualifiedName := node.qualifiedName
  displayName := node.displayName
  kind := nodeKindLabel node itemKindShortLabel
  itemKind := node.itemKind.map fun kind ↦ "Item." ++ itemKindShortLabel kind
  visibility :=
    if node.kind = .item || node.kind = .module then itemVisibility node.id
    else snap.visibility node

/-- Siblings go by their display names. -/
def siblingKey (tree : ModuleTreeNode) : OrderDual Name :=
  OrderDual.toDual tree.label.displayName

/-- The walk, on a call stack with room for so many calls. -/
def buildModuleTree (depthLimit : Option ℕ) (itemVisibility : N → Option Name) :
    ℕ → ℕ → N → Except (TreeError N) ModuleTreeNode
  | 0, _, _ => .error .overflow
  | room + 1, curDepth, nodeId => do
    let node ← (snap.get nodeId).elim (.error .dangling) .ok
    let childIds :=
      if depthLimit.any fun depth ↦ depth ≤ curDepth then [] else snap.childrenByParent nodeId
    let children ← childIds.mapM (buildModuleTree depthLimit itemVisibility room (curDepth + 1))
    return .node (snap.row itemVisibility node) (rankBy siblingKey children)

/-- The tree of a crate, to a depth if one is given. -/
def moduleTree (room : ℕ) (crateName : Name) (depth : Option ℕ) :
    Except (TreeError N) ModuleTreeNode := do
  match ← (snap.moduleTreeCrate crateName).mapError .lookup with
  | none => .error (.noCrate crateName)
  | some crateId =>
    snap.buildModuleTree depth (snap.declaredVisibilityMap (snap.declaredTargets crateId)) room 0
      crateId

end OpenedSnapshot

/-! ### The answer of the server -/

/-- How many nodes an answer without a depth may have. -/
def moduleTreeDefaultNodeBudget : ℕ := 400

/-- A tree, and what has been left out of it. -/
structure ModuleTreeResponse where
  tree : ModuleTreeNode
  totalNodes : ℕ
  returnedNodes : ℕ
  truncatedAtDepth : Option ℕ
  note : Option String

/-- The loop that looks for the depth of the cut. It ends by itself before a tree has as many levels
as nodes (`lt_sizeTo_cutDepth`). -/
def cutDepth (tree : ModuleTreeNode) : ℕ → ℕ → ℕ
  | 0, depth => depth
  | rounds + 1, depth =>
    if tree.sizeTo (depth + 1) ≤ moduleTreeDefaultNodeBudget then cutDepth tree rounds (depth + 1)
    else depth

/-- The depth an answer is cut at. -/
def depthApplied (tree : ModuleTreeNode) (depth : Option ℕ) : Option ℕ :=
  if depth.isSome || tree.size ≤ moduleTreeDefaultNodeBudget then none
  else some (cutDepth tree tree.size 0)

/-- The answer for a tree. -/
def respond (tree : ModuleTreeNode) (depth : Option ℕ) : ModuleTreeResponse :=
  let applied := depthApplied tree depth
  let returned := applied.elim tree tree.prune
  { tree := returned
    totalNodes := tree.size
    returnedNodes := returned.size
    truncatedAtDepth := applied
    note := applied.map fun d ↦
      s!"tree cut at depth {d}: {returned.size} of {tree.size} nodes; " ++
        "pass `depth` explicitly for more" }

namespace OpenedSnapshot

variable {N : Type} [DecidableEq N] (snap : OpenedSnapshot N)

/-- The tool `module_tree`. -/
def serveModuleTree (room : ℕ) (krate : Name) (depth : Option ℕ) :
    Except (TreeError N) ModuleTreeResponse := do
  let tree ← snap.moduleTree room krate depth
  return respond tree depth

/-! ### What the visibilities are -/

/-- The declarations of a node. -/
def declaring (id : N) : List (Binding N) :=
  snap.bindings.filter fun binding ↦ binding.kind = .declared && binding.target = id

/-- The declaration that its parent has of a node, or else the first one. -/
def declaration (id : N) : Option (Binding N) :=
  (snap.declaring id).find? snap.parentMatch <|> (snap.declaring id).head?

/-- The visibility that a node is declared with. -/
def declaredVisibility (targetIds : List N) (id : N) : Option Name :=
  if id ∈ targetIds then
    (snap.declaration id).map fun binding ↦
      snap.formatBindingVisibility (snap.bindingVisibility binding)
  else none

/-! ### What a tree is -/

/-- The row of a node and the trees of its children, by their display names. -/
inductive TreeOf (itemVisibility : N → Option Name) : N → ModuleTreeNode → Prop
  | node {id : N} {found : Navigation.Node N} {trees : N → ModuleTreeNode}
      {children : List ModuleTreeNode} (hfound : snap.get id = some found)
      (htrees : ∀ child ∈ snap.childrenByParent id, TreeOf itemVisibility child (trees child))
      (hperm : children.Perm ((snap.childrenByParent id).map trees))
      (hsorted : children.Pairwise fun a b ↦ a.label.displayName ≤ b.label.displayName) :
      TreeOf itemVisibility id (.node (snap.row itemVisibility found) children)

/-- No chain of children is longer than the rank of the node that it begins at. -/
structure Hierarchy (rank : N → ℕ) : Prop where
  stored : ∀ id, ∀ child ∈ snap.childrenByParent id, (snap.get child).isSome
  descends : ∀ id, ∀ child ∈ snap.childrenByParent id, rank child < rank id

/-- **What the tool answers** to each depth, and without one. -/
structure Answers (tree : ModuleTreeNode)
    (serve : Option ℕ → Except (TreeError N) ModuleTreeResponse) : Prop where
  asked : ∀ depth, ∃ answer, serve (some depth) = .ok answer ∧ answer.tree = tree.prune depth ∧
    answer.truncatedAtDepth = none
  whole : tree.size ≤ moduleTreeDefaultNodeBudget → ∃ answer, serve none = .ok answer ∧
    answer.tree = tree ∧ answer.truncatedAtDepth = none
  cut : moduleTreeDefaultNodeBudget < tree.size → ∃ depth answer, serve none = .ok answer ∧
    answer.tree = tree.prune depth ∧ answer.truncatedAtDepth = some depth ∧
    answer.totalNodes = tree.size ∧ answer.returnedNodes = (tree.prune depth).size ∧
    answer.returnedNodes ≤ moduleTreeDefaultNodeBudget ∧
    ∀ depth', (tree.prune depth').size ≤ moduleTreeDefaultNodeBudget → depth' ≤ depth

/-! ### Picks -/

section Picks

variable {targetIds : List N} {id : N} {picks : N → Option (BindingVisibility N × Bool)}
  {binding : Binding N}

theorem pickVisibility_of_ne (h : ¬ (binding.kind = .declared ∧ binding.target = id)) :
    snap.pickVisibility targetIds picks binding id = picks id := by
  rw [pickVisibility]
  by_cases hkind : binding.kind = .declared
  · have hne : id ≠ binding.target := fun heq ↦ h ⟨hkind, heq.symm⟩
    rw [if_neg (not_not_intro hkind)]
    split
    · rfl
    · cases picks binding.target with
      | none => exact Function.update_of_ne hne _ _
      | some pick =>
        dsimp only
        split
        · exact Function.update_of_ne hne _ _
        · rfl
  · rw [if_pos hkind]

theorem pickVisibility_none (hid : id ∈ targetIds) (hpick : picks id = none)
    (h : binding.kind = .declared ∧ binding.target = id) :
    snap.pickVisibility targetIds picks binding id =
      some (snap.bindingVisibility binding, snap.parentMatch binding) := by
  obtain ⟨hkind, rfl⟩ := h
  rw [pickVisibility, if_neg (not_not_intro hkind), if_neg (not_not_intro hid)]
  simp only [hpick]
  exact Function.update_self _ _ _

theorem pickVisibility_some {visibility : BindingVisibility N}
    {existing : Bool} (hid : id ∈ targetIds) (hpick : picks id = some (visibility, existing))
    (h : binding.kind = .declared ∧ binding.target = id) :
    snap.pickVisibility targetIds picks binding id =
      if !existing && snap.parentMatch binding then
        some (snap.bindingVisibility binding, snap.parentMatch binding)
      else some (visibility, existing) := by
  obtain ⟨hkind, rfl⟩ := h
  rw [pickVisibility, if_neg (not_not_intro hkind), if_neg (not_not_intro hid)]
  simp only [hpick]
  split
  · exact Function.update_self _ _ _
  · exact hpick

/-- What becomes of a pick, which only the declaration of the parent replaces. -/
theorem foldl_pickVisibility_some (hid : id ∈ targetIds) : ∀ {bindings : List (Binding N)}
    {picks : N → Option (BindingVisibility N × Bool)} {visibility : BindingVisibility N}
    {existing : Bool}, picks id = some (visibility, existing) →
      (bindings.foldl (snap.pickVisibility targetIds) picks id).map Prod.fst =
        some (if existing then visibility
          else (((bindings.filter fun binding ↦
            binding.kind = .declared && binding.target = id).find? snap.parentMatch).map
              snap.bindingVisibility).getD visibility)
  | [], picks, visibility, existing, h => by
    rw [List.foldl_nil, h]
    cases existing <;> rfl
  | binding :: bindings, picks, visibility, existing, h => by
    rw [List.foldl_cons]
    by_cases hdeclared : binding.kind = .declared ∧ binding.target = id
    · have hstep := pickVisibility_some snap hid h hdeclared
      rw [List.filter_cons_of_pos (by simpa using hdeclared), List.find?_cons]
      cases existing with
      | true =>
        rw [foldl_pickVisibility_some hid hstep]
        rfl
      | false =>
        cases hmatch : snap.parentMatch binding with
        | true =>
          rw [hmatch] at hstep
          rw [foldl_pickVisibility_some hid hstep]
          rfl
        | false =>
          rw [hmatch] at hstep
          rw [foldl_pickVisibility_some hid hstep]
    · rw [List.filter_cons_of_neg (by simpa using hdeclared)]
      exact foldl_pickVisibility_some hid ((pickVisibility_of_ne snap hdeclared).trans h)

theorem foldl_pickVisibility_none (hid : id ∈ targetIds) : ∀ {bindings : List (Binding N)}
    {picks : N → Option (BindingVisibility N × Bool)}, picks id = none →
      (bindings.foldl (snap.pickVisibility targetIds) picks id).map Prod.fst =
        (((bindings.filter fun binding ↦
          binding.kind = .declared && binding.target = id).find? snap.parentMatch <|>
        (bindings.filter fun binding ↦
          binding.kind = .declared && binding.target = id).head?).map snap.bindingVisibility)
  | [], picks, h => by
    rw [List.foldl_nil, h]
    rfl
  | binding :: bindings, picks, h => by
    rw [List.foldl_cons]
    by_cases hdeclared : binding.kind = .declared ∧ binding.target = id
    · have hstep := pickVisibility_none snap hid h hdeclared
      rw [foldl_pickVisibility_some snap hid hstep,
        List.filter_cons_of_pos (by simpa using hdeclared), List.find?_cons, List.head?_cons]
      cases snap.parentMatch binding with
      | true => rfl
      | false =>
        generalize List.find? _ _ = found
        cases found <;> rfl
    · rw [List.filter_cons_of_neg (by simpa using hdeclared)]
      exact foldl_pickVisibility_none hid ((pickVisibility_of_ne snap hdeclared).trans h)

theorem foldl_pickVisibility_of_notMem (hid : id ∉ targetIds) : ∀ {bindings : List (Binding N)}
    {picks : N → Option (BindingVisibility N × Bool)},
      bindings.foldl (snap.pickVisibility targetIds) picks id = picks id
  | [], _ => rfl
  | binding :: bindings, picks => by
    rw [List.foldl_cons, foldl_pickVisibility_of_notMem hid]
    by_cases hdeclared : binding.kind = .declared ∧ binding.target = id
    · obtain ⟨hkind, rfl⟩ := hdeclared
      rw [pickVisibility, if_neg (not_not_intro hkind), if_pos hid]
    · exact pickVisibility_of_ne snap hdeclared

/-- **The map has the visibility of the declaration** that the parent of an item has of it, if there
is one. -/
theorem declaredVisibilityMap_eq (targetIds : List N) :
    snap.declaredVisibilityMap targetIds = snap.declaredVisibility targetIds := by
  funext id
  rw [declaredVisibilityMap, declaredVisibility]
  split
  · rename_i hid
    have hpick := @foldl_pickVisibility_none N _ snap targetIds id hid snap.bindings
      (fun _ ↦ none) rfl
    have hformat := congrArg (Option.map snap.formatBindingVisibility) hpick
    rw [Option.map_map, Option.map_map] at hformat
    exact hformat
  · rw [foldl_pickVisibility_of_notMem snap ‹_›]
    rfl

end Picks

/-! ### The tree of a hierarchy -/

variable {snap} {rank : N → ℕ} {itemVisibility : N → Option Name}

theorem siblingKey_prune (depth : ℕ) (tree : ModuleTreeNode) :
    siblingKey (tree.prune depth) = siblingKey tree := by
  cases tree
  cases depth <;> rfl

/-- **A node has one tree**, and a walk to a depth gives what is no deeper of it. -/
theorem Hierarchy.exists_tree (h : snap.Hierarchy rank) (itemVisibility : N → Option Name) :
    ∀ {bound : ℕ} {id : N}, rank id < bound → (snap.get id).isSome → ∃ tree : ModuleTreeNode,
      snap.TreeOf itemVisibility id tree ∧ ∀ room, rank id < room → ∀ curDepth,
        snap.buildModuleTree none itemVisibility room curDepth id = .ok tree ∧
          ∀ depth, snap.buildModuleTree (some depth) itemVisibility room curDepth id =
            .ok (tree.prune (depth - curDepth)) := by
  intro bound
  induction bound with
  | zero => exact fun hid ↦ absurd hid (Nat.not_lt_zero _)
  | succ bound ih =>
    intro id hid hstored
    obtain ⟨node, hnode⟩ := Option.isSome_iff_exists.1 hstored
    have hchildren : ∀ child ∈ snap.childrenByParent id, rank child < bound := fun child hchild ↦
      Nat.lt_of_lt_of_le (h.descends id child hchild) (Nat.le_of_lt_succ hid)
    have : Nonempty ModuleTreeNode := ⟨.node default []⟩
    -- The children's trees, from the induction on the rank.
    choose! tree htree using fun child hchild ↦
      ih (hchildren child hchild) (h.stored id child hchild)
    refine ⟨.node (snap.row itemVisibility node)
      (rankBy siblingKey ((snap.childrenByParent id).map tree)),
      .node hnode (fun child hchild ↦ (htree child hchild).1) (rankBy_perm _ _)
        ((pairwise_rankBy siblingKey _).imp fun hle ↦ hle), fun room hroom curDepth ↦ ?_⟩
    -- There is room for this node, and for its children, which are of smaller rank.
    cases room with
    | zero => exact absurd hroom (Nat.not_lt_zero _)
    | succ room =>
      have hrooms : ∀ child ∈ snap.childrenByParent id, rank child < room := fun child hchild ↦
        Nat.lt_of_lt_of_le (h.descends id child hchild) (Nat.le_of_lt_succ hroom)
      constructor
      · rw [buildModuleTree, hnode]
        simp only [Option.any_none, Bool.false_eq_true, if_false]
        -- Cutting the children's trees keeps their keys, so the order is that of the whole trees.
        rw [mapM_eq_ok fun child hchild ↦ ((htree child hchild).2 room (hrooms child hchild) _).1]
        rfl
      · intro depth
        rw [buildModuleTree, hnode]
        simp only [Option.any_some, decide_eq_true_eq]
        split
        · rename_i hstop
          have hnil : rankBy siblingKey [] = [] := (rankBy_perm siblingKey []).eq_nil
          show Except.ok (Rose.node (snap.row itemVisibility node) (rankBy siblingKey [])) = _
          rw [hnil, Nat.sub_eq_zero_of_le hstop]
          rfl
        · rename_i hgo
          obtain ⟨rest, hrest⟩ : ∃ rest, depth - curDepth = rest + 1 :=
            ⟨depth - curDepth - 1, by omega⟩
          have hnext : depth - (curDepth + 1) = rest := by omega
          rw [mapM_eq_ok fun child hchild ↦
              ((htree child hchild).2 room (hrooms child hchild) _).2 depth, hnext, hrest,
            Rose.prune, Rose.pruneAll_eq, map_rankBy (siblingKey_prune rest), List.map_map]
          rfl

end OpenedSnapshot

/-! ### The cut -/

theorem sizeTo_cutDepth (tree : ModuleTreeNode) : ∀ rounds depth,
    tree.sizeTo depth ≤ moduleTreeDefaultNodeBudget →
      tree.sizeTo (cutDepth tree rounds depth) ≤ moduleTreeDefaultNodeBudget
  | 0, _, h => h
  | rounds + 1, depth, h => by
    rw [cutDepth]
    split
    · exact sizeTo_cutDepth tree rounds (depth + 1) ‹_›
    · exact h

theorem lt_sizeTo_cutDepth {tree : ModuleTreeNode} (h : moduleTreeDefaultNodeBudget < tree.size) :
    ∀ rounds depth, tree.size ≤ depth + rounds →
      moduleTreeDefaultNodeBudget < tree.sizeTo (cutDepth tree rounds depth + 1)
  | 0, depth, hrounds => by
    have hall : tree.sizeTo (depth + 1) = tree.size := Rose.sizeTo_of_size_le tree (by omega)
    rw [cutDepth, hall]
    exact h
  | rounds + 1, depth, hrounds => by
    rw [cutDepth]
    split
    · exact lt_sizeTo_cutDepth h rounds (depth + 1) (by omega)
    · rename_i hstop
      exact Nat.lt_of_not_le hstop

/-- **The default is a depth**: the last one within the budget, where the tree is not. -/
theorem respond_none {tree : ModuleTreeNode} (h : moduleTreeDefaultNodeBudget < tree.size) :
    ∃ depth, (respond tree none).tree = tree.prune depth ∧
      (respond tree none).truncatedAtDepth = some depth ∧
      (respond tree none).returnedNodes = tree.sizeTo depth ∧
      tree.sizeTo depth ≤ moduleTreeDefaultNodeBudget ∧
      ∀ depth', tree.sizeTo depth' ≤ moduleTreeDefaultNodeBudget → depth' ≤ depth := by
  have happlied : depthApplied tree none = some (cutDepth tree tree.size 0) := by
    rw [depthApplied, if_neg]
    simpa using h
  refine ⟨cutDepth tree tree.size 0, ?_, happlied, ?_, ?_, fun depth' hdepth' ↦ ?_⟩
  · rw [respond, happlied]
    rfl
  · rw [respond, happlied]
    exact tree.size_prune _
  · refine sizeTo_cutDepth tree _ _ ?_
    cases tree
    exact Nat.le_of_ble_eq_true rfl
  · by_contra hlt
    have hbeyond := lt_sizeTo_cutDepth h tree.size 0 (Nat.le_of_eq (Nat.zero_add _).symm)
    exact Nat.not_le_of_lt hbeyond
      (Nat.le_trans (tree.sizeTo_mono (Nat.lt_of_not_le hlt)) hdepth')

namespace OpenedSnapshot

variable {N : Type} [DecidableEq N] {snap : OpenedSnapshot N} {rank : N → ℕ}

theorem Hierarchy.exists_moduleTree (h : snap.Hierarchy rank) {krate : Name} {crateId : N}
    (hcrate : snap.moduleTreeCrate krate = .ok (some crateId))
    (hstored : (snap.get crateId).isSome) :
    ∃ tree, snap.TreeOf (snap.declaredVisibility (snap.declaredTargets crateId)) crateId tree ∧
      ∀ room, rank crateId < room → snap.moduleTree room krate none = .ok tree ∧
        ∀ depth, snap.moduleTree room krate (some depth) = .ok (tree.prune depth) := by
  obtain ⟨tree, htree, hwalk⟩ :=
    h.exists_tree (snap.declaredVisibilityMap (snap.declaredTargets crateId))
      (Nat.lt_succ_self (rank crateId)) hstored
  rw [declaredVisibilityMap_eq] at htree
  refine ⟨tree, htree, fun room hroom ↦ ?_⟩
  obtain ⟨hfull, hdepth⟩ := hwalk room hroom 0
  refine ⟨?_, fun depth ↦ ?_⟩
  · rw [moduleTree, hcrate]
    exact hfull
  · rw [moduleTree, hcrate]
    exact hdepth depth

/-- **The tree of a crate** is read whole to any depth, and its default is the last depth within the
budget. -/
theorem answers_moduleTree (h : snap.Hierarchy rank) {krate : Name} {crateId : N}
    (hcrate : snap.moduleTreeCrate krate = .ok (some crateId))
    (hstored : (snap.get crateId).isSome) :
    ∃ tree, snap.TreeOf (snap.declaredVisibility (snap.declaredTargets crateId)) crateId tree ∧
      ∀ room, rank crateId < room → Answers tree (snap.serveModuleTree room krate) := by
  obtain ⟨tree, htree, hwalk⟩ := h.exists_moduleTree hcrate hstored
  refine ⟨tree, htree, fun room hroom ↦ ?_⟩
  obtain ⟨hfull, hdepth⟩ := hwalk room hroom
  have hserve : snap.serveModuleTree room krate none = .ok (respond tree none) := by
    rw [serveModuleTree, hfull]
    rfl
  refine ⟨fun depth ↦ ⟨respond (tree.prune depth) (some depth), ?_, rfl, rfl⟩, fun hsmall ↦ ?_,
    fun hlarge ↦ ?_⟩
  · rw [serveModuleTree, hdepth]
    rfl
  · have happlied : depthApplied tree none = none := by
      rw [depthApplied, if_pos]
      simpa using hsmall
    refine ⟨respond tree none, hserve, ?_, happlied⟩
    rw [respond, happlied]
    rfl
  · obtain ⟨depth, htree, happlied, hreturned, hwithin, hlast⟩ := respond_none hlarge
    rw [← hreturned] at hwithin
    simp only [Rose.size_prune]
    exact ⟨depth, respond tree none, hserve, htree, happlied, rfl, hreturned, hwithin, hlast⟩

end OpenedSnapshot

/-- A crate with a module that declares a function. -/
def drawer : OpenedSnapshot ℕ where
  nodes := [⟨0, .crate, ['d'], ['d'], some 0, none, none, none⟩,
    ⟨1, .module, ['m'], ['d', ':', ':', 'm'], some 0, none, none, none⟩,
    ⟨2, .item, ['f'], ['d', ':', ':', 'm', ':', ':', 'f'], some 0, some .function, none, none⟩]
  nodup := by decide
  bindings := [⟨0, .type, ['m'], 1, .declared⟩, ⟨1, .value, ['f'], 2, .declared⟩]
  parentId id := if id = 0 then none else some (id - 1)
  visibility _ := none
  bindingVisibility _ := .public_
  childrenByParent id := if id < 2 then [id + 1] else []

theorem hierarchy_drawer : drawer.Hierarchy (2 - ·) := by
  have hchild : ∀ id, ∀ child ∈ drawer.childrenByParent id, id < 2 ∧ child = id + 1 := by
    intro id child h
    have h : child ∈ if id < 2 then [id + 1] else [] := h
    split at h
    · exact ⟨‹_›, List.mem_singleton.1 h⟩
    · exact absurd h List.not_mem_nil
  refine ⟨fun id child h ↦ ?_, fun id child h ↦ ?_⟩
  · obtain ⟨hid, rfl⟩ := hchild id child h
    obtain rfl | rfl : id = 0 ∨ id = 1 := by omega
    · rfl
    · rfl
  · obtain ⟨hid, rfl⟩ := hchild id child h
    show 2 - (id + 1) < 2 - id
    omega

theorem answers_moduleTree_drawer : ∃ tree : ModuleTreeNode,
    drawer.TreeOf (drawer.declaredVisibility (drawer.declaredTargets 0)) 0 tree ∧
      ∀ room, 2 < room → OpenedSnapshot.Answers tree (drawer.serveModuleTree room ['d']) :=
  OpenedSnapshot.answers_moduleTree hierarchy_drawer (by decide +kernel) (by decide)

end RustCodeMcp.ModuleTree
