import RustCodeMcp.Codemap.Build
import RustCodeMcp.Graph.Opened
import RustCodeMcp.Graph.TargetLabels
import RustCodeMcp.Query.Attributes
import RustCodeMcp.Query.DeadPub
import RustCodeMcp.Query.ModuleDependencies
import RustCodeMcp.Query.ModuleTree
import RustCodeMcp.Query.Overlaps
import RustCodeMcp.Query.ReExports

/-!
# One snapshot, and what the queries read of it

Each query's model has the fields of a row that the query reads, and nothing else, so one row of
`nodes_by_id` appears as several structures. Here it is with every field of the source. The others
are **views** of it, and the snapshots of the queries are views of one snapshot:

```
Node.names         lookups, labels, crate edges, module trees, dead `pub`, module dependencies
Node.mapped        the codemap's, which also has the span
Node.placed        the span index
Node.attributed    items by attribute
Node.compared      semantic overlaps
Node.owned         the tables that a crate's rows are deleted from
```

**A view keeps the id**, and that is all that a lookup needs: what is found in a view is the view of
what is found (`find?_map_view`). So the queries agree wherever they say the same — on the nodes of
an id (`get_names` and its like), on the name of a node and on its crate (`qualifiedName_eq`,
`crate_eq`), on the label of a crate, which the crate edges and the module tree count out
differently (`CrateEdges.targetLabel_eq`) — and what one of them gives, another can be asked about
(`enclosingItem_get`, `lists_get`).

**The tables of a write have these views too.** `Holds` says that the tables hold the rows of the
snapshot, and a write of the extraction leaves such tables (`holds_tables`), once each stub is named
by a binding: no other stub is written.
-/

namespace RustCodeMcp

/-! ### The label of a crate -/

namespace CrateEdges.OpenedSnapshot

variable {N : Type} (snap : OpenedSnapshot N)

/-- **The crate edges label a crate as the module tree does.** -/
theorem targetLabel_eq (node : Navigation.Node N) :
    snap.targetLabel node = snap.toOpenedSnapshot.targetLabel node := by
  have hcount : (snap.nodes.countP fun other ↦
      other.kind = .crate ∧ other.qualifiedName = node.qualifiedName) =
      snap.toOpenedSnapshot.crates.countP fun other ↦
        other.qualifiedName = node.qualifiedName := by
    rw [Navigation.OpenedSnapshot.crates, List.countP_filter]
    refine List.countP_congr fun other _ ↦ ?_
    simp [and_comm]
  rw [targetLabel, Navigation.OpenedSnapshot.targetLabel, hcount]
  simp only [List.cons_append, List.append_assoc]
  rfl

/-- So is the label of a crate that is found by its id. -/
theorem targetLabels_eq [LinearOrder N] (id : N) :
    snap.targetLabels id = ((snap.get id).filter fun node ↦ node.kind = .crate).map
      snap.toOpenedSnapshot.targetLabel := by
  rw [targetLabels]
  exact congrArg (Option.map · _) (funext snap.targetLabel_eq)

end CrateEdges.OpenedSnapshot

/-! ### The item of a line range -/

namespace Codemap

variable {N : Type} {snap : OpenedSnapshot N} {file : String}

/-- What is found is the best so far, or one of the spans. -/
theorem narrowest_mem {byteStart byteEnd : ℕ} {spans : List (Span N)} {best : Option (Span N)}
    {span : Span N} (h : narrowest byteStart byteEnd spans best = some span) :
    best = some span ∨ span ∈ spans := by
  induction spans generalizing best with
  | nil => exact .inl h
  | cons first spans ih =>
    rw [narrowest] at h
    split at h
    · exact .inl h
    · rcases ih h with hbest | hmem
      · split at hbest
        · rcases (better_spec first best).1 with hfirst | hbefore
          · exact .inr (List.mem_cons.2 (.inl (by rw [← hfirst, Option.some.inj hbest])))
          · exact .inl (hbefore.trans hbest)
        · exact .inl hbest
      · exact .inr (List.mem_cons_of_mem _ hmem)

/-- What is found for a range is a span of the file. -/
theorem exists_span {lineStart lineEnd : ℕ} {id : N}
    (h : enclosingItemForLineRange snap file lineStart lineEnd = some id) :
    ∃ span ∈ spansOf snap file, span.id = id := by
  rw [enclosingItemForLineRange] at h
  obtain ⟨-, h⟩ := Option.ite_none_left_eq_some.1 h
  obtain ⟨table, -, h⟩ := Option.bind_eq_some_iff.1 h
  obtain ⟨-, h⟩ := Option.ite_none_left_eq_some.1 h
  obtain ⟨byteStart, -, h⟩ := Option.bind_eq_some_iff.1 h
  obtain ⟨byteEnd, -, h⟩ := Option.bind_eq_some_iff.1 h
  obtain ⟨spans, hspans, h⟩ := Option.bind_eq_some_iff.1 h
  obtain ⟨span, hspan, rfl⟩ := Option.map_eq_some_iff.1 h
  rcases narrowest_mem hspan with hnone | hmem
  · cases hnone
  · exact ⟨span, (spanIndex_eq_some hspans).1.mem_iff.1 hmem, rfl⟩

end Codemap

/-! ### The tables of a full write -/

namespace Ownership.ExtractionModel

variable {N Rest Embedding : Type} [DecidableEq N] {model : ExtractionModel N Rest} {id : N}

/-- A binding names each stub. -/
def StubsNamed (model : ExtractionModel N Rest) : Prop :=
  ∀ node ∈ model.nodes, node.kind = .externalSymbol →
    ∃ binding ∈ model.bindings, binding.target = node.id

theorem tables_node (hresolved : model.Resolved) (hnamed : model.StubsNamed) :
    (model.tables (fun _ ↦ true) : GraphDatabases N Rest Embedding).plain (.nodesById id) =
      model.get id := by
  rw [tables_plain]
  rcases hget : model.get id with - | node
  · simp [keptKey, hget]
  have hmem := List.mem_of_find?_eq_some hget
  obtain rfl := model.id_of_get hget
  have hlast : .put (.nodesById node.id) node ∈ model.allEntries →
      lastAt (.nodesById node.id) model.allEntries = some node := fun hput ↦
    lastAt_eq_some hput fun other hother ↦
      Option.some.inj ((get_of_put hother).symm.trans hget)
  by_cases hstub : node.kind = .externalSymbol
  · obtain ⟨binding, hbinding, htarget⟩ := hnamed node hmem hstub
    obtain ⟨owner, howner⟩ := hresolved.binding binding hbinding
    have hkept : model.named (fun _ ↦ true) node.id = true :=
      named_iff.2 ⟨binding, hbinding, htarget, owner, howner, rfl⟩
    have hstub' : model.stub binding.target = some node :=
      model.stub_eq_some.2 ⟨htarget ▸ hget, hstub⟩
    rw [if_pos (by simpa [keptKey, hget, hstub] using hkept)]
    exact hlast (mem_allEntries.2 ⟨.binding binding, binding_mem hbinding,
      List.mem_append_right _ (mem_stubEntries.2 ⟨node, owner, hstub', howner, .inl rfl⟩)⟩)
  · have hput : .put (.nodesById node.id) node ∈ model.allEntries :=
      mem_allEntries.2 ⟨.node node, by simpa [elements] using hmem, by simp [entries, hstub]⟩
    have hkept : model.keptKey (fun _ ↦ true) (.nodesById node.id) = true := by
      by_cases hworkspace : node.kind = .workspace
      · simp [keptKey, hget, hworkspace]
      · obtain ⟨owner, howner⟩ := hresolved.node node hmem hworkspace hstub
        rcases hkind : node.kind with _ | _ | _ | _ | _ <;> simp_all [keptKey]
    rw [if_pos hkept]
    exact hlast hput

theorem put_binding_mem {bid : BindingId N} {binding : Binding N Rest} :
    .put (.bindingsById bid) binding ∈ model.allEntries ↔
      binding ∈ model.bindings ∧ bindingIdFor binding = bid := by
  rw [mem_allEntries]
  constructor
  · rintro ⟨x, hx, hentry⟩
    rcases x with node | other | edge | usage | item | record | record
    case binding =>
      simp only [entries, List.mem_append, List.mem_cons, mem_stubEntries] at hentry
      rcases hentry with (heq | heq | heq | hnil) | ⟨stub, owner, -, -, heq | heq⟩
      · cases heq
        exact ⟨mem_bindings hx, rfl⟩
      · cases heq
      · cases heq
      · cases hnil
      · cases heq
      · cases heq
    case node =>
      rw [entries] at hentry
      split at hentry <;> simp at hentry
    case usage => simp [entries, usageEntries] at hentry
    all_goals simp [entries] at hentry
  · rintro ⟨hmem, rfl⟩
    exact ⟨.binding binding, binding_mem hmem, by simp [entries]⟩

theorem tables_binding (hresolved : model.Resolved)
    (hdistinct : (model.bindings.map bindingIdFor).Nodup) {binding : Binding N Rest}
    (h : binding ∈ model.bindings) :
    (model.tables (fun _ ↦ true) : GraphDatabases N Rest Embedding).plain
      (.bindingsById (bindingIdFor binding)) = some binding := by
  obtain ⟨owner, howner⟩ := hresolved.binding binding h
  rw [tables_plain, if_pos (by simp [keptKey, bindingIdFor, howner])]
  refine lastAt_eq_some (put_binding_mem.2 ⟨h, rfl⟩) fun other hother ↦ ?_
  obtain ⟨hmem, hid⟩ := put_binding_mem.1 hother
  exact List.inj_on_of_nodup_map hdistinct hmem h hid

theorem tables_usages (hresolved : model.Resolved) (hfunctions : model.FunctionsInIds)
    {usage : Usage N} :
    (∃ uid, (model.tables (fun _ ↦ true) : GraphDatabases N Rest Embedding).plain
      (.usagesById uid) = some usage) ↔ usage ∈ model.usages := by
  simp only [tables_plain]
  constructor
  · rintro ⟨uid, huid⟩
    split at huid
    · exact ((lastAt_usage hfunctions).1 huid).1
    · cases huid
  · intro h
    obtain ⟨owner, howner⟩ := hresolved.usage usage h
    refine ⟨usageIdFor usage, ?_⟩
    rw [if_pos (by simp [keptKey, usageIdFor, howner])]
    exact (lastAt_usage hfunctions).2 ⟨h, rfl⟩

end Ownership.ExtractionModel

namespace Views

open ModuleTree (BindingVisibility)
open Navigation (BindingKind ItemKind Name)
open Ownership (ExtractionModel GraphDatabases Namespace NodeKind Usage)
open Tables (Bytes)

/-! ### The rows -/

/-- A row of `nodes_by_id`. -/
structure Node (N : Type) where
  id : N
  kind : NodeKind
  displayName : String
  qualifiedName : String
  crateId : Option N
  /-- The containing scope, which for a member of an impl is its type. -/
  parentId : Option N
  itemKind : Option ItemKind
  /-- Relative to the workspace. -/
  file : Option String
  span : Option (ℕ × ℕ)
  visibility : Option String
  attributes : List String
  crateTargetKind : Option String
  /-- The module that the declaration stands in. -/
  declarationModule : Option N

/-- A row of `bindings_by_id`. -/
structure Binding (N : Type) where
  fromModule : N
  namespace_ : Namespace
  visibleName : String
  target : N
  kind : BindingKind
  visibility : BindingVisibility N
  isExplicitPubUse : Bool

variable {N Rest : Type}

namespace Node

variable (node : Node N)

/-- What a lookup by name reads. -/
def names : Navigation.Node N where
  id := node.id
  kind := node.kind
  displayName := node.displayName.toList
  qualifiedName := node.qualifiedName.toList
  crateId := node.crateId
  itemKind := node.itemKind
  file := node.file.map String.toList
  crateTargetKind := node.crateTargetKind.map String.toList

/-- What a codemap reads. -/
def mapped : CodemapBuild.Node N where
  toNode := node.names
  span := node.span

/-- What the span index reads. -/
def placed : Codemap.Node N where
  id := node.id
  kind := node.kind
  file := node.file
  span := node.span

/-- What is read of an item with an attribute. -/
def attributed : Surface.Node N where
  id := node.id
  kind := node.kind
  qualifiedName := node.qualifiedName.toList
  crateId := node.crateId
  itemKind := node.itemKind
  attributes := node.attributes.map String.toList
  file := node.file.map String.toList
  span := node.span

/-- What is read of an item that is compared with others. -/
def compared : Similarity.Node N where
  crateId := node.crateId
  qualifiedName := node.qualifiedName
  itemKind := node.itemKind
  file := node.file
  span := node.span

/-- What writing and deleting read, with the rest as it is stored. -/
def owned (rest : Node N → Rest) : Ownership.Node N Rest where
  id := node.id
  kind := node.kind
  qualifiedName := node.qualifiedName
  crateId := node.crateId
  rest := rest node

@[simp] theorem names_id : node.names.id = node.id := rfl

@[simp] theorem mapped_id : node.mapped.id = node.id := rfl

@[simp] theorem placed_id : node.placed.id = node.id := rfl

@[simp] theorem attributed_id : node.attributed.id = node.id := rfl

@[simp] theorem owned_id (rest : Node N → Rest) : (node.owned rest).id = node.id := rfl

/-- **A field has one value**, whichever view shows it. -/
theorem fields_eq : node.compared.crateId = node.mapped.crateId ∧
    node.compared.qualifiedName.toList = node.mapped.qualifiedName ∧
    node.compared.itemKind = node.mapped.itemKind ∧ node.compared.span = node.mapped.span ∧
    node.attributed.qualifiedName = node.mapped.qualifiedName ∧
    node.attributed.file = node.mapped.file ∧ node.attributed.span = node.mapped.span ∧
    node.placed.kind = node.mapped.kind ∧ node.placed.span = node.mapped.span :=
  ⟨rfl, rfl, rfl, rfl, rfl, rfl, rfl, rfl, rfl⟩

end Node

namespace Binding

variable (binding : Binding N)

/-- What a lookup by name reads. -/
def names : Navigation.Binding N where
  fromModule := binding.fromModule
  namespace_ := binding.namespace_
  visibleName := binding.visibleName.toList
  target := binding.target
  kind := binding.kind

/-- What a chain of re-exports reads. -/
def reExported : ReExports.Binding N where
  toBinding := binding.names
  isExplicitPubUse := binding.isExplicitPubUse

/-- What writing and deleting read, with the rest as it is stored. -/
def owned (rest : Binding N → Rest) : Ownership.Binding N Rest where
  fromModule := binding.fromModule
  namespace_ := binding.namespace_
  visibleName := binding.visibleName
  target := binding.target
  rest := rest binding

/-- The key of the row. -/
def id : Ownership.BindingId N :=
  ⟨binding.fromModule, binding.namespace_, binding.visibleName, binding.target⟩

@[simp] theorem bindingIdFor_owned (rest : Binding N → Rest) :
    Ownership.bindingIdFor (binding.owned rest) = binding.id := rfl

/-- The names of a binding give its key. -/
theorem id_eq_of_names {binding other : Binding N} (h : binding.names = other.names) :
    binding.id = other.id := by
  have hmodule : binding.fromModule = other.fromModule := congrArg Navigation.Binding.fromModule h
  have hnamespace : binding.namespace_ = other.namespace_ :=
    congrArg Navigation.Binding.namespace_ h
  have hname : binding.visibleName = other.visibleName :=
    String.toList_inj.1 (congrArg Navigation.Binding.visibleName h)
  have htarget : binding.target = other.target := congrArg Navigation.Binding.target h
  rw [id, id, hmodule, hnamespace, hname, htarget]

end Binding

/-! ### The snapshot -/

/-- Each table in the byte order of its ids, and what `fs::read` gives for a file of the
workspace. -/
structure OpenedSnapshot (N : Type) where
  /-- `nodes_by_id` -/
  nodes : List (Node N)
  nodup : (nodes.map Node.id).Nodup
  /-- `bindings_by_id` -/
  bindings : List (Binding N)
  distinct : (bindings.map Binding.id).Nodup
  /-- `usages_by_id` -/
  usages : List (Usage N)
  /-- `children_by_parent` -/
  childrenByParent : N → List N
  read : String → Option Bytes

section Lookup

variable [DecidableEq N] {V : Type} {view : Node N → V} {idOf : V → N}

/-- **What is found in a view is the view of what is found**, as long as the view keeps the id. -/
theorem find?_map_view (h : ∀ node, idOf (view node) = node.id) (nodes : List (Node N)) (id : N) :
    (nodes.map view).find? (fun v ↦ idOf v = id) =
      (nodes.find? fun node ↦ node.id = id).map view := by
  have hsame : (fun node ↦ decide (idOf (view node) = id)) = fun node ↦ decide (node.id = id) :=
    funext fun node ↦ by rw [h]
  rw [List.find?_map]
  exact congrArg (fun p ↦ (nodes.find? p).map view) hsame

omit [DecidableEq N] in
theorem map_id_view (h : ∀ node, idOf (view node) = node.id) (nodes : List (Node N)) :
    (nodes.map view).map idOf = nodes.map Node.id := by
  rw [List.map_map]
  exact List.map_congr_left fun node _ ↦ h node

end Lookup

namespace OpenedSnapshot

/-! ### The snapshots of the queries -/

section Snapshots

variable [DecidableEq N] (snap : OpenedSnapshot N)

/-- The node of an id. -/
def get (id : N) : Option (Node N) :=
  snap.nodes.find? fun node ↦ node.id = id

/-- What names are looked up in. -/
def names : Navigation.OpenedSnapshot N where
  nodes := snap.nodes.map Node.names
  nodup := (map_id_view Node.names_id snap.nodes).symm ▸ snap.nodup
  bindings := snap.bindings.map Binding.names

/-- What the crate edges are counted in. -/
def references : CrateEdges.OpenedSnapshot N where
  toOpenedSnapshot := snap.names
  usages := snap.usages

/-- What the dependencies of a module are counted in. -/
def dependencies : ModuleGraph.OpenedSnapshot N where
  toReferences := snap.references
  parentId id := (snap.get id).bind Node.parentId
  declarationModule id := (snap.get id).bind Node.declarationModule

/-- The visibility of the binding with these names. -/
def bindingVisibility (binding : Navigation.Binding N) : BindingVisibility N :=
  ((snap.bindings.find? fun b ↦ b.names = binding).map Binding.visibility).getD .private_

/-- What a module tree is built from. -/
def trees : ModuleTree.OpenedSnapshot N where
  toLookups := snap.names
  parentId id := (snap.get id).bind Node.parentId
  visibility node := ((snap.get node.id).bind Node.visibility).map String.toList
  bindingVisibility := snap.bindingVisibility
  childrenByParent := snap.childrenByParent

/-- What dead `pub` is looked for in. -/
def exports : DeadPub.OpenedSnapshot N where
  toLookups := snap.names
  parentId id := (snap.get id).bind Node.parentId
  bindingVisibility := snap.bindingVisibility
  usages := snap.usages

/-- What the chains of re-exports are walked in. -/
def reExports : ReExports.OpenedSnapshot N where
  nodes := snap.names.nodes
  nodup := snap.names.nodup
  bindings := snap.bindings.map Binding.reExported

/-- What a line range is looked up in. -/
def lines : Codemap.OpenedSnapshot N where
  nodes := snap.nodes.map Node.placed
  nodup := (map_id_view Node.placed_id snap.nodes).symm ▸ snap.nodup
  read := snap.read

/-- The usages point at nodes. -/
structure Closed : Prop where
  targets : ∀ usage ∈ snap.usages, ∃ node ∈ snap.nodes, node.id = usage.target
  owners : ∀ usage ∈ snap.usages, ∀ owner, usage.consumerItem = some owner →
    ∃ node ∈ snap.nodes, node.id = owner

omit [DecidableEq N] in
theorem hasNode_mapped {id : N} :
    CodemapBuild.HasNode (snap.nodes.map Node.mapped) id ↔ ∃ node ∈ snap.nodes, node.id = id := by
  simp [CodemapBuild.HasNode]

/-- What a codemap is built from. -/
def mapped (h : snap.Closed) (extractSnippet : Name → ℕ → Option Name) :
    CodemapBuild.OpenedSnapshot N where
  nodes := snap.nodes.map Node.mapped
  nodup := (@map_id_view N _ Node.mapped (fun node ↦ node.id) Node.mapped_id snap.nodes).symm ▸
    snap.nodup
  usages := snap.usages
  targets usage husage := snap.hasNode_mapped.2 (h.targets usage husage)
  owners usage husage owner howner := snap.hasNode_mapped.2 (h.owners usage husage owner howner)
  read file := snap.read (String.ofList file)
  extractSnippet := extractSnippet

end Snapshots

/-! ### What the queries agree on -/

section Agree

variable [LinearOrder N] {snap : OpenedSnapshot N} {id : N}

/-- **All lookups are in one snapshot.** -/
theorem lookups_eq : snap.references.toOpenedSnapshot = snap.names ∧
    snap.dependencies.toReferences = snap.references ∧ snap.trees.toLookups = snap.names ∧
      snap.exports.toLookups = snap.names :=
  ⟨rfl, rfl, rfl, rfl⟩

theorem get_names : snap.names.get id = (snap.get id).map Node.names :=
  find?_map_view Node.names_id snap.nodes id

theorem get_mapped {h : snap.Closed} {extractSnippet : Name → ℕ → Option Name} :
    (snap.mapped h extractSnippet).get id = (snap.get id).map Node.mapped :=
  @find?_map_view N _ _ Node.mapped (fun node ↦ node.id) Node.mapped_id snap.nodes id

theorem get_of_mem {node : Node N} (h : node ∈ snap.nodes) : snap.get node.id = some node := by
  rcases hget : snap.get node.id with - | other
  · exact absurd (decide_eq_true rfl) (List.find?_eq_none.1 hget node h)
  · have hid : other.id = node.id := by simpa using List.find?_some hget
    rw [List.inj_on_of_nodup_map snap.nodup (List.mem_of_find?_eq_some hget) h hid]

/-- **One name, four readings.** -/
theorem qualifiedName_eq {h : snap.Closed} {extractSnippet : Name → ℕ → Option Name} :
    snap.reExports.qualifiedName id = snap.references.nodeQual id ∧
      (snap.mapped h extractSnippet).nodeQualifiedName id = snap.references.nodeQual id := by
  refine ⟨rfl, ?_⟩
  rw [CodemapBuild.OpenedSnapshot.nodeQualifiedName, get_mapped,
    CrateEdges.OpenedSnapshot.nodeQual]
  show _ = ((snap.names.get id).map Navigation.Node.qualifiedName).getD []
  rw [get_names, Option.map_map, Option.map_map]
  rfl

/-- **One crate.** -/
theorem crate_eq : snap.exports.crateOf id = snap.references.nodeToCrate id :=
  rfl

/-- The names of a binding are those of one stored binding only. -/
theorem bindingVisibility_eq {binding : Binding N} (h : binding ∈ snap.bindings) :
    snap.bindingVisibility binding.names = binding.visibility := by
  rw [bindingVisibility]
  rcases hfind : snap.bindings.find? fun b ↦ b.names = binding.names with - | other
  · exact absurd (decide_eq_true rfl) (List.find?_eq_none.1 hfind binding h)
  · have hnames : other.names = binding.names := by simpa using List.find?_some hfind
    have hsame := List.inj_on_of_nodup_map snap.distinct (List.mem_of_find?_eq_some hfind) h
      (Binding.id_eq_of_names hnames)
    rw [hfind, hsame]
    rfl

/-- **The bindings of a target** are the same to the chains of re-exports and to dead `pub`. -/
theorem bindingsForTarget_eq (target : N) :
    (snap.reExports.bindingsForTarget target).map ReExports.Binding.toBinding =
      snap.exports.bindingsForTarget target := by
  show ((snap.bindings.map Binding.reExported).filter _).map _ =
    (snap.bindings.map Binding.names).filter _
  rw [List.filter_map, List.filter_map, List.map_map]
  rfl

/-- **A line range leads to a node** of the file, an item, which a codemap can be built from. -/
theorem enclosingItem_get {file : String} {lineStart lineEnd : ℕ}
    (h : Codemap.enclosingItemForLineRange snap.lines file lineStart lineEnd = some id) :
    ∃ node ∈ snap.nodes, node.id = id ∧ node.kind = .item ∧ node.file = some file ∧
      snap.names.get id = some node.names := by
  obtain ⟨span, hspan, rfl⟩ := Codemap.exists_span h
  obtain ⟨placed, hplaced, hsome⟩ := List.mem_filterMap.1 hspan
  obtain ⟨node, hnode, rfl⟩ := List.mem_map.1 hplaced
  obtain ⟨hid, -⟩ := Codemap.spanOf_eq_some hsome
  obtain ⟨hkind, hsome⟩ := Option.ite_none_left_eq_some.1 hsome
  obtain ⟨hfile, -⟩ := Option.ite_none_left_eq_some.1 hsome
  have hget : snap.get span.id = some node := hid ▸ get_of_mem hnode
  exact ⟨node, hnode, hid, not_not.1 hkind, not_not.1 hfile, by rw [get_names, hget]; rfl⟩

/-- **An item that is listed for its attributes is a node**, which can be asked for by its id. -/
theorem lists_get {crateId : N} {pat : Name}
    (h : Surface.Lists (snap.nodes.map Node.attributed) crateId id pat) :
    ∃ node ∈ snap.nodes, node.id = id ∧ node.kind = .item ∧ node.crateId = some crateId ∧
      snap.names.get id = some node.names := by
  obtain ⟨attributed, hattributed, rfl, hkind, hcrate, -⟩ := Surface.lists_iff.1 h
  obtain ⟨node, hnode, rfl⟩ := List.mem_map.1 hattributed
  exact ⟨node, hnode, rfl, hkind, hcrate,
    by rw [get_names]; exact congrArg (Option.map _) (get_of_mem hnode)⟩

end Agree

/-! ### The tables -/

section Tables

variable [LinearOrder N] {Embedding : Type} {snap : OpenedSnapshot N}

/-- The tables have the rows of the snapshot, whatever else is stored with them. -/
structure Holds (snap : OpenedSnapshot N) (dbs : GraphDatabases N Rest Embedding)
    (ofNode : Node N → Rest) (ofBinding : Binding N → Rest) : Prop where
  nodes : ∀ id, dbs.plain (.nodesById id) = (snap.get id).map (Node.owned · ofNode)
  bindings : ∀ binding ∈ snap.bindings,
    dbs.plain (.bindingsById binding.id) = some (binding.owned ofBinding)
  usages : ∀ usage, (∃ id, dbs.plain (.usagesById id) = some usage) ↔ usage ∈ snap.usages

/-- The rows of an extraction. -/
structure Extracts (snap : OpenedSnapshot N) (model : ExtractionModel N Rest)
    (ofNode : Node N → Rest) (ofBinding : Binding N → Rest) : Prop where
  nodes : model.nodes = snap.nodes.map (Node.owned · ofNode)
  bindings : model.bindings = snap.bindings.map (Binding.owned · ofBinding)
  usages : model.usages = snap.usages

variable {ofNode : Node N → Rest} {ofBinding : Binding N → Rest}

/-- **A full write leaves the rows of the extraction**, if each stub is named by a binding. -/
theorem holds_tables {model : ExtractionModel N Rest}
    (h : snap.Extracts model ofNode ofBinding) (hresolved : model.Resolved)
    (hfunctions : model.FunctionsInIds) (hnamed : model.StubsNamed) :
    snap.Holds (model.tables fun _ ↦ true : GraphDatabases N Rest Embedding) ofNode ofBinding where
  nodes id := by
    rw [ExtractionModel.tables_node hresolved hnamed, ExtractionModel.get, h.nodes]
    exact @find?_map_view N _ _ (Node.owned · ofNode) Ownership.Node.id
      (fun node ↦ node.owned_id ofNode) snap.nodes id
  bindings binding hbinding := by
    have hdistinct : (model.bindings.map Ownership.bindingIdFor).Nodup := by
      rw [h.bindings, List.map_map]
      exact snap.distinct
    have hmem : binding.owned ofBinding ∈ model.bindings :=
      h.bindings ▸ List.mem_map_of_mem hbinding
    exact ExtractionModel.tables_binding hresolved hdistinct hmem
  usages usage := by
    rw [← h.usages]
    exact ExtractionModel.tables_usages hresolved hfunctions

/-- **The calls of a snapshot are those of its usages**, and the names in a call graph are those of
the references. -/
theorem Holds.opened {opened : Ownership.OpenedSnapshot N Rest Embedding}
    (h : snap.Holds opened.dbs ofNode ofBinding) :
    (∀ id, (opened.qualifiedName id).toList = snap.references.nodeQual id) ∧
      ∀ usage, usage ∈ opened.usages ↔ usage ∈ snap.references.usages := by
  refine ⟨fun id ↦ ?_, h.usages⟩
  rw [Ownership.OpenedSnapshot.qualifiedName, h.nodes, CrateEdges.OpenedSnapshot.nodeQual]
  show _ = ((snap.names.get id).map Navigation.Node.qualifiedName).getD []
  rw [get_names]
  cases snap.get id <;> rfl

end Tables

end OpenedSnapshot

end Views

end RustCodeMcp
