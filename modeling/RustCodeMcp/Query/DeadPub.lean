import RustCodeMcp.Digraph.Worklist
import RustCodeMcp.Query.ModuleTree
import Mathlib.Algebra.BigOperators.Group.Finset.Piecewise

/-!
# Public items that nobody else names

A module exports to another what is visible there. The report names the public items of a crate that
no module of another crate imports or uses, as ones that could be declared `pub(crate)`. It is the
largest set of public items for which that hides nothing from a module that names it
(`isGreatest_reported`).

**Narrowing is an edit of the snapshot**: the declarations of the reported items are made
`pub(crate)` and everything else is kept. Whether it hides anything is then a question to
`exports_of` on the two snapshots, for every module that names an item. The largest harmless set of
public items exists, and the report is that set.

On the way to the largest set:

* `mem_moduleAncestors`: the walk up finds all modules above, and the module itself;
* `mem_reported`: an item is reported when it is public, and who names it is of its crate;
* `harmless_iff`: what may be narrowed of what is public is what the report names.
-/

namespace RustCodeMcp.DeadPub

open ModuleTree (BindingVisibility)
open Navigation Ranking Relation

/-- A snapshot with what its tables say of visibilities and uses. -/
structure OpenedSnapshot (N : Type) extends toLookups : Navigation.OpenedSnapshot N where
  parentId : N → Option N
  bindingVisibility : Binding N → BindingVisibility N
  usages : List (Ownership.Usage N)

/-- A public item that no other crate names. -/
structure DeadPubFinding (N : Type) where
  target : N
  qualifiedName : Name
  itemKind : ItemKind
  declaredVisibility : BindingVisibility N

/-- The findings of one crate. -/
structure CrateDeadPub (N : Type) where
  crateId : N
  crateQualifiedName : Name
  findings : List (DeadPubFinding N)

namespace OpenedSnapshot

variable {N : Type} [DecidableEq N] (snap : OpenedSnapshot N)

/-! ### Exports -/

/-- What a node is declared in. -/
def parent (id : N) : Option N :=
  (snap.get id).bind fun node ↦ snap.parentId node.id

/-- The walk up the tree; a module that has been seen ends it. -/
def ancestorsFrom : ℕ → Option N → Finset N → Finset N
  | 0, _, seen => seen
  | _ + 1, none, seen => seen
  | fuel + 1, some id, seen =>
    if id ∈ seen then seen else ancestorsFrom fuel (snap.parent id) (insert id seen)

/-- All but the last that is seen have nodes, and one more turn ends the walk. -/
def moduleAncestors (module : N) : Finset N :=
  snap.ancestorsFrom (snap.nodes.length + 2) (some module) ∅

/-- The crate of a node. -/
def crateOf (id : N) : Option N :=
  (snap.get id).bind Node.crateId

/-- Whether a binding can be seen from a module. -/
def isVisibleFrom (consumerCrate : Option N) (consumerAncestry : Finset N) :
    BindingVisibility N → Bool
  | .public_ => true
  | .private_ => false
  | .crate crateId => consumerCrate = some crateId
  | .restrictedTo ancestorId => ancestorId ∈ consumerAncestry

/-- The bindings of a module that another module sees. -/
def exportsOf (module consumer : N) : List (Binding N) :=
  (snap.bindingsForFromModule module).filter fun binding ↦
    isVisibleFrom (snap.crateOf consumer) (snap.moduleAncestors consumer)
      (snap.bindingVisibility binding)

/-! ### Findings -/

/-- The bindings of an item. -/
def bindingsForTarget (target : N) : List (Binding N) :=
  snap.bindings.filter fun binding ↦ binding.target = target

/-- The usages of an item. -/
def usagesForTarget (target : N) : List (Ownership.Usage N) :=
  snap.usages.filter fun usage ↦ usage.target = target

/-- A module with a node, in another crate. -/
def isExternal (crateId module : N) : Bool :=
  (snap.get module).any fun node ↦ node.crateId ≠ some crateId

/-- The finding about an item, if it is one. -/
def deadPub (crateId : N) (item : Node N) : Option (DeadPubFinding N) := do
  let bindings := snap.bindingsForTarget item.id
  let declared ← bindings.find? fun binding ↦ binding.kind = .declared
  match snap.bindingVisibility declared with
  | .public_ =>
    if bindings.any fun binding ↦
      binding.kind ≠ .declared && snap.isExternal crateId binding.fromModule then none
    else if (snap.usagesForTarget item.id).any fun usage ↦
      snap.isExternal crateId usage.consumerModule then none
    else
      let itemKind ← item.itemKind
      some ⟨item.id, item.qualifiedName, itemKind, .public_⟩
  | .private_ | .crate _ | .restrictedTo _ => none

/-- The findings of a crate. -/
def deadPubInCrate (crateId : N) : List (DeadPubFinding N) :=
  let candidates := snap.nodes.filter fun node ↦ node.kind = .item ∧ node.crateId = some crateId
  rankBy (fun finding ↦ OrderDual.toDual finding.qualifiedName)
    (candidates.filterMap (snap.deadPub crateId))

/-- The findings of all crates. -/
def deadPubReport : List (CrateDeadPub N) :=
  let crates := snap.nodes.filter fun node ↦ node.kind = .crate
  (rankBy (fun node ↦ OrderDual.toDual node.qualifiedName) crates).map fun node ↦
    ⟨node.id, node.qualifiedName, snap.deadPubInCrate node.id⟩

/-! ### What a report is for -/

/-- The items that the report names. -/
def reported : List N :=
  snap.deadPubReport.flatMap fun row ↦ row.findings.map DeadPubFinding.target

/-- An item of a crate that its first declaration makes public. -/
def IsPub (item : N) : Prop :=
  ∃ node ∈ snap.nodes, ∃ krate ∈ snap.nodes, ∃ itemKind, ∃ declared,
    node.id = item ∧ node.kind = .item ∧ node.itemKind = some itemKind ∧
    krate.kind = .crate ∧ node.crateId = some krate.id ∧
    (snap.bindingsForTarget item).find? (fun binding ↦ binding.kind = .declared) = some declared ∧
    snap.bindingVisibility declared = .public_

/-- A module that has a node imports or uses an item. -/
def Names (consumer item : N) : Prop :=
  (snap.get consumer).isSome ∧
    ((∃ binding ∈ snap.bindings, binding.fromModule = consumer ∧ binding.target = item ∧
      binding.kind ≠ .declared) ∨
    ∃ usage ∈ snap.usages, usage.consumerModule = consumer ∧ usage.target = item)

/-- What a module may see. -/
def Sees (consumer : N) : BindingVisibility N → Prop
  | .public_ => True
  | .private_ => False
  | .crate crateId => snap.crateOf consumer = some crateId
  | .restrictedTo ancestorId => ReflTransGen (fun a b ↦ snap.parent a = some b) consumer ancestorId

/-- The public declarations of these items, made `pub(crate)`. -/
def narrow (items : Finset N) : OpenedSnapshot N :=
  { snap with
    bindingVisibility := fun binding ↦
      match snap.bindingVisibility binding, snap.crateOf binding.target with
      | .public_, some crateId =>
        if binding.target ∈ items ∧ binding.kind = .declared then .crate crateId else .public_
      | visibility, _ => visibility }

/-- Whoever names an item is exported the same bindings to it as before. -/
def Harmless (items : Finset N) : Prop :=
  ∀ consumer item, snap.Names consumer item → ∀ binding, binding.target = item → ∀ module,
    binding ∈ (snap.narrow items).exportsOf module consumer ↔
      binding ∈ snap.exportsOf module consumer

variable {snap} {items : Finset N} {module consumer item crateId x : N} {binding : Binding N}
  {node : Node N} {finding : DeadPubFinding N}

/-! ### What is exported -/

theorem ancestorsFrom_eq (fuel : ℕ) (cur : Option N) (seen : Finset N) :
    snap.ancestorsFrom fuel cur seen =
      Worklist.reach (fun id ↦ (snap.parent id).toList) fuel cur.toList seen := by
  induction fuel generalizing cur seen with
  | zero => rfl
  | succ fuel ih =>
    cases cur with
    | none => rfl
    | some id =>
      rw [ancestorsFrom, Option.toList_some, Worklist.reach, ih]
      split_ifs
      · cases fuel <;> rfl
      · cases snap.parent id <;> rfl

theorem exists_of_parent (h : snap.parent module = some x) :
    ∃ node ∈ snap.nodes, node.id = module ∧ snap.parentId node.id = some x := by
  obtain ⟨node, hget, hparent⟩ := Option.bind_eq_some_iff.1 h
  obtain ⟨hmem, hid⟩ := Navigation.OpenedSnapshot.get_eq_some.1 hget
  exact ⟨node, hmem, hid, hparent⟩

/-- **The walk up finds all modules above**, and the module itself. -/
theorem mem_moduleAncestors : x ∈ snap.moduleAncestors module ↔
    ReflTransGen (fun a b ↦ snap.parent a = some b) module x := by
  let ids := (snap.nodes.map Node.id).toFinset
  let parents := (snap.nodes.filterMap fun node ↦ snap.parentId node.id).toFinset
  let U := insert module (ids ∪ parents)
  have hclosed : ∀ v ∈ U, ∀ w ∈ (snap.parent v).toList, w ∈ U := by
    intro v _ w hw
    obtain ⟨node, hmem, -, hparent⟩ := exists_of_parent (Option.mem_toList.1 hw)
    exact Finset.mem_insert_of_mem (Finset.mem_union_right _
      (List.mem_toFinset.2 (List.mem_filterMap.2 ⟨node, hmem, hparent⟩)))
  -- Only a node has a parent, so that many turns are taken at most.
  have hturns : Worklist.turns (fun id ↦ (snap.parent id).toList) U [module] ∅ ≤
      snap.nodes.length + 2 := by
    have hlength : ∀ v, (snap.parent v).toList.length ≤ if v ∈ ids then 1 else 0 := by
      intro v
      cases hparent : snap.parent v with
      | none => simp
      | some w =>
        obtain ⟨node, hmem, rfl, -⟩ := exists_of_parent hparent
        rw [if_pos (List.mem_toFinset.2 (List.mem_map_of_mem hmem))]
        rfl
    have hsum : ∑ v ∈ U \ ∅, (snap.parent v).toList.length ≤ snap.nodes.length :=
      calc ∑ v ∈ U \ ∅, (snap.parent v).toList.length
        _ ≤ ∑ v ∈ U \ ∅, (if v ∈ ids then 1 else 0) := Finset.sum_le_sum fun v _ ↦ hlength v
        _ = ((U \ ∅).filter (· ∈ ids)).card := (Finset.card_filter _ _).symm
        _ ≤ ids.card := Finset.card_le_card fun v hv ↦ (Finset.mem_filter.1 hv).2
        _ ≤ snap.nodes.length := (List.toFinset_card_le _).trans_eq (List.length_map _)
    rw [Worklist.turns, List.length_singleton]
    omega
  have hroots : ∀ v ∈ [module], v ∈ U := fun v hv ↦ by
    rw [List.mem_singleton.1 hv]
    exact Finset.mem_insert_self _ _
  have hreach := Worklist.mem_reach (w := x) hroots hclosed hturns
  rw [moduleAncestors, ancestorsFrom_eq]
  rw [List.reverse_singleton] at hreach
  simpa [Option.mem_toList] using hreach

theorem mem_exportsOf : binding ∈ snap.exportsOf module consumer ↔
    binding ∈ snap.bindings ∧ binding.fromModule = module ∧
      snap.Sees consumer (snap.bindingVisibility binding) := by
  rw [exportsOf, Navigation.OpenedSnapshot.bindingsForFromModule, List.mem_filter, List.mem_filter,
    decide_eq_true_eq, and_assoc]
  refine and_congr_right fun _ ↦ and_congr_right fun _ ↦ ?_
  cases snap.bindingVisibility binding with
  | public_ => simp [isVisibleFrom, Sees]
  | private_ => simp [isVisibleFrom, Sees]
  | crate id => rw [isVisibleFrom, decide_eq_true_eq, Sees]
  | restrictedTo id => rw [isVisibleFrom, decide_eq_true_eq, Sees, mem_moduleAncestors]

/-! ### What is narrowed -/

theorem narrow_sees : (snap.narrow items).Sees consumer = snap.Sees consumer := by
  funext visibility
  cases visibility <;> rfl

theorem narrow_public (hitem : binding.target ∈ items) (hkind : binding.kind = .declared)
    (hpublic : snap.bindingVisibility binding = .public_)
    (hcrate : snap.crateOf binding.target = some crateId) :
    (snap.narrow items).bindingVisibility binding = .crate crateId := by
  simp only [narrow, hpublic, hcrate, hitem, hkind, and_self, if_true]

/-- A binding keeps its visibility, or is public and comes to be that of its crate. -/
theorem narrow_cases (snap : OpenedSnapshot N) (items : Finset N) (binding : Binding N) :
    (snap.narrow items).bindingVisibility binding = snap.bindingVisibility binding ∨
      ∃ crateId, binding.target ∈ items ∧ snap.bindingVisibility binding = .public_ ∧
        snap.crateOf binding.target = some crateId ∧
        (snap.narrow items).bindingVisibility binding = .crate crateId := by
  cases hvisibility : snap.bindingVisibility binding with
  | public_ =>
    cases hcrate : snap.crateOf binding.target with
    | none => exact .inl (by simp only [narrow, hvisibility, hcrate])
    | some crateId =>
      by_cases h : binding.target ∈ items ∧ binding.kind = .declared
      · exact .inr ⟨crateId, h.1, rfl, rfl, narrow_public h.1 h.2 hvisibility hcrate⟩
      · exact .inl (by simp only [narrow, hvisibility, hcrate, if_neg h])
  | private_ => exact .inl (by simp only [narrow, hvisibility])
  | crate id => exact .inl (by simp only [narrow, hvisibility])
  | restrictedTo id => exact .inl (by simp only [narrow, hvisibility])

/-! ### What is reported -/

theorem isExternal_eq_true : snap.isExternal crateId module = true ↔
    (snap.get module).isSome ∧ snap.crateOf module ≠ some crateId := by
  rw [isExternal, crateOf]
  cases snap.get module <;> simp

/-- What the two looks for consumers find. -/
theorem external_iff : (((snap.bindingsForTarget item).any fun binding ↦
      binding.kind ≠ .declared && snap.isExternal crateId binding.fromModule) = true ∨
    ((snap.usagesForTarget item).any fun usage ↦
      snap.isExternal crateId usage.consumerModule) = true) ↔
    ∃ consumer, snap.Names consumer item ∧ snap.crateOf consumer ≠ some crateId := by
  simp only [bindingsForTarget, usagesForTarget, List.any_eq_true, List.mem_filter,
    Bool.and_eq_true, decide_eq_true_eq, isExternal_eq_true]
  constructor
  · rintro (⟨binding, ⟨hmem, htarget⟩, hkind, hsome, hcrate⟩ |
      ⟨usage, ⟨hmem, htarget⟩, hsome, hcrate⟩)
    · exact ⟨_, ⟨hsome, .inl ⟨binding, hmem, rfl, htarget, hkind⟩⟩, hcrate⟩
    · exact ⟨_, ⟨hsome, .inr ⟨usage, hmem, rfl, htarget⟩⟩, hcrate⟩
  · rintro ⟨_, ⟨hsome, ⟨binding, hmem, rfl, htarget, hkind⟩ | ⟨usage, hmem, rfl, htarget⟩⟩, hcrate⟩
    · exact .inl ⟨binding, ⟨hmem, htarget⟩, hkind, hsome, hcrate⟩
    · exact .inr ⟨usage, ⟨hmem, htarget⟩, hsome, hcrate⟩

/-- Nobody of another crate names an item. -/
theorem home_iff : (∀ consumer, snap.Names consumer item → snap.crateOf consumer = some crateId) ↔
    ¬ ∃ consumer, snap.Names consumer item ∧ snap.crateOf consumer ≠ some crateId := by
  simp only [not_exists, not_and, not_not]

/-- When there is a finding, and what it says. -/
theorem deadPub_eq_some : snap.deadPub crateId node = some finding ↔
    (∃ declared, (snap.bindingsForTarget node.id).find? (fun binding ↦ binding.kind = .declared) =
      some declared ∧ snap.bindingVisibility declared = .public_) ∧
    (∀ consumer, snap.Names consumer node.id → snap.crateOf consumer = some crateId) ∧
    ∃ itemKind, node.itemKind = some itemKind ∧
      finding = ⟨node.id, node.qualifiedName, itemKind, .public_⟩ := by
  rw [home_iff, ← external_iff, not_or, Bool.not_eq_true, Bool.not_eq_true]
  refine Option.bind_eq_some_iff.trans ⟨?_, ?_⟩
  · rintro ⟨declared, hfind, hrest⟩
    cases hvisibility : snap.bindingVisibility declared with
    | public_ =>
      simp only [hvisibility] at hrest
      split_ifs at hrest with himport huse
      obtain ⟨itemKind, hkind, hfinding⟩ := Option.bind_eq_some_iff.1 hrest
      exact ⟨⟨declared, hfind, hvisibility⟩,
        ⟨Bool.eq_false_iff.2 himport, Bool.eq_false_iff.2 huse⟩, itemKind, hkind,
        (Option.some.inj hfinding).symm⟩
    | private_ | crate _ | restrictedTo _ => simp [hvisibility] at hrest
  · rintro ⟨⟨declared, hfind, hvisibility⟩, ⟨himport, huse⟩, itemKind, hkind, rfl⟩
    refine ⟨declared, hfind, ?_⟩
    simp only [hvisibility]
    rw [if_neg (Bool.eq_false_iff.1 himport), if_neg (Bool.eq_false_iff.1 huse), hkind]
    rfl

theorem mem_targets : item ∈ (snap.deadPubInCrate crateId).map DeadPubFinding.target ↔
    ∃ node ∈ snap.nodes, node.id = item ∧ node.kind = .item ∧ node.crateId = some crateId ∧
      (snap.deadPub crateId node).isSome := by
  rw [deadPubInCrate, ((rankBy_perm _ _).map _).mem_iff]
  simp only [List.mem_map, List.mem_filterMap, List.mem_filter, decide_eq_true_eq]
  constructor
  · rintro ⟨finding, ⟨node, ⟨hmem, hkind, hcrate⟩, hfinding⟩, rfl⟩
    obtain ⟨-, -, itemKind, -, rfl⟩ := deadPub_eq_some.1 hfinding
    exact ⟨node, hmem, rfl, hkind, hcrate, by rw [hfinding]; rfl⟩
  · rintro ⟨node, hmem, rfl, hkind, hcrate, hsome⟩
    obtain ⟨finding, hfinding⟩ := Option.isSome_iff_exists.1 hsome
    obtain ⟨-, -, itemKind, -, rfl⟩ := deadPub_eq_some.1 hfinding
    exact ⟨_, ⟨node, ⟨hmem, hkind, hcrate⟩, hfinding⟩, rfl⟩

theorem crateOf_id (h : node ∈ snap.nodes) : snap.crateOf node.id = node.crateId := by
  rw [crateOf, Navigation.OpenedSnapshot.get_eq_some.2 ⟨h, rfl⟩, Option.bind_some]

/-- **An item is reported** when it is public, and who names it is of its crate. -/
theorem mem_reported : item ∈ snap.reported ↔ snap.IsPub item ∧
    ∀ consumer, snap.Names consumer item → snap.crateOf consumer = snap.crateOf item := by
  simp only [reported, deadPubReport, List.mem_flatMap, List.mem_map, (rankBy_perm _ _).mem_iff,
    List.mem_filter, decide_eq_true_eq]
  constructor
  · rintro ⟨row, ⟨krate, ⟨hkrate, hcrate⟩, rfl⟩, hitem⟩
    obtain ⟨node, hmem, rfl, hkind, hhome, hsome⟩ := mem_targets.1 (List.mem_map.2 hitem)
    obtain ⟨finding, hfinding⟩ := Option.isSome_iff_exists.1 hsome
    obtain ⟨⟨declared, hfind, hpublic⟩, hnames, itemKind, hitemKind, -⟩ :=
      deadPub_eq_some.1 hfinding
    rw [crateOf_id hmem, hhome]
    exact ⟨⟨node, hmem, krate, hkrate, itemKind, declared, rfl, hkind, hitemKind, hcrate, hhome,
      hfind, hpublic⟩, hnames⟩
  · rintro ⟨⟨node, hmem, krate, hkrate, itemKind, declared, rfl, hkind, hitemKind, hcrate, hhome,
      hfind, hpublic⟩, hnames⟩
    rw [crateOf_id hmem, hhome] at hnames
    have hfinding := deadPub_eq_some.2
      ⟨⟨declared, hfind, hpublic⟩, hnames, itemKind, hitemKind, rfl⟩
    exact ⟨_, ⟨krate, ⟨hkrate, hcrate⟩, rfl⟩, List.mem_map.1
      (mem_targets.2 ⟨node, hmem, rfl, hkind, hhome, by rw [hfinding]; rfl⟩)⟩

/-! ### The largest set -/

/-- **What may be narrowed** of what is public is what the report names. -/
theorem harmless_iff (hitems : ∀ item ∈ items, snap.IsPub item) :
    snap.Harmless items ↔ ∀ item ∈ items, item ∈ snap.reported := by
  constructor
  · intro hharmless item hitem
    refine mem_reported.2 ⟨hitems item hitem, fun consumer hnames ↦ ?_⟩
    obtain ⟨node, hmem, krate, -, -, declared, rfl, -, -, -, hhome, hfind, hpublic⟩ :=
      hitems item hitem
    obtain ⟨hdeclared, htarget⟩ := List.mem_filter.1 (List.mem_of_find?_eq_some hfind)
    have htarget : declared.target = node.id := of_decide_eq_true htarget
    have hkind : declared.kind = .declared := by simpa using List.find?_some hfind
    have hcrate : snap.crateOf declared.target = some krate.id := by
      rw [htarget, crateOf_id hmem, hhome]
    -- The declaration was exported to the consumer, and so it is.
    have hexported := (hharmless consumer _ hnames declared htarget declared.fromModule).2
      (mem_exportsOf.2 ⟨hdeclared, rfl, by rw [hpublic]; trivial⟩)
    obtain ⟨-, -, hsees⟩ := mem_exportsOf.1 hexported
    rw [narrow_sees, narrow_public (htarget ▸ hitem) hkind hpublic hcrate] at hsees
    rw [← htarget, hcrate]
    exact hsees
  · rintro hreported consumer item hnames binding rfl module
    rw [mem_exportsOf, mem_exportsOf, narrow_sees]
    refine and_congr_right fun _ ↦ and_congr_right fun _ ↦ ?_
    obtain hsame | ⟨crateId, hitem, hpublic, hcrate, hnarrow⟩ := narrow_cases snap items binding
    · rw [hsame]
    · -- It is of the crate that the binding is for now.
      have hhome := (mem_reported.1 (hreported _ hitem)).2 consumer hnames
      rw [hnarrow, hpublic]
      exact iff_of_true (hhome.trans hcrate) trivial

theorem map_target (nodes : List (Node N)) :
    (nodes.filterMap (snap.deadPub crateId)).map DeadPubFinding.target =
      (nodes.filter fun node ↦ (snap.deadPub crateId node).isSome).map Node.id := by
  induction nodes with
  | nil => rfl
  | cons node nodes ih =>
    cases hfinding : snap.deadPub crateId node with
    | none =>
      rw [List.filterMap_cons_none hfinding, List.filter_cons_of_neg (by simp [hfinding]), ih]
    | some finding =>
      obtain ⟨-, -, itemKind, -, rfl⟩ := deadPub_eq_some.1 hfinding
      rw [List.filterMap_cons_some hfinding, List.filter_cons_of_pos (by simp [hfinding]),
        List.map_cons, List.map_cons, ih]

theorem nodup_targets (crateId : N) :
    ((snap.deadPubInCrate crateId).map DeadPubFinding.target).Nodup := by
  rw [deadPubInCrate, ((rankBy_perm _ _).map _).nodup_iff, map_target]
  exact ((List.filter_sublist.trans List.filter_sublist).map _).nodup snap.nodup

theorem nodup_reported : snap.reported.Nodup := by
  have hids : ((rankBy (fun node : Node N ↦ OrderDual.toDual node.qualifiedName)
      (snap.nodes.filter fun node ↦ node.kind = .crate)).map Node.id).Nodup :=
    ((rankBy_perm _ _).map _).nodup_iff.2 ((List.filter_sublist.map _).nodup snap.nodup)
  rw [reported, deadPubReport, List.flatMap_map, List.nodup_flatMap]
  refine ⟨fun krate _ ↦ nodup_targets krate.id, (List.pairwise_map.1 hids).imp ?_⟩
  -- An item is of one crate.
  intro krate other hne item hitem hother
  obtain ⟨node, hmem, rfl, -, hcrate, -⟩ := mem_targets.1 hitem
  obtain ⟨same, hsame, hid, -, hcrate', -⟩ := mem_targets.1 hother
  rw [List.inj_on_of_nodup_map snap.nodup hsame hmem hid, hcrate] at hcrate'
  exact hne (Option.some.inj hcrate')

/-- **The report is the largest set** of public items that can be made `pub(crate)` and leaves
everyone who names one of them with what they are exported. It names an item once. -/
theorem isGreatest_reported (snap : OpenedSnapshot N) : snap.reported.Nodup ∧
    IsGreatest {items : Finset N | (∀ item ∈ items, snap.IsPub item) ∧ snap.Harmless items}
      snap.reported.toFinset := by
  have hpub : ∀ item ∈ snap.reported.toFinset, snap.IsPub item := fun item hitem ↦
    (mem_reported.1 (List.mem_toFinset.1 hitem)).1
  refine ⟨nodup_reported, ⟨hpub, (harmless_iff hpub).2 fun item ↦ List.mem_toFinset.1⟩, ?_⟩
  rintro items ⟨hitems, hharmless⟩ item hitem
  exact List.mem_toFinset.2 ((harmless_iff hitems).1 hharmless item hitem)

end OpenedSnapshot

/-- Two public items of `a`, one of which `b` uses. -/
def lending : OpenedSnapshot ℕ where
  nodes := [⟨0, .crate, ['a'], ['a'], some 0, none, none, none⟩,
    ⟨1, .crate, ['b'], ['b'], some 1, none, none, none⟩,
    ⟨2, .item, ['f'], ['a', ':', ':', 'f'], some 0, some .function, none, none⟩,
    ⟨3, .item, ['g'], ['a', ':', ':', 'g'], some 0, some .function, none, none⟩]
  nodup := by decide
  bindings := [⟨0, .value, ['f'], 2, .declared⟩, ⟨0, .value, ['g'], 3, .declared⟩]
  parentId id := if id = 2 ∨ id = 3 then some 0 else none
  bindingVisibility _ := .public_
  usages := [⟨2, 1, "b.rs", 0, 1, .other, none, none, .call, none⟩]

example : (lending.exportsOf 0 1).map Binding.target = [2, 3] ∧
    ((lending.narrow {3}).exportsOf 0 1).map Binding.target = [2] := by decide

end RustCodeMcp.DeadPub
