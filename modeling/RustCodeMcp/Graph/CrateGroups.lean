import RustCodeMcp.Digraph.PostOrder
import RustCodeMcp.Graph.Dirty
import RustCodeMcp.Order.Grouping
import RustCodeMcp.Order.Ranking

/-!
# The groups of a build, in order

The crates of a workspace that share a node are one group, and a build writes one group after
another. A depth-first walk over the groups, in the order of their names, lists them so that a group
comes after those it depends on (`crateGroups_spec`): the order that a build from the groups relies
on (`ordered_crateGroups`).

**A group is a node, not a crate**: crates of one name and file that are compiled for several
targets have one node, and are extracted together. So the groups are the classes of the local crates
by node, in the order of their names, and what one depends on is taken from any of its crates. The
walk over them is the generic one; that it finds no cycle is what cargo promises of packages, up to
a group's dependence on itself, and is a hypothesis of the order only.

A list of dirty crates is refused where it names what is not local or only a part of a group;
whatever it names else comes out as groups, each once.
-/

namespace RustCodeMcp.Extraction

open Grouping Ranking

/-- What is loaded of a workspace: the local crates, each a Cargo target, and what crates depend
on. -/
structure LoadedWorkspace (K N Name : Type) where
  localCrates : List K
  targetKey : K → Name
  crateNodeId : Name → N
  dependencies : K → List K

/-- The crates that share a node, under the name of the first. -/
structure CrateGroup (K N Name : Type) where
  id : N
  name : Name
  crates : List K
  ne_nil : crates ≠ []

/-- What is wrong with the crates that are to be built. -/
inductive GroupsError (K Name : Type)
  /-- "crate `{}` is not a local crate of {}" -/
  | notLocal (krate : K)
  /-- "crate `{}` is {} crates sharing one node; rebuild all of them or none" -/
  | partly (name : Name) (count : ℕ)
  /-- A slot is taken that is empty: a panic. -/
  | unwrap
  deriving DecidableEq

variable {K N Name : Type}

namespace CrateGroup

/-- The group of a crate that is alone so far. -/
def single (id : N) (name : Name) (krate : K) : CrateGroup K N Name :=
  ⟨id, name, [krate], List.cons_ne_nil _ _⟩

/-- The group with one more crate. -/
def push (group : CrateGroup K N Name) (krate : K) : CrateGroup K N Name :=
  ⟨group.id, group.name, group.crates ++ [krate], List.append_ne_nil_of_right_ne_nil _ (by simp)⟩

/-- The first crate of a group. -/
def first (group : CrateGroup K N Name) : K :=
  group.crates.head group.ne_nil

end CrateGroup

/-- Each slot is emptied when it is taken. -/
def takeSlots {α : Type} : List (Option α) → List ℕ → Option (List α)
  | _, [] => some []
  | slots, i :: order => do
    let a ← slots[i]?.join
    let rest ← takeSlots (slots.set i none) order
    some (a :: rest)

/-- The group a crate is in. -/
def groupOf [DecidableEq K] (groups : List (CrateGroup K N Name)) (krate : K) : Option ℕ :=
  groups.findIdx? fun group ↦ decide (krate ∈ group.crates)

namespace LoadedWorkspace

section Model

variable [DecidableEq K] [DecidableEq N] [LinearOrder Name] (w : LoadedWorkspace K N Name)

/-- The node of a crate. -/
def nodeId (krate : K) : N :=
  w.crateNodeId (w.targetKey krate)

/-- A crate joins the group of its node, or makes one. -/
def addCrate : List (CrateGroup K N Name) → K → List (CrateGroup K N Name)
  | [], krate => [.single (w.nodeId krate) (w.targetKey krate) krate]
  | group :: groups, krate =>
    if group.id = w.nodeId krate then group.push krate :: groups
    else group :: addCrate groups krate

/-- The groups of all local crates, by name. -/
def allGroups : List (CrateGroup K N Name) :=
  rankBy (fun group ↦ OrderDual.toDual group.name) (w.localCrates.foldl w.addCrate [])

/-- Where the groups are that a group depends on. -/
def groupDependencies (groups : List (CrateGroup K N Name)) (index : ℕ) : List ℕ :=
  ((groups[index]?.map CrateGroup.crates).getD []).flatMap fun krate ↦
    (w.dependencies krate).filterMap (groupOf groups)

/-- The places of the groups, each after those it depends on. -/
def order (groups : List (CrateGroup K N Name)) : List ℕ :=
  (PostOrder.visitAll (w.groupDependencies groups) groups.length (List.range groups.length)
    ⟨∅, []⟩).left

/-- Some crates of the group are dirty, and others are not. -/
def isPartly (dirty : List K) (group : CrateGroup K N Name) : Bool :=
  let inside := group.crates.countP fun krate ↦ decide (krate ∈ dirty)
  inside ≠ 0 && inside ≠ group.crates.length

/-- `crate_groups` -/
def crateGroups (dirty : List K) : Except (GroupsError K Name) (List (CrateGroup K N Name)) :=
  match dirty.find? fun krate ↦ decide (krate ∉ w.localCrates) with
  | some krate => .error (.notLocal krate)
  | none =>
    match w.allGroups.find? (isPartly dirty) with
    | some group => .error (.partly group.name group.crates.length)
    | none =>
      match takeSlots (w.allGroups.map some) (w.order w.allGroups) with
      | none => .error .unwrap
      | some groups => .ok (groups.filter fun group ↦ decide (group.first ∈ dirty))

end Model

/-! ### What the groups are to be -/

/-- Some crate of a group depends on one of another group. -/
def Needs (w : LoadedWorkspace K N Name) (a b : N) : Prop :=
  a ≠ b ∧ ∃ k ∈ w.localCrates, w.nodeId k = a ∧
    ∃ d ∈ w.dependencies k, d ∈ w.localCrates ∧ w.nodeId d = b

/-- The dependencies between groups have no cycle. -/
def Acyclic (w : LoadedWorkspace K N Name) : Prop :=
  ∀ a, ¬Relation.TransGen w.Needs a a

/-- All crates that share a node are dirty, or none is. -/
def Whole (w : LoadedWorkspace K N Name) (dirty : List K) : Prop :=
  ∀ k ∈ w.localCrates, ∀ k' ∈ w.localCrates, w.nodeId k = w.nodeId k' → k ∈ dirty → k' ∈ dirty

/-- Every error names what is wrong with the crates that are to be rebuilt. -/
def Names [DecidableEq N] (w : LoadedWorkspace K N Name) (dirty : List K) :
    GroupsError K Name → Prop
  | .notLocal k => k ∈ dirty ∧ k ∉ w.localCrates
  | .partly name count => ∃ k ∈ w.localCrates, ∃ k' ∈ w.localCrates, w.nodeId k = w.nodeId k' ∧
      k ∈ dirty ∧ k' ∉ dirty ∧
      some name = (w.localCrates.find? fun l ↦ w.nodeId l = w.nodeId k).map w.targetKey ∧
      count = w.localCrates.countP fun l ↦ w.nodeId l = w.nodeId k
  | .unwrap => False

/-- The groups of what is dirty, each once, and after every group it depends on, be it through
others. -/
structure Planned [DecidableEq N] (w : LoadedWorkspace K N Name) (dirty : List K)
    (groups : List (CrateGroup K N Name)) : Prop where
  nodup : (groups.map CrateGroup.id).Nodup
  crates : ∀ group ∈ groups, group.crates = w.localCrates.filter fun k ↦ w.nodeId k = group.id
  name : ∀ group ∈ groups, group.name = w.targetKey group.first
  mem : ∀ k, k ∈ dirty ↔ ∃ group ∈ groups, k ∈ group.crates
  inOrder : w.Acyclic → groups.Pairwise fun group group' ↦
    ¬Relation.TransGen w.Needs group.id group'.id

section Groups

variable [DecidableEq N] (w : LoadedWorkspace K N Name)

/-- One group for each node, with the local crates that share it. -/
structure Grouped (groups : List (CrateGroup K N Name)) : Prop where
  nodup : (groups.map CrateGroup.id).Nodup
  crates : ∀ group ∈ groups, group.crates = w.localCrates.filter fun k ↦ w.nodeId k = group.id
  name : ∀ group ∈ groups, group.name = w.targetKey group.first
  mem : ∀ k ∈ w.localCrates, ∃ group ∈ groups, group.id = w.nodeId k

variable {w} {groups groups' : List (CrateGroup K N Name)} {group : CrateGroup K N Name}
  {dirty : List K} {k : K} {i j : ℕ}

theorem map_addCrate (groups : List (CrateGroup K N Name)) (k : K) :
    (w.addCrate groups k).map (fun group ↦ (group.id, group.crates)) =
      Grouping.push (w.nodeId k) k (groups.map fun group ↦ (group.id, group.crates)) := by
  induction groups with
  | nil => rfl
  | cons group groups ih =>
    rw [addCrate, List.map_cons, Grouping.push]
    split
    · rfl
    · rw [List.map_cons, ih]

theorem map_foldl_addCrate (l : List K) :
    (l.foldl w.addCrate []).map (fun group ↦ (group.id, group.crates)) = groupBy w.nodeId l := by
  induction l using List.reverseRecOn with
  | nil => rfl
  | append_singleton l k ih =>
    rw [List.foldl_append, groupBy, List.foldl_append]
    show (w.addCrate _ k).map _ = Grouping.push _ _ (groupBy w.nodeId l)
    rw [map_addCrate, ih]

omit [DecidableEq N] in
theorem first_push (group : CrateGroup K N Name) (k : K) : (group.push k).first = group.first :=
  List.head_append_of_ne_nil _

theorem name_addCrate (h : ∀ group ∈ groups, group.name = w.targetKey group.first) (k : K) :
    ∀ group ∈ w.addCrate groups k, group.name = w.targetKey group.first := by
  induction groups with
  | nil =>
    intro group hgroup
    rw [List.mem_singleton.1 hgroup]
    rfl
  | cons group groups ih =>
    obtain ⟨hfirst, hrest⟩ := List.forall_mem_cons.1 h
    rw [addCrate]
    split
    · refine List.forall_mem_cons.2 ⟨?_, hrest⟩
      rw [first_push]
      exact hfirst
    · exact List.forall_mem_cons.2 ⟨hfirst, ih hrest⟩

/-- What the loop makes are the groups of the local crates. -/
theorem grouped_foldl_addCrate (w : LoadedWorkspace K N Name) :
    w.Grouped (w.localCrates.foldl w.addCrate []) := by
  have hgroups := groups_groupBy w.nodeId w.localCrates
  rw [← map_foldl_addCrate] at hgroups
  have hids : ((w.localCrates.foldl w.addCrate []).map fun group ↦ (group.id, group.crates)).map
      Prod.fst = (w.localCrates.foldl w.addCrate []).map CrateGroup.id := by
    rw [List.map_map]
    rfl
  refine ⟨hids ▸ hgroups.nodup, fun group hgroup ↦ ?_, ?_, fun k hk ↦ ?_⟩
  · exact hgroups.values _ (List.mem_map_of_mem hgroup)
  · suffices h : ∀ l : List K, ∀ group ∈ l.foldl w.addCrate [],
        group.name = w.targetKey group.first from h _
    intro l
    induction l using List.reverseRecOn with
    | nil => exact fun _ h ↦ absurd h List.not_mem_nil
    | append_singleton l k ih =>
      rw [List.foldl_append]
      exact name_addCrate ih k
  · have hid := (hgroups.keys (w.nodeId k)).2 (List.mem_map_of_mem hk)
    rw [hids] at hid
    exact List.mem_map.1 hid

theorem Grouped.perm (h : w.Grouped groups) (hperm : groups'.Perm groups) : w.Grouped groups' where
  nodup := (hperm.map _).nodup_iff.2 h.nodup
  crates group hgroup := h.crates group (hperm.mem_iff.1 hgroup)
  name group hgroup := h.name group (hperm.mem_iff.1 hgroup)
  mem k hk := by
    obtain ⟨group, hgroup, hid⟩ := h.mem k hk
    exact ⟨group, hperm.mem_iff.2 hgroup, hid⟩

theorem Grouped.mem_crates (h : w.Grouped groups) (hgroup : group ∈ groups) :
    k ∈ group.crates ↔ k ∈ w.localCrates ∧ w.nodeId k = group.id := by
  rw [h.crates group hgroup, List.mem_filter, decide_eq_true_iff]

theorem Grouped.eq_of_id (h : w.Grouped groups) {group' : CrateGroup K N Name}
    (hi : groups[i]? = some group) (hj : groups[j]? = some group') (hid : group.id = group'.id) :
    i = j := by
  refine (List.getElem?_inj ?_ h.nodup).1 ?_
  · rw [List.length_map]
    exact (List.getElem?_eq_some_iff.1 hi).1
  · rw [List.getElem?_map, List.getElem?_map, hi, hj, Option.map_some, Option.map_some, hid]

variable [DecidableEq K]

/-- A group is found by any of its crates. -/
theorem Grouped.groupOf_eq (h : w.Grouped groups) (hi : groups[i]? = some group)
    (hk : k ∈ group.crates) : groupOf groups k = some i := by
  obtain ⟨hlt, rfl⟩ := List.getElem?_eq_some_iff.1 hi
  refine List.findIdx?_eq_some_iff_getElem.2 ⟨hlt, decide_eq_true hk, fun j hj hmem ↦ ?_⟩
  have hid := ((h.mem_crates (List.getElem_mem _)).1 (of_decide_eq_true hmem)).2.symm.trans
    ((h.mem_crates (List.getElem_mem hlt)).1 hk).2
  exact hj.ne (h.eq_of_id (List.getElem?_eq_getElem (hj.trans hlt)) hi hid)

/-! ### The dependencies of groups -/

theorem mem_groupDependencies (h : w.Grouped groups) (hi : groups[i]? = some group) :
    j ∈ w.groupDependencies groups i ↔ ∃ group', groups[j]? = some group' ∧
      ∃ k ∈ group.crates, ∃ d ∈ w.dependencies k, d ∈ group'.crates := by
  rw [groupDependencies, hi, Option.map_some, Option.getD_some, List.mem_flatMap]
  constructor
  · rintro ⟨k, hk, hj⟩
    obtain ⟨d, hd, hof⟩ := List.mem_filterMap.1 hj
    obtain ⟨hlt, hmem, -⟩ := List.findIdx?_eq_some_iff_getElem.1 hof
    exact ⟨_, List.getElem?_eq_getElem hlt, k, hk, d, hd, of_decide_eq_true hmem⟩
  · rintro ⟨group', hj, k, hk, d, hd, hmem⟩
    exact ⟨k, hk, List.mem_filterMap.2 ⟨d, hd, h.groupOf_eq hj hmem⟩⟩

/-- An edge of the walk is a need of one group for another. -/
theorem edge_iff (h : w.Grouped groups) {group' : CrateGroup K N Name}
    (hi : groups[i]? = some group) (hj : groups[j]? = some group') :
    PostOrder.Edge (w.groupDependencies groups) i j ↔ w.Needs group.id group'.id := by
  have hgroup := List.mem_of_getElem? hi
  have hgroup' := List.mem_of_getElem? hj
  rw [PostOrder.Edge, mem_groupDependencies h hi]
  constructor
  · rintro ⟨⟨group'', hj', k, hk, d, hd, hmem⟩, hne⟩
    obtain rfl := Option.some.inj (hj.symm.trans hj')
    obtain ⟨hk, hid⟩ := (h.mem_crates hgroup).1 hk
    obtain ⟨hlocal, hid'⟩ := (h.mem_crates hgroup').1 hmem
    exact ⟨fun heq ↦ hne (h.eq_of_id hj hi heq.symm), k, hk, hid, d, hd, hlocal, hid'⟩
  · rintro ⟨hne, k, hk, hid, d, hd, hlocal, hid'⟩
    refine ⟨⟨group', hj, k, (h.mem_crates hgroup).2 ⟨hk, hid⟩, d, hd,
      (h.mem_crates hgroup').2 ⟨hlocal, hid'⟩⟩, ?_⟩
    rintro rfl
    exact hne (congrArg _ (Option.some.inj (hi.symm.trans hj)))

theorem exists_of_edge (h : w.Grouped groups) (hedge : j ∈ w.groupDependencies groups i) :
    (∃ group, groups[i]? = some group) ∧ ∃ group, groups[j]? = some group := by
  rcases hi : groups[i]? with - | group
  · rw [groupDependencies, hi] at hedge
    exact absurd hedge List.not_mem_nil
  · obtain ⟨group', hj, -⟩ := (mem_groupDependencies h hi).1 hedge
    exact ⟨⟨group, rfl⟩, group', hj⟩

/-- What a group needs is a group, and a path leads to it. -/
theorem exists_of_needs (h : w.Grouped groups) {b : N} (hi : groups[i]? = some group)
    (hneeds : Relation.TransGen w.Needs group.id b) :
    ∃ j group', groups[j]? = some group' ∧ group'.id = b ∧
      Relation.TransGen (PostOrder.Edge (w.groupDependencies groups)) i j := by
  have hstep : ∀ {i group b}, groups[i]? = some group → w.Needs group.id b →
      ∃ j group', groups[j]? = some group' ∧ group'.id = b ∧
        PostOrder.Edge (w.groupDependencies groups) i j := by
    intro i group b hi hneeds
    obtain ⟨-, -, -, -, d, -, hlocal, hid⟩ := id hneeds
    obtain ⟨group', hgroup', hid'⟩ := h.mem d hlocal
    obtain ⟨j, hj⟩ := List.mem_iff_getElem?.1 hgroup'
    have heq := hid'.trans hid
    exact ⟨j, group', hj, heq, (edge_iff h hi hj).2 (heq ▸ hneeds)⟩
  induction hneeds with
  | single hneeds =>
    obtain ⟨j, group', hj, hid, hedge⟩ := hstep hi hneeds
    exact ⟨j, group', hj, hid, .single hedge⟩
  | tail _ hneeds ih =>
    obtain ⟨j, group', hj, hid, hpath⟩ := ih
    obtain ⟨j', group'', hj', hid', hedge⟩ := hstep hj (hid ▸ hneeds)
    exact ⟨j', group'', hj', hid', hpath.tail hedge⟩

/-- Without a cycle of dependencies the walk has none. -/
theorem acyclic_groupDependencies (h : w.Grouped groups) (hacyclic : w.Acyclic) :
    PostOrder.Acyclic (w.groupDependencies groups) := by
  intro i hcycle
  have hneeds : ∀ {j}, Relation.TransGen (PostOrder.Edge (w.groupDependencies groups)) i j →
      ∃ group group', groups[i]? = some group ∧ groups[j]? = some group' ∧
        Relation.TransGen w.Needs group.id group'.id := by
    intro j hpath
    induction hpath with
    | single hedge =>
      obtain ⟨⟨group, hi⟩, group', hj⟩ := exists_of_edge h hedge.1
      exact ⟨group, group', hi, hj, .single ((edge_iff h hi hj).1 hedge)⟩
    | tail _ hedge ih =>
      obtain ⟨group, group', hi, hj, hneeds⟩ := ih
      obtain ⟨-, group'', hj'⟩ := exists_of_edge h hedge.1
      exact ⟨group, group'', hi, hj', hneeds.tail ((edge_iff h hj hj').1 hedge)⟩
  obtain ⟨group, group', hi, hi', hpath⟩ := hneeds hcycle
  obtain rfl := Option.some.inj (hi.symm.trans hi')
  exact hacyclic _ hpath

/-! ### The order -/

/-- No slot is empty when it is taken. -/
theorem takeSlots_eq {α : Type} {l : List α} {slots : List (Option α)} {order : List ℕ}
    (hnodup : order.Nodup) (h : ∀ i ∈ order, ∃ a, l[i]? = some a ∧ slots[i]? = some (some a)) :
    takeSlots slots order = some (order.filterMap fun i ↦ l[i]?) := by
  induction order generalizing slots with
  | nil => rfl
  | cons i order ih =>
    obtain ⟨⟨a, hl, hslot⟩, hrest⟩ := List.forall_mem_cons.1 h
    obtain ⟨hi, hnodup⟩ := List.nodup_cons.1 hnodup
    have hstep : takeSlots (slots.set i none) order = some (order.filterMap fun i ↦ l[i]?) := by
      refine ih hnodup fun j hj ↦ ?_
      obtain ⟨b, hb, hslot⟩ := hrest j hj
      have hne : i ≠ j := fun heq ↦ hi (heq.symm ▸ hj)
      exact ⟨b, hb, by rw [List.getElem?_set_ne hne, hslot]⟩
    rw [takeSlots, hslot, hstep, List.filterMap_cons_some hl]
    rfl

/-- All groups are listed, and where there is no cycle in order. -/
theorem order_perm (h : w.Grouped groups) : (w.order groups).Perm (List.range groups.length) ∧
    (w.Acyclic → PostOrder.Ordered (w.groupDependencies groups) (w.order groups)) := by
  have hclosed : ∀ i ∈ List.range groups.length, ∀ j ∈ w.groupDependencies groups i,
      j ∈ List.range groups.length := by
    intro i _ j hj
    obtain ⟨-, group, hj⟩ := exists_of_edge h hj
    exact List.mem_range.2 (List.getElem?_eq_some_iff.1 hj).1
  have hspec := PostOrder.visitAll_spec List.nodup_range hclosed
  rw [List.length_range] at hspec
  exact ⟨hspec.1, fun hacyclic ↦ hspec.2 (acyclic_groupDependencies h hacyclic)⟩

theorem filterMap_getElem?_range {α : Type} (l : List α) :
    (List.range l.length).filterMap (fun i ↦ l[i]?) = l := by
  induction l using List.reverseRecOn with
  | nil => rfl
  | append_singleton l a ih =>
    rw [List.length_append, List.length_singleton, List.range_succ, List.filterMap_append]
    congr 1
    · refine (List.filterMap_congr fun i hi ↦ ?_).trans ih
      exact List.getElem?_append_left (List.mem_range.1 hi)
    · simp

/-- **All groups, each after what it depends on.** -/
theorem takeSlots_order (h : w.Grouped groups) : ∃ inOrder,
    takeSlots (groups.map some) (w.order groups) = some inOrder ∧ inOrder.Perm groups ∧
      (w.Acyclic → inOrder.Pairwise fun group group' ↦
        ¬Relation.TransGen w.Needs group.id group'.id) := by
  obtain ⟨hperm, hordered⟩ := order_perm h
  have hnodup := hperm.nodup_iff.2 List.nodup_range
  refine ⟨_, takeSlots_eq (l := groups) hnodup fun i hi ↦ ?_, ?_, fun hacyclic ↦ ?_⟩
  · have hlt := List.mem_range.1 (hperm.mem_iff.1 hi)
    refine ⟨groups[i], List.getElem?_eq_getElem hlt, ?_⟩
    rw [List.getElem?_map, List.getElem?_eq_getElem hlt, Option.map_some]
  · exact (hperm.filterMap _).trans (.of_eq (filterMap_getElem?_range groups))
  · refine List.pairwise_filterMap.2 (((hordered hacyclic).pairwise hnodup).imp ?_)
    intro i j hnot group hi group' hj hneeds
    obtain ⟨j', group'', hj', hid, hpath⟩ := exists_of_needs h hi hneeds
    rw [h.eq_of_id hj' hj hid] at hpath
    exact hnot hpath

/-! ### The groups of a build -/

variable [LinearOrder Name]

omit [DecidableEq K] in
theorem grouped_allGroups (w : LoadedWorkspace K N Name) : w.Grouped w.allGroups :=
  (grouped_foldl_addCrate w).perm (rankBy_perm _ _)

omit [DecidableEq N] [LinearOrder Name] in
theorem isPartly_iff : isPartly dirty group = true ↔
    (∃ k ∈ group.crates, k ∈ dirty) ∧ ∃ k ∈ group.crates, k ∉ dirty := by
  rw [isPartly, Bool.and_eq_true, decide_eq_true_iff, decide_eq_true_iff, ← Nat.pos_iff_ne_zero,
    List.countP_pos_iff, Ne, List.countP_eq_length]
  simp

/-- Where all or none are dirty no group is. -/
theorem not_partly_of_whole (hwhole : w.Whole dirty) :
    w.allGroups.find? (isPartly dirty) = none := by
  refine List.find?_eq_none.2 fun group hgroup hpartly ↦ ?_
  obtain ⟨⟨k, hk, hdirty⟩, k', hk', hclean⟩ := isPartly_iff.1 hpartly
  have h := grouped_allGroups w
  obtain ⟨hlocal, hid⟩ := (h.mem_crates hgroup).1 hk
  obtain ⟨hlocal', hid'⟩ := (h.mem_crates hgroup).1 hk'
  exact hclean (hwhole k hlocal k' hlocal' (hid.trans hid'.symm) hdirty)

/-- The error for a group that is names it. -/
theorem names_partly (hfind : w.allGroups.find? (isPartly dirty) = some group) :
    w.Names dirty (.partly group.name group.crates.length) := by
  have h := grouped_allGroups w
  have hgroup := List.mem_of_find?_eq_some hfind
  obtain ⟨⟨k, hk, hdirty⟩, k', hk', hclean⟩ := isPartly_iff.1 (List.find?_some hfind)
  obtain ⟨hlocal, hid⟩ := (h.mem_crates hgroup).1 hk
  obtain ⟨hlocal', hid'⟩ := (h.mem_crates hgroup).1 hk'
  refine ⟨k, hlocal, k', hlocal', hid.trans hid'.symm, hdirty, hclean, ?_, ?_⟩
  · rw [h.name group hgroup, hid, ← List.head?_filter, ← h.crates group hgroup,
      CrateGroup.first, List.head?_eq_some_head group.ne_nil]
    rfl
  · rw [hid, h.crates group hgroup, List.countP_eq_length_filter]

/-- **What is dirty is planned**, where it is local and no group is split. -/
theorem exists_planned (hlocal : dirty ⊆ w.localCrates) (hwhole : w.Whole dirty) :
    ∃ groups, w.crateGroups dirty = .ok groups ∧ w.Planned dirty groups := by
  have h := grouped_allGroups w
  obtain ⟨inOrder, htake, hperm, hordered⟩ := takeSlots_order h
  have hnone : dirty.find? (fun krate ↦ decide (krate ∉ w.localCrates)) = none :=
    List.find?_eq_none.2 fun k hk ↦ by simpa using hlocal hk
  have hgrouped := h.perm hperm
  have hsub := List.filter_sublist (p := fun group ↦ decide (group.first ∈ dirty)) (l := inOrder)
  refine ⟨_, by rw [crateGroups, hnone, not_partly_of_whole hwhole, htake], ?_, ?_, ?_, ?_, ?_⟩
  · exact hgrouped.nodup.sublist (hsub.map _)
  · exact fun group hgroup ↦ hgrouped.crates group (hsub.subset hgroup)
  · exact fun group hgroup ↦ hgrouped.name group (hsub.subset hgroup)
  · intro k
    constructor
    · intro hk
      obtain ⟨group, hgroup, hid⟩ := hgrouped.mem k (hlocal hk)
      have hmem := (hgrouped.mem_crates hgroup).2 ⟨hlocal hk, hid.symm⟩
      obtain ⟨hfirst, hid'⟩ := (hgrouped.mem_crates hgroup).1 (List.head_mem group.ne_nil)
      have hdirty := hwhole k (hlocal hk) _ hfirst (hid.symm.trans hid'.symm) hk
      exact ⟨group, List.mem_filter.2 ⟨hgroup, decide_eq_true hdirty⟩, hmem⟩
    · rintro ⟨group, hgroup, hk⟩
      obtain ⟨hgroup, hfirst⟩ := List.mem_filter.1 hgroup
      obtain ⟨hlocal', hid⟩ := (hgrouped.mem_crates hgroup).1 hk
      obtain ⟨hlocal'', hid'⟩ := (hgrouped.mem_crates hgroup).1 (List.head_mem group.ne_nil)
      exact hwhole _ hlocal'' k hlocal' (hid'.trans hid.symm) (of_decide_eq_true hfirst)
  · exact fun hacyclic ↦ (hordered hacyclic).sublist hsub

/-- Otherwise the error names what is wrong. -/
theorem exists_names (hnot : ¬(dirty ⊆ w.localCrates ∧ w.Whole dirty)) :
    ∃ e, w.crateGroups dirty = .error e ∧ w.Names dirty e := by
  rcases hlocal : dirty.find? fun krate ↦ decide (krate ∉ w.localCrates) with - | krate
  · rcases hpartly : w.allGroups.find? (isPartly dirty) with - | group
    · refine absurd ⟨fun k hk ↦ ?_, fun k hk k' hk' hid hdirty ↦ ?_⟩ hnot
      · simpa using List.find?_eq_none.1 hlocal k hk
      · have h := grouped_allGroups w
        obtain ⟨group, hgroup, hgid⟩ := h.mem k hk
        by_contra hclean
        refine List.find?_eq_none.1 hpartly group hgroup (isPartly_iff.2 ⟨⟨k, ?_, hdirty⟩, k', ?_,
          hclean⟩)
        · exact (h.mem_crates hgroup).2 ⟨hk, hgid.symm⟩
        · exact (h.mem_crates hgroup).2 ⟨hk', hid.symm.trans hgid.symm⟩
    · exact ⟨_, by rw [crateGroups, hlocal, hpartly], names_partly hpartly⟩
  · have hmem := List.mem_of_find?_eq_some hlocal
    have hnot : krate ∉ w.localCrates := by simpa using List.find?_some hlocal
    exact ⟨.notLocal krate, by rw [crateGroups, hlocal], hmem, hnot⟩

/-- **The groups of a build.** What is dirty is listed group by group, each group once and after
all that it depends on. Only a crate that is not local, or a group of which some crates are dirty
and others are not, is an error, and the error names it. -/
theorem crateGroups_spec (w : LoadedWorkspace K N Name) (dirty : List K) :
    (dirty ⊆ w.localCrates ∧ w.Whole dirty →
      ∃ groups, w.crateGroups dirty = .ok groups ∧ w.Planned dirty groups) ∧
    (¬(dirty ⊆ w.localCrates ∧ w.Whole dirty) →
      ∃ e, w.crateGroups dirty = .error e ∧ w.Names dirty e) :=
  ⟨fun h ↦ exists_planned h.1 h.2, exists_names⟩

/-! ### A build from the groups -/

/-- What a build sees of a group. -/
def toBuild (w : LoadedWorkspace K N Name) (group : CrateGroup K N Name) : Graph.CrateGroup N where
  name := group.id
  dependencies := ((group.crates.flatMap w.dependencies).filter fun d ↦
    d ∈ w.localCrates ∧ w.nodeId d ≠ group.id).map w.nodeId

/-- **The order that a build relies on** is the order of the groups. -/
theorem ordered_crateGroups (hacyclic : w.Acyclic)
    (h : w.crateGroups w.localCrates = .ok groups) : Graph.Ordered (groups.map w.toBuild) := by
  obtain ⟨groups', hok, hplanned⟩ := exists_planned (w := w) (List.Subset.refl _)
    fun _ _ k' hk' _ _ ↦ hk'
  obtain rfl := Except.ok.inj (h.symm.trans hok)
  refine ⟨by rw [List.map_map]; exact hplanned.nodup, fun l₁ built l₂ heq dep hdep ↦ ?_⟩
  obtain ⟨before, rest, rfl, rfl, hrest⟩ := List.map_eq_append_iff.1 heq
  obtain ⟨group, after, rfl, rfl, rfl⟩ := List.map_eq_cons_iff.1 hrest
  obtain ⟨d, hd, rfl⟩ := List.mem_map.1 hdep
  obtain ⟨hd, hcond⟩ := List.mem_filter.1 hd
  obtain ⟨hlocal, hne⟩ := of_decide_eq_true hcond
  obtain ⟨k, hk, hd⟩ := List.mem_flatMap.1 hd
  have hgroup : group ∈ before ++ group :: after := by simp
  rw [hplanned.crates group hgroup] at hk
  obtain ⟨hk, hid⟩ := List.mem_filter.1 hk
  have hneeds : w.Needs group.id (w.nodeId d) :=
    ⟨hne.symm, k, hk, of_decide_eq_true hid, d, hd, hlocal, rfl⟩
  obtain ⟨group', hgroup', hmem⟩ := (hplanned.mem d).1 hlocal
  have hid' : w.nodeId d = group'.id := by
    rw [hplanned.crates group' hgroup'] at hmem
    exact of_decide_eq_true (List.mem_filter.1 hmem).2
  rw [List.map_map, hid']
  rw [hid'] at hneeds hne
  rcases List.mem_append.1 hgroup' with hbefore | hafter
  · exact List.mem_map_of_mem hbefore
  · rcases List.mem_cons.1 hafter with rfl | hafter
    · exact absurd rfl hne
    · have hpair := (List.pairwise_append.1 (hplanned.inOrder hacyclic)).2.1
      exact absurd (.single hneeds) ((List.pairwise_cons.1 hpair).1 group' hafter)

end Groups

end LoadedWorkspace

end RustCodeMcp.Extraction
