import RustCodeMcp.Effect.Except
import RustCodeMcp.Graph.Rows

/-!
# What a write puts into the tables

A write goes over the elements of the model, each of which puts the same entries whenever it is
kept. So its tables are a fold over one list, which later facts about them read.

**The order of the entries is that of the write**, and the last of several under one key is what
stays. For most keys there is only one, or several that are equal; for the node of a stub, which
each binding to it puts, this is where it matters that they all come from one model. What is left
out with a crate is whole elements: a node with its path, a usage with its indexes, the calls of one
item in one row.

Looking up an owner may fail, and then so does the write; `Resolved` says that none does, and holds
of every model that could be written.
-/

namespace RustCodeMcp.Ownership

variable {N Rest Embedding : Type} [DecidableEq N]

/-- A row with its value. -/
inductive Entry (N Rest : Type)
  | put (key : Key N) (value : key.Value Rest)
  | dup (dup : Dup N)

/-- The row that an entry is put into. -/
@[simp] def Entry.row : Entry N Rest → OwnedRow N
  | put key _ => .key key
  | dup d => .dup d

/-- What is kept or left out as a whole. -/
inductive Element (N Rest : Type)
  | node (node : Node N Rest)
  | binding (binding : Binding N Rest)
  | contains (edge : N × N)
  | usage (usage : Usage N)
  | calls (item : N)
  | signature (record : N × Rest)
  | staticMetadata (record : N × Rest)

namespace ExtractionModel

variable (model : ExtractionModel N Rest) (keep : N → Bool) {dbs : GraphDatabases N Rest Embedding}

/-- The crate of a node. -/
def crateOf (id : N) : Option N :=
  (model.get id).bind Node.crateId

/-- The crate that lists a row, if any does. -/
def rowOwner : OwnedRow N → Option N
  | .key (.nodesById id) => (model.get id).bind fun node ↦
      match node.kind with
      | .workspace | .externalSymbol => none
      | .crate | .module | .item => node.crateId
  | .key (.bindingsById id) => model.crateOf id.fromModule
  | .key (.usagesById id) => model.crateOf id.consumerModule
  | .key (.signaturesByTarget target) | .key (.staticMetadataByTarget target) =>
      if (model.stub target).isSome then none else model.crateOf target
  | .key (.unresolvedCallsByOwner item) => model.crateOf item
  | .dup (.bindingsByFromModule _ id) | .dup (.bindingsByTarget _ id) =>
      model.crateOf id.fromModule
  | .dup (.childrenByParent _ child) => model.crateOf child
  | .dup (.usagesByTarget _ id) | .dup (.usagesByConsumer _ id)
  | .dup (.usagesByConsumerFunction _ id) | .dup (.usagesByConsumerItem _ id) =>
      model.crateOf id.consumerModule
  | .dup (.stubOwners _ krate) => some krate

/-- Put an entry, and list it under its owner. -/
def apply (dbs : GraphDatabases N Rest Embedding) (entry : Entry N Rest) :
    GraphDatabases N Rest Embedding :=
  let dbs := match entry with
    | .put key value => dbs.put key value
    | .dup d => { dbs with dups := insert d dbs.dups }
  match model.rowOwner entry.row with
  | none => dbs
  | some owner => dbs.own owner entry.row

theorem apply_put {key : Key N} {value : key.Value Rest}
    {owner : N} (h : model.rowOwner (.key key) = some owner) :
    model.apply dbs (.put key value) = dbs.putOwned owner key value := by
  simp only [apply, Entry.row, h]
  rfl

theorem apply_put_none {key : Key N}
    {value : key.Value Rest} (h : model.rowOwner (.key key) = none) :
    model.apply dbs (.put key value) = dbs.put key value := by
  simp only [apply, Entry.row, h]

theorem apply_dup {d : Dup N} {owner : N} (h : model.rowOwner (.dup d) = some owner) :
    model.apply dbs (.dup d) = dbs.putDup owner d := by
  simp only [apply, Entry.row, h]
  rfl

/-! ### The elements -/

/-- The elements of a model, in the order of the write. -/
def elements : List (Element N Rest) :=
  model.nodes.map .node ++ model.bindings.map .binding ++ model.contains.map .contains ++
    model.usages.map .usage ++ (callItems model.unresolvedCalls).map .calls ++
    model.signatures.map .signature ++ model.statics.map .staticMetadata

/-- Whether a binding of a kept crate names the stub. -/
def named (id : N) : Bool :=
  model.bindings.any fun binding ↦
    binding.target = id && (model.crateOf binding.fromModule).any keep

/-- A record is kept with the crate of its node, a stub's as long as the stub is named. -/
def recordKept (id : N) : Bool :=
  if (model.stub id).isSome then model.named keep id else (model.crateOf id).any keep

/-- An element is kept with its crate; the workspace always is. -/
def kept : Element N Rest → Bool
  | .node node => node.kind = .workspace || node.crateId.any keep
  | .binding binding => (model.crateOf binding.fromModule).any keep
  | .contains edge => (model.crateOf edge.2).any keep
  | .usage usage => (model.crateOf usage.consumerModule).any keep
  | .calls item => (model.crateOf item).any keep
  | .signature record | .staticMetadata record => model.recordKept keep record.1

/-- The stub that a binding names, and its owner. -/
def stubEntries (binding : Binding N Rest) : List (Entry N Rest) :=
  match model.stub binding.target, model.crateOf binding.fromModule with
  | some stub, some owner =>
      [.put (.nodesById stub.id) stub, .dup (.stubOwners stub.id owner)]
  | _, _ => []

/-- A usage, and the indexes that lead to it. -/
def usageEntries (usage : Usage N) : List (Entry N Rest) :=
  [.put (.usagesById (usageIdFor usage)) usage,
    .dup (.usagesByTarget usage.target (usageIdFor usage)),
    .dup (.usagesByConsumer usage.consumerModule (usageIdFor usage))] ++
  (usage.consumerFunction.toList.map fun f ↦ .dup (.usagesByConsumerFunction f (usageIdFor usage)))
  ++ usage.consumerItem.toList.map fun item ↦ .dup (.usagesByConsumerItem item (usageIdFor usage))

/-- The calls that are filed under an item. -/
def callsOf (item : N) : List (UnresolvedCall N) :=
  sortCalls (model.unresolvedCalls.filter (·.item = item))

/-- What an element puts. -/
def entries : Element N Rest → List (Entry N Rest)
  | .node node => if node.kind = .externalSymbol then [] else [.put (.nodesById node.id) node]
  | .binding binding =>
      [.put (.bindingsById (bindingIdFor binding)) binding,
        .dup (.bindingsByFromModule binding.fromModule (bindingIdFor binding)),
        .dup (.bindingsByTarget binding.target (bindingIdFor binding))] ++
      model.stubEntries binding
  | .contains edge => [.dup (.childrenByParent edge.1 edge.2)]
  | .usage usage => usageEntries usage
  | .calls item => [.put (.unresolvedCallsByOwner item) (model.callsOf item)]
  | .signature record => [.put (.signaturesByTarget record.1) record.2]
  | .staticMetadata record => [.put (.staticMetadataByTarget record.1) record.2]

/-- The entries of an element, if it is kept. -/
def written (x : Element N Rest) : List (Entry N Rest) :=
  if model.kept keep x then model.entries x else []

/-- What the write puts, in order. -/
def keptEntries : List (Entry N Rest) :=
  model.elements.flatMap (model.written keep)

/-- Every owner that a write looks up is there. -/
structure Resolved : Prop where
  node : ∀ node ∈ model.nodes, node.kind ≠ .workspace → node.kind ≠ .externalSymbol →
    ∃ owner, node.crateId = some owner
  binding : ∀ binding ∈ model.bindings, ∃ owner, model.crateOf binding.fromModule = some owner
  contains : ∀ edge ∈ model.contains, ∃ owner, model.crateOf edge.2 = some owner
  usage : ∀ usage ∈ model.usages, ∃ owner, model.crateOf usage.consumerModule = some owner
  call : ∀ call ∈ model.unresolvedCalls, ∃ owner, model.crateOf call.consumerModule = some owner
  signature : ∀ record ∈ model.signatures, (model.stub record.1).isSome ∨
    ∃ owner, model.crateOf record.1 = some owner
  staticMetadata : ∀ record ∈ model.statics, (model.stub record.1).isSome ∨
    ∃ owner, model.crateOf record.1 = some owner

/-- The item that a call is filed under lies in the crate of its module. -/
def CallsAtHome : Prop :=
  ∀ call ∈ model.unresolvedCalls, model.crateOf call.item = model.crateOf call.consumerModule

theorem get_id {node : Node N Rest} (h : node ∈ model.nodes) : model.get node.id = some node := by
  rw [get, List.find?_eq_some_iff_append]
  obtain ⟨before, after, hnodes⟩ := List.append_of_mem h
  refine ⟨by simp, before, after, hnodes, fun other hother ↦ ?_⟩
  have hnodup := model.nodup
  rw [hnodes, List.map_append, List.nodup_append] at hnodup
  have hne := hnodup.2.2 other.id (List.mem_map_of_mem hother) node.id (by simp)
  simpa using hne

theorem id_of_get {id : N} {node : Node N Rest} (h : model.get id = some node) : node.id = id := by
  simpa using List.find?_some h

/-- The owner of a node is its crate. -/
theorem ownerOf_eq_ok {id owner : N} :
    model.ownerOf id = .ok owner ↔ model.crateOf id = some owner := by
  rw [ownerOf, crateOf]
  rcases model.get id with _ | node
  · simp
  · show _ ↔ node.crateId = some owner
    dsimp only
    rcases node.crateId with _ | krate <;> simp

theorem stub_eq_some {id : N} {stub : Node N Rest} :
    model.stub id = some stub ↔ model.get id = some stub ∧ stub.kind = .externalSymbol := by
  simp [ExtractionModel.stub, Option.filter_eq_some_iff]

/-! ### One write -/

/-- Steps that write the entries of what they are given. -/
theorem foldlM_entries {α : Type} {stubs : List N} {es : α → List (Entry N Rest)}
    {f : Writing N Rest Embedding → α → Except (OwnershipError N) (Writing N Rest Embedding)} :
    ∀ (l : List α) (dbs : GraphDatabases N Rest Embedding) (counts : WrittenCounts),
      (∀ a ∈ l, ∀ dbs counts, ∃ counts',
        f ⟨dbs, counts, stubs⟩ a = .ok ⟨(es a).foldl model.apply dbs, counts', stubs⟩) →
      ∃ counts', l.foldlM f ⟨dbs, counts, stubs⟩ =
        .ok ⟨(l.flatMap es).foldl model.apply dbs, counts', stubs⟩
  | [], _, counts, _ => ⟨counts, rfl⟩
  | a :: l, dbs, counts, h => by
    obtain ⟨counts₁, ha⟩ := h a (by simp) dbs counts
    obtain ⟨counts₂, hl⟩ := foldlM_entries l ((es a).foldl model.apply dbs) counts₁
      fun b hb ↦ h b (by simp [hb])
    refine ⟨counts₂, ?_⟩
    rw [List.foldlM_cons, ha, List.flatMap_cons, List.foldl_append]
    exact hl

variable {model}

/-- Writing a node puts its entries, if it is kept. -/
theorem writeNode_eq {node : Node N Rest} (hmem : node ∈ model.nodes)
    (hnode : node.kind ≠ .workspace → node.kind ≠ .externalSymbol →
      ∃ owner, node.crateId = some owner)
    (dbs : GraphDatabases N Rest Embedding) (counts : WrittenCounts) (stubs : List N) :
    ∃ counts', writeNode keep ⟨dbs, counts, stubs⟩ node =
      .ok ⟨(model.written keep (.node node)).foldl model.apply dbs, counts', stubs⟩ := by
  have hget := model.get_id hmem
  rcases hkind : node.kind with _ | _ | _ | _ | _
  case workspace =>
    have howner : model.rowOwner (.key (.nodesById node.id)) = none := by
      simp [rowOwner, hget, hkind]
    exact ⟨_, by simp [writeNode, hkind, written, kept, entries, model.apply_put_none howner]; rfl⟩
  case externalSymbol =>
    exact ⟨counts, by simp [writeNode, hkind, written, entries]; rfl⟩
  -- a crate, a module and an item differ in nothing here
  all_goals
    obtain ⟨owner, hcrate⟩ := hnode (by simp [hkind]) (by simp [hkind])
    have howner : model.rowOwner (.key (.nodesById node.id)) = some owner := by
      simp [rowOwner, hget, hkind, hcrate]
    rcases hkeep : keep owner
    · exact ⟨counts, by simp [writeNode, hkind, hcrate, hkeep, written, kept]; rfl⟩
    · exact ⟨_, by
        simp [writeNode, hkind, hcrate, hkeep, written, kept, entries, model.apply_put howner]; rfl⟩

theorem writeContains_eq {edge : N × N} {owner : N} (h : model.crateOf edge.2 = some owner)
    (dbs : GraphDatabases N Rest Embedding) (counts : WrittenCounts) (stubs : List N) :
    model.writeContains keep ⟨dbs, counts, stubs⟩ edge =
      .ok ⟨(model.written keep (.contains edge)).foldl model.apply dbs, counts, stubs⟩ := by
  have howner : model.rowOwner (.dup (.childrenByParent edge.1 edge.2)) = some owner := h
  rw [writeContains, model.ownerOf_eq_ok.2 h]
  rcases hkeep : keep owner
  · simp [written, kept, h, hkeep, bind, Except.bind]; rfl
  · simp [written, kept, h, hkeep, entries, model.apply_dup howner, bind, Except.bind]; rfl

theorem writeUsage_eq {usage : Usage N} {owner : N}
    (h : model.crateOf usage.consumerModule = some owner)
    (dbs : GraphDatabases N Rest Embedding) (counts : WrittenCounts) (stubs : List N) :
    ∃ counts', model.writeUsage keep ⟨dbs, counts, stubs⟩ usage =
      .ok ⟨(model.written keep (.usage usage)).foldl model.apply dbs, counts', stubs⟩ := by
  have hput : ∀ dbs : GraphDatabases N Rest Embedding,
      model.apply dbs (.put (.usagesById (usageIdFor usage)) usage) =
        dbs.putOwned owner (.usagesById (usageIdFor usage)) usage :=
    fun _ ↦ model.apply_put h
  have hdup : ∀ (dbs : GraphDatabases N Rest Embedding) (d : Dup N),
      model.rowOwner (.dup d) = model.crateOf usage.consumerModule →
        model.apply dbs (.dup d) = dbs.putDup owner d :=
    fun _ _ hd ↦ model.apply_dup (hd.trans h)
  rw [writeUsage, model.ownerOf_eq_ok.2 h]
  rcases hkeep : keep owner
  · exact ⟨counts, by simp [written, kept, h, hkeep, bind, Except.bind]; rfl⟩
  · refine ⟨{ counts with usages := counts.usages + 1 }, ?_⟩
    simp only [written, kept, h, hkeep, entries, usageEntries, bind, Except.bind, Option.any_some,
      if_true, List.foldl_append, List.foldl_cons, List.foldl_nil, hput]
    rw [hdup _ _ rfl, hdup _ _ rfl]
    rcases usage.consumerFunction with _ | f <;> rcases usage.consumerItem with _ | item
    · rfl
    · simp only [Option.toList, List.map_nil, List.map_cons, List.foldl_nil, List.foldl_cons]
      rw [hdup _ _ rfl]
      rfl
    · simp only [Option.toList, List.map_nil, List.map_cons, List.foldl_nil, List.foldl_cons]
      rw [hdup _ _ rfl]
      rfl
    · simp only [Option.toList, List.map_nil, List.map_cons, List.foldl_nil, List.foldl_cons]
      rw [hdup _ _ rfl, hdup _ _ rfl]
      rfl

/-! ### The stubs -/

/-- A stub is written once. -/
def StubsIn (model : ExtractionModel N Rest) (s : Writing N Rest Embedding) : Prop :=
  ∀ id ∈ s.stubsWritten, ∃ stub, model.stub id = some stub ∧
    s.dbs.plain (.nodesById id) = some stub

theorem put_eq_self {key : Key N}
    {value : key.Value Rest} (h : dbs.plain key = some value) : dbs.put key value = dbs := by
  rw [GraphDatabases.put, ← h, Function.update_eq_self]

/-- Writing a binding puts its entries, and those of the stub it names. -/
theorem writeBinding_eq {binding : Binding N Rest} {owner : N}
    (h : model.crateOf binding.fromModule = some owner) {s : Writing N Rest Embedding}
    (hs : StubsIn model s) :
    ∃ s', model.writeBinding keep s binding = .ok s' ∧
      s'.dbs = (model.written keep (.binding binding)).foldl model.apply s.dbs ∧
      StubsIn model s' ∧
      ∀ id, id ∈ s'.stubsWritten ↔
        id ∈ s.stubsWritten ∨ (keep owner ∧ binding.target = id ∧ (model.stub id).isSome) := by
  rw [writeBinding, model.ownerOf_eq_ok.2 h]
  -- A binding of a crate that is left out is passed over.
  rcases hkeep : keep owner
  · exact ⟨s, by simp [bind, Except.bind, hkeep]; rfl, by simp [written, kept, h, hkeep], hs,
      by simp⟩
  have hput : ∀ dbs : GraphDatabases N Rest Embedding,
      model.apply dbs (.put (.bindingsById (bindingIdFor binding)) binding) =
        dbs.putOwned owner (.bindingsById (bindingIdFor binding)) binding :=
    fun _ ↦ model.apply_put h
  have hmodule : ∀ dbs : GraphDatabases N Rest Embedding, model.apply dbs
      (.dup (.bindingsByFromModule binding.fromModule (bindingIdFor binding))) =
        dbs.putDup owner (.bindingsByFromModule binding.fromModule (bindingIdFor binding)) :=
    fun _ ↦ model.apply_dup h
  have htarget : ∀ dbs : GraphDatabases N Rest Embedding, model.apply dbs
      (.dup (.bindingsByTarget binding.target (bindingIdFor binding))) =
        dbs.putDup owner (.bindingsByTarget binding.target (bindingIdFor binding)) :=
    fun _ ↦ model.apply_dup h
  simp only [bind, Except.bind, hkeep, if_true, written, kept, h, Option.any_some, entries,
    stubEntries, List.foldl_append, List.foldl_cons, List.foldl_nil, hput, hmodule, htarget]
  -- A target in the workspace has no stub, and the three entries are all.
  rcases hstub : model.stub binding.target with _ | stub
  · refine ⟨_, rfl, rfl, hs, fun id ↦ ⟨.inl, ?_⟩⟩
    rintro (hmem | ⟨-, rfl, hid⟩)
    · exact hmem
    · simp [hstub] at hid
  -- A target outside it has one, which is put the first time it is named.
  have hid : stub.id = binding.target := model.id_of_get (model.stub_eq_some.1 hstub).1
  have hstub : model.stub stub.id = some stub := hid ▸ hstub
  have hnode : ∀ dbs : GraphDatabases N Rest Embedding,
      model.apply dbs (.put (.nodesById stub.id) stub) = dbs.put (.nodesById stub.id) stub := by
    obtain ⟨hget, hkind⟩ := model.stub_eq_some.1 hstub
    exact fun _ ↦ model.apply_put_none (by simp [rowOwner, hget, hkind])
  have howners : ∀ dbs : GraphDatabases N Rest Embedding,
      model.apply dbs (.dup (.stubOwners stub.id owner)) =
        dbs.putDup owner (.stubOwners stub.id owner) :=
    fun _ ↦ model.apply_dup rfl
  simp only [List.foldl_cons, List.foldl_nil, hnode, howners, ← hid]
  by_cases hin : stub.id ∈ s.stubsWritten
  · -- the stub is there, and putting it again changes nothing
    obtain ⟨stub', hstub', hplain⟩ := hs _ hin
    obtain rfl : stub' = stub := Option.some_injective _ (hstub'.symm.trans hstub)
    simp only [hin, if_true]
    refine ⟨_, rfl, ?_, fun id hmem ↦ hs id hmem, fun id ↦ ⟨.inl, ?_⟩⟩
    · rw [put_eq_self]
      exact hplain
    · rintro (hmem | ⟨-, rfl, -⟩)
      exacts [hmem, hin]
  · simp only [hin, if_false]
    refine ⟨_, rfl, rfl, fun id hmem ↦ ?_, fun id ↦ ?_⟩
    · by_cases heq : id = stub.id
      · subst heq
        exact ⟨stub, hstub, Function.update_self ..⟩
      · obtain ⟨stub', hstub', hplain⟩ := hs id (by simpa [heq] using hmem)
        refine ⟨stub', hstub', ?_⟩
        rw [← hplain]
        exact Function.update_of_ne (by simpa using heq) ..
    · rw [List.mem_cons, or_comm]
      refine or_congr_right ⟨?_, fun hname ↦ hname.2.1.symm⟩
      rintro rfl
      exact ⟨trivial, rfl, by simp [hstub]⟩

theorem foldlM_writeBinding : ∀ (l : List (Binding N Rest)) (s : Writing N Rest Embedding),
    (∀ binding ∈ l, ∃ owner, model.crateOf binding.fromModule = some owner) → StubsIn model s →
    ∃ s', l.foldlM (model.writeBinding keep) s = .ok s' ∧
      s'.dbs = (l.flatMap fun b ↦ model.written keep (.binding b)).foldl model.apply s.dbs ∧
      ∀ id, id ∈ s'.stubsWritten ↔ id ∈ s.stubsWritten ∨ ((model.stub id).isSome ∧
        ∃ b ∈ l, b.target = id ∧ (model.crateOf b.fromModule).any keep)
  | [], s, _, _ => ⟨s, rfl, rfl, by simp⟩
  | binding :: l, s, h, hs => by
    obtain ⟨owner, howner⟩ := h binding (by simp)
    obtain ⟨s₁, hs₁, hdbs₁, hstubs₁, hmem₁⟩ := writeBinding_eq keep howner hs
    obtain ⟨s₂, hs₂, hdbs₂, hmem₂⟩ :=
      foldlM_writeBinding l s₁ (fun b hb ↦ h b (by simp [hb])) hstubs₁
    refine ⟨s₂, ?_, ?_, fun id ↦ ?_⟩
    · rw [List.foldlM_cons, hs₁]
      exact hs₂
    · rw [hdbs₂, hdbs₁, List.flatMap_cons, List.foldl_append]
    · rw [hmem₂, hmem₁]
      simp only [List.mem_cons, exists_eq_or_imp, howner, Option.any_some]
      tauto

/-! ### The calls -/

variable {keep}

/-- The calls that are kept are those of kept crates. -/
theorem foldlM_keepCall : ∀ (l kept : List (UnresolvedCall N)),
    (∀ call ∈ l, ∃ owner, model.crateOf call.consumerModule = some owner) →
    l.foldlM (model.keepCall keep) kept =
      .ok (kept ++ l.filter fun call ↦ (model.crateOf call.consumerModule).any keep)
  | [], kept, _ => by simp; rfl
  | call :: l, kept, h => by
    obtain ⟨owner, howner⟩ := h call (by simp)
    have hcall : model.keepCall keep kept call =
        .ok (if keep owner then kept ++ [call] else kept) := by
      rw [keepCall, model.ownerOf_eq_ok.2 howner]
      rfl
    rw [List.foldlM_cons, hcall]
    show List.foldlM _ _ l = _
    rw [foldlM_keepCall l _ fun c hc ↦ h c (by simp [hc])]
    rcases hkeep : keep owner <;> simp [howner, hkeep]

/-- Removing repetitions and filtering come to the same in either order. -/
theorem dedup_filter {α : Type} [DecidableEq α] (p : α → Bool) :
    ∀ l : List α, (l.filter p).dedup = l.dedup.filter p
  | [] => rfl
  | a :: l => by
    have ih := dedup_filter p l
    by_cases hp : p a
    · rw [List.filter_cons_of_pos hp, List.dedup_cons, List.dedup_cons, ih]
      by_cases ha : a ∈ l
      · rw [if_pos ha, if_pos (List.mem_filter.2 ⟨ha, hp⟩)]
      · rw [if_neg ha, if_neg fun h ↦ ha (List.mem_filter.1 h).1, List.filter_cons_of_pos hp]
    · rw [List.filter_cons_of_neg hp, List.dedup_cons, ih]
      by_cases ha : a ∈ l
      · rw [if_pos ha]
      · rw [if_neg ha, List.filter_cons_of_neg hp]

theorem mem_of_mem_sortCalls {calls : List (UnresolvedCall N)} {call : UnresolvedCall N}
    (h : call ∈ sortCalls calls) : call ∈ calls :=
  List.mem_mergeSort.1 ((List.destutter_sublist _ _).subset h)

theorem sortCalls_eq_nil {calls : List (UnresolvedCall N)} : sortCalls calls = [] ↔ calls = [] := by
  rw [sortCalls, List.destutter_eq_nil, ← List.length_eq_zero_iff, List.length_mergeSort,
    List.length_eq_zero_iff]

/-- The calls that are kept of a crate's item are all of its calls. -/
theorem filter_kept_calls (hcalls : model.CallsAtHome) {item : N}
    (hitem : (model.crateOf item).any keep) :
    (model.unresolvedCalls.filter fun call ↦
      (model.crateOf call.consumerModule).any keep).filter (·.item = item) =
      model.unresolvedCalls.filter (·.item = item) := by
  rw [List.filter_filter]
  refine List.filter_congr fun call hmem ↦ ?_
  by_cases heq : call.item = item
  · rw [← hcalls call hmem, heq, hitem]
    simp
  · simp [heq]

/-- The items of kept calls are those of which some call is kept. -/
theorem callItems_kept (hcalls : model.CallsAtHome) :
    callItems (model.unresolvedCalls.filter fun call ↦
      (model.crateOf call.consumerModule).any keep) =
      (callItems model.unresolvedCalls).filter fun item ↦ (model.crateOf item).any keep := by
  rw [callItems, callItems, ← dedup_filter, List.filter_map]
  congr 2
  exact List.filter_congr fun call hmem ↦ by simp [← hcalls call hmem]

/-- Writing the calls of an item puts one row. -/
theorem writeCalls_eq (hcalls : model.CallsAtHome) {item owner : N}
    (hmem : item ∈ callItems model.unresolvedCalls) (howner : model.crateOf item = some owner)
    (hkeep : keep owner) (dbs : GraphDatabases N Rest Embedding) (counts : WrittenCounts)
    (stubs : List N) :
    model.writeCalls (model.unresolvedCalls.filter fun call ↦
      (model.crateOf call.consumerModule).any keep) ⟨dbs, counts, stubs⟩ item =
      .ok ⟨(model.written keep (.calls item)).foldl model.apply dbs, counts, stubs⟩ := by
  have hput : ∀ calls, model.apply dbs (.put (.unresolvedCallsByOwner item) calls) =
      dbs.putOwned owner (.unresolvedCallsByOwner item) calls :=
    fun _ ↦ model.apply_put howner
  rw [writeCalls, filter_kept_calls hcalls (by simp [howner, hkeep])]
  simp only [written, kept, howner, hkeep, Option.any_some, if_true, entries, List.foldl_cons,
    List.foldl_nil, hput, callsOf]
  rcases hrow : sortCalls (model.unresolvedCalls.filter (·.item = item)) with _ | ⟨call, calls⟩
  · -- an item is listed for a call of its own
    obtain ⟨call, hcall, rfl⟩ := List.mem_map.1 (List.mem_dedup.1 hmem)
    rw [sortCalls_eq_nil, List.filter_eq_nil_iff] at hrow
    exact absurd (by simp) (hrow call hcall)
  · obtain ⟨hcall, hitem⟩ := List.mem_filter.1
      (mem_of_mem_sortCalls (hrow ▸ List.mem_cons_self : call ∈ sortCalls _))
    have hitem : call.item = item := by simpa using hitem
    have howner : model.crateOf call.consumerModule = some owner := by
      rw [← hcalls call hcall, hitem, howner]
    show model.ownerOf call.consumerModule >>= _ = _
    rw [model.ownerOf_eq_ok.2 howner]
    rfl

/-- Items that are not kept write nothing. -/
theorem flatMap_written_calls : ∀ items : List N,
    (items.filter fun item ↦ (model.crateOf item).any keep).flatMap
      (fun item ↦ model.written keep (.calls item)) =
      items.flatMap fun item ↦ model.written keep (.calls item)
  | [] => rfl
  | item :: items => by
    have ih := flatMap_written_calls items
    rcases hitem : (model.crateOf item).any keep
    · have hnone : model.written keep (.calls item) = [] := by simp [written, kept, hitem]
      simp [hitem, ih, hnone]
    · simp [hitem, ih]

/-! ### The records -/

/-- Writing a record puts its entry, if it is kept. -/
theorem writeRecord_eq (x : N × Rest → Element N Rest) (key : N → Key N)
    (value : (target : N) → Rest → (key target).Value Rest) {record : N × Rest} {stubs : List N}
    (hentries : model.entries (x record) = [.put (key record.1) (value record.1 record.2)])
    (hkept : model.kept keep (x record) = model.recordKept keep record.1)
    (howner : model.rowOwner (.key (key record.1)) =
      if (model.stub record.1).isSome then none else model.crateOf record.1)
    (hrecord : (model.stub record.1).isSome ∨ ∃ owner, model.crateOf record.1 = some owner)
    (hstubs : (model.stub record.1).isSome → (record.1 ∈ stubs ↔ model.named keep record.1))
    (dbs : GraphDatabases N Rest Embedding) (counts : WrittenCounts) :
    model.writeRecord keep key value ⟨dbs, counts, stubs⟩ record =
      .ok ⟨(model.written keep (x record)).foldl model.apply dbs, counts, stubs⟩ := by
  rw [written, hkept, hentries, writeRecord, recordKept]
  by_cases hstub : (model.stub record.1).isSome
  · rw [if_pos hstub] at howner
    rw [if_pos hstub, if_pos hstub]
    by_cases hnamed : model.named keep record.1
    · rw [if_pos ((hstubs hstub).2 hnamed), if_pos hnamed, List.foldl_cons, List.foldl_nil,
        model.apply_put_none howner]
      rfl
    · rw [if_neg (mt (hstubs hstub).1 hnamed), if_neg hnamed]
      rfl
  · obtain ⟨owner, hcrate⟩ := hrecord.resolve_left hstub
    rw [if_neg hstub, hcrate] at howner
    rw [if_neg hstub, if_neg hstub, model.ownerOf_eq_ok.2 hcrate, hcrate, Option.any_some]
    rcases hkeep : keep owner
    · simp [bind, Except.bind, hkeep]
      rfl
    · simp [bind, Except.bind, hkeep, model.apply_put howner]
      rfl

/-! ### The whole write -/

/-- **A write puts the entries of the elements that are kept, in order.** -/
theorem writeOwnedRows_eq (h : model.Resolved) (hcalls : model.CallsAtHome) (keep : N → Bool)
    (dbs : GraphDatabases N Rest Embedding) :
    ∃ counts, model.writeOwnedRows keep dbs =
      .ok ((model.keptEntries keep).foldl model.apply dbs, counts) := by
  obtain ⟨counts₁, hnodes⟩ := model.foldlM_entries model.nodes dbs ⟨0, 0, 0⟩
    fun node hmem dbs counts ↦ writeNode_eq keep hmem (h.node node hmem) dbs counts []
  obtain ⟨⟨dbs₂, counts₂, stubs⟩, hbindings, hdbs₂, hstubs⟩ := foldlM_writeBinding keep
    model.bindings ⟨(model.nodes.flatMap fun node ↦ model.written keep (.node node)).foldl
      model.apply dbs, counts₁, []⟩ h.binding (by simp [StubsIn])
  have hstubs : ∀ id, (model.stub id).isSome → (id ∈ stubs ↔ model.named keep id) := by
    intro id hid
    simpa [named, hid] using hstubs id
  obtain ⟨counts₃, hcontains⟩ := model.foldlM_entries model.contains dbs₂ counts₂
    fun edge hmem dbs counts ↦
      ⟨_, writeContains_eq keep (h.contains edge hmem).choose_spec dbs counts stubs⟩
  generalize hdbs₃ : List.foldl model.apply dbs₂ _ = dbs₃ at hcontains
  obtain ⟨counts₄, husages⟩ := model.foldlM_entries model.usages dbs₃ counts₃
    fun usage hmem dbs counts ↦
      writeUsage_eq keep (h.usage usage hmem).choose_spec dbs counts stubs
  generalize hdbs₄ : List.foldl model.apply dbs₃ _ = dbs₄ at husages
  obtain ⟨counts₅, hitems⟩ := model.foldlM_entries (callItems (model.unresolvedCalls.filter
    fun call ↦ (model.crateOf call.consumerModule).any keep)) dbs₄ counts₄
    fun item hmem dbs counts ↦ by
      rw [callItems_kept hcalls, List.mem_filter, Option.any_eq_true] at hmem
      obtain ⟨hmem, owner, howner, hkeep⟩ := hmem
      exact ⟨counts, writeCalls_eq hcalls hmem howner hkeep dbs counts stubs⟩
  generalize hdbs₅ : List.foldl model.apply dbs₄ _ = dbs₅ at hitems
  obtain ⟨counts₆, hsignatures⟩ := model.foldlM_entries model.signatures dbs₅ counts₅
    fun record hmem dbs counts ↦ ⟨counts, writeRecord_eq .signature .signaturesByTarget
      (fun _ sig ↦ sig) rfl rfl rfl (h.signature record hmem) (hstubs record.1) dbs counts⟩
  generalize hdbs₆ : List.foldl model.apply dbs₅ _ = dbs₆ at hsignatures
  obtain ⟨counts₇, hstatics⟩ := model.foldlM_entries model.statics dbs₆ counts₆
    fun record hmem dbs counts ↦ ⟨counts, writeRecord_eq .staticMetadata
      .staticMetadataByTarget (fun _ metadata ↦ metadata) rfl rfl rfl
      (h.staticMetadata record hmem) (hstubs record.1) dbs counts⟩
  refine ⟨counts₇, ?_⟩
  have hkept : model.unresolvedCalls.foldlM (model.keepCall keep) [] =
      .ok (model.unresolvedCalls.filter fun call ↦
        (model.crateOf call.consumerModule).any keep) :=
    foldlM_keepCall model.unresolvedCalls [] h.call
  simp only [writeOwnedRows, hnodes, hbindings, hkept, hcontains, husages, hitems, hsignatures,
    hstatics, bind, Except.bind, keptEntries, elements, List.flatMap_append, List.flatMap_map,
    List.foldl_append]
  rw [callItems_kept hcalls, flatMap_written_calls] at hdbs₅
  dsimp only at hdbs₂
  rw [← hdbs₆, ← hdbs₅, ← hdbs₄, ← hdbs₃, hdbs₂]
  rfl

/-- A write that went on has found the owner. -/
theorem crateOf_of_bind {σ : Type} {id : N} {k : N → Except (OwnershipError N) σ} {t : σ}
    (h : model.ownerOf id >>= k = .ok t) : ∃ owner, model.crateOf id = some owner := by
  obtain ⟨owner, howner, -⟩ := Effect.ok_of_bind h
  exact ⟨owner, model.ownerOf_eq_ok.1 howner⟩

/-- A node that was written is in a crate, or of no crate's kind. -/
theorem crateId_of_writeNode {s t : Writing N Rest Embedding} {node : Node N Rest}
    (h : writeNode keep s node = .ok t) (hworkspace : node.kind ≠ .workspace)
    (hstub : node.kind ≠ .externalSymbol) : ∃ owner, node.crateId = some owner := by
  rw [← Option.isSome_iff_exists, Option.isSome_iff_ne_none]
  intro hnone
  rcases hkind : node.kind with _ | _ | _ | _ | _
  case workspace => exact hworkspace hkind
  case externalSymbol => exact hstub hkind
  all_goals
    simp only [writeNode, hkind, hnone] at h
    cases h

/-- The node of a record that was written is in a crate. -/
theorem crateOf_of_writeRecord {key : N → Key N}
    {value : (target : N) → Rest → (key target).Value Rest} {s t : Writing N Rest Embedding}
    {record : N × Rest} (h : model.writeRecord keep key value s record = .ok t) :
    (model.stub record.1).isSome ∨ ∃ owner, model.crateOf record.1 = some owner := by
  rw [writeRecord] at h
  by_cases hstub : (model.stub record.1).isSome
  · exact .inl hstub
  · rw [if_neg hstub] at h
    exact .inr (crateOf_of_bind h)

/-- A write that succeeds has found every owner. -/
theorem Resolved.of_writeOwnedRows {t : GraphDatabases N Rest Embedding × WrittenCounts}
    (h : model.writeOwnedRows keep dbs = .ok t) : model.Resolved := by
  obtain ⟨s₁, hnodes, h⟩ := Effect.ok_of_bind h
  obtain ⟨s₂, hbindings, h⟩ := Effect.ok_of_bind h
  obtain ⟨s₃, hcontains, h⟩ := Effect.ok_of_bind h
  obtain ⟨s₄, husages, h⟩ := Effect.ok_of_bind h
  obtain ⟨calls, hcalls, h⟩ := Effect.ok_of_bind h
  obtain ⟨s₅, -, h⟩ := Effect.ok_of_bind h
  obtain ⟨s₆, hsignatures, h⟩ := Effect.ok_of_bind h
  obtain ⟨s₇, hstatics, -⟩ := Effect.ok_of_bind h
  refine ⟨fun node hmem ↦ ?_, fun binding hmem ↦ ?_, fun edge hmem ↦ ?_, fun usage hmem ↦ ?_,
    fun call hmem ↦ ?_, fun record hmem ↦ ?_, fun record hmem ↦ ?_⟩
  · obtain ⟨s, s', hs⟩ := Effect.ok_of_foldlM hnodes node hmem
    exact crateId_of_writeNode hs
  · obtain ⟨s, s', hs⟩ := Effect.ok_of_foldlM hbindings binding hmem
    exact crateOf_of_bind hs
  · obtain ⟨s, s', hs⟩ := Effect.ok_of_foldlM hcontains edge hmem
    exact crateOf_of_bind hs
  · obtain ⟨s, s', hs⟩ := Effect.ok_of_foldlM husages usage hmem
    exact crateOf_of_bind hs
  · obtain ⟨s, s', hs⟩ := Effect.ok_of_foldlM hcalls call hmem
    exact crateOf_of_bind hs
  · obtain ⟨s, s', hs⟩ := Effect.ok_of_foldlM hsignatures record hmem
    exact crateOf_of_writeRecord hs
  · obtain ⟨s, s', hs⟩ := Effect.ok_of_foldlM hstatics record hmem
    exact crateOf_of_writeRecord hs

end ExtractionModel

end RustCodeMcp.Ownership
