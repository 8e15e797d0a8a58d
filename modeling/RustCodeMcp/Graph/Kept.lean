import RustCodeMcp.Graph.Entries

/-!
# The tables of the crates that are kept

They are the full ones, cut down to the rows that some kept crate keeps.

**A write of some crates and the full write are the same list of entries, filtered.** So a table of
the one is a table of the other with rows left out, and which are left out can be told from the row:
by the crate that lists it, or, for the rows of a stub, by whether somebody who is kept names it
(`kept_eq`). That the value under a key is the same needs an argument, since filtering may remove
the entry that came last; for a stub's node all entries under its key are equal (`lastAt_stub`).

What a kept crate leaves behind is told key by key (`lastAt_keptEntries`): the tables of the
incremental write have under a key what the full ones have, if some kept crate keeps it, and nothing
else.
-/

namespace RustCodeMcp.Ownership

variable {N Rest Embedding : Type} [DecidableEq N] {entry : Entry N Rest}

/-- What an entry puts under a key. -/
def Entry.valueAt (key : Key N) : Entry N Rest → Option (key.Value Rest)
  | .put k value => if h : k = key then some (h ▸ value) else none
  | .dup _ => none

@[simp] theorem Entry.valueAt_self {key : Key N} {value : key.Value Rest} :
    (Entry.put key value).valueAt key = some value := by
  simp [valueAt]

theorem Entry.valueAt_eq_some {key : Key N} {value : key.Value Rest} :
    entry.valueAt key = some value ↔ entry = .put key value := by
  constructor
  · intro h
    rcases entry with ⟨k, v⟩ | d
    · by_cases hk : k = key
      · subst hk
        simp only [valueAt_self, Option.some.injEq] at h
        rw [h]
      · simp [valueAt, hk] at h
    · cases h
  · rintro rfl
    exact valueAt_self

/-- The value that is put last under a key. -/
def lastAt (key : Key N) (l : List (Entry N Rest)) : Option (key.Value Rest) :=
  l.reverse.findSome? (Entry.valueAt key)

theorem lastAt_append (key : Key N) (l₁ l₂ : List (Entry N Rest)) :
    lastAt key (l₁ ++ l₂) = (lastAt key l₂).or (lastAt key l₁) := by
  simp [lastAt, List.findSome?_append]

/-- What is last was put. -/
theorem put_mem_of_lastAt {key : Key N} {l : List (Entry N Rest)} {value : key.Value Rest}
    (h : lastAt key l = some value) : .put key value ∈ l := by
  obtain ⟨entry, hmem, hvalue⟩ := List.exists_of_findSome?_eq_some h
  rw [← Entry.valueAt_eq_some.1 hvalue]
  exact List.mem_reverse.1 hmem

theorem lastAt_eq_none {key : Key N} {l : List (Entry N Rest)} :
    lastAt key l = none ↔ ∀ value, .put key value ∉ l := by
  rw [lastAt, List.findSome?_eq_none_iff]
  constructor
  · intro h value hmem
    simpa using h _ (List.mem_reverse.2 hmem)
  · intro h entry hmem
    rcases hvalue : entry.valueAt key with _ | value
    · rfl
    · exact absurd (Entry.valueAt_eq_some.1 hvalue ▸ List.mem_reverse.1 hmem) (h value)

/-- Where all that is put is one value, that is last. -/
theorem lastAt_eq_some {key : Key N} {l : List (Entry N Rest)} {value : key.Value Rest}
    (hmem : .put key value ∈ l) (h : ∀ v, .put key v ∈ l → v = value) :
    lastAt key l = some value := by
  rcases hlast : lastAt key l with _ | v
  · exact absurd hmem (lastAt_eq_none.1 hlast value)
  · rw [h v (put_mem_of_lastAt hlast)]

/-- The last of the last part that has one. -/
theorem lastAt_flatMap {α : Type} (key : Key N) (g : α → List (Entry N Rest)) : ∀ l : List α,
    lastAt key (l.flatMap g) = l.reverse.findSome? fun x ↦ lastAt key (g x)
  | [] => rfl
  | x :: l => by
    rw [List.flatMap_cons, lastAt_append, lastAt_flatMap key g l, List.reverse_cons,
      List.findSome?_append]
    simp

namespace ExtractionModel

variable {model : ExtractionModel N Rest}

/-! ### The tables of a list of entries -/

/-- A key has what was put last under it, or what it had. -/
theorem foldl_apply_plain (key : Key N) : ∀ (l : List (Entry N Rest))
    (dbs : GraphDatabases N Rest Embedding),
    (l.foldl model.apply dbs).plain key = (lastAt key l).or (dbs.plain key)
  | [], dbs => rfl
  | entry :: l, dbs => by
    have happly : (model.apply dbs entry).plain key =
        (entry.valueAt key).or (dbs.plain key) := by
      rcases entry with ⟨k, value⟩ | d
      · have hplain : (model.apply dbs (.put k value)).plain key = (dbs.put k value).plain key := by
          rw [apply]
          split <;> rfl
        rw [hplain]
        by_cases hk : k = key
        · subst hk
          simp [GraphDatabases.put]
        · simp [GraphDatabases.put, Entry.valueAt, hk, Function.update_of_ne (Ne.symm hk)]
      · rw [apply]
        split <;> rfl
    rw [List.foldl_cons, foldl_apply_plain key l, happly, ← List.singleton_append, lastAt_append,
      Option.or_assoc]
    simp [lastAt]

/-- A multimap has what was put, and what it had. -/
theorem mem_foldl_apply_dups {d : Dup N} : ∀ {l : List (Entry N Rest)}
    {dbs : GraphDatabases N Rest Embedding},
    d ∈ (l.foldl model.apply dbs).dups ↔ d ∈ dbs.dups ∨ .dup d ∈ l
  | [], dbs => by simp
  | entry :: l, dbs => by
    have happly : d ∈ (model.apply dbs entry).dups ↔ d ∈ dbs.dups ∨ .dup d = entry := by
      rcases entry with ⟨k, value⟩ | d'
      · rw [apply]
        split <;> simp [GraphDatabases.own, GraphDatabases.put]
      · rw [apply]
        split <;> simp [GraphDatabases.own, or_comm]
    rw [List.foldl_cons, mem_foldl_apply_dups, happly, List.mem_cons, or_assoc]

/-- What an entry lists is its row, under its owner. -/
theorem mem_listed {owner : N} {row : OwnedRow N} (dbs : GraphDatabases N Rest Embedding)
    (r : OwnedRow N) :
    (owner, row) ∈ (match model.rowOwner r with
      | none => dbs
      | some o => dbs.own o r).owned ↔
    (owner, row) ∈ dbs.owned ∨ (r = row ∧ model.rowOwner row = some owner) := by
  rcases hr : model.rowOwner r with _ | o
  · have : ¬ (r = row ∧ model.rowOwner row = some owner) := by
      rintro ⟨rfl, hrow⟩
      simp [hr] at hrow
    simp [this]
  · show (owner, row) ∈ insert (o, r) dbs.owned ↔ _
    rw [Finset.mem_insert, Prod.mk.injEq, or_comm]
    refine or_congr_right ⟨?_, ?_⟩
    · rintro ⟨rfl, rfl⟩
      exact ⟨rfl, hr⟩
    · rintro ⟨rfl, hrow⟩
      rw [hr, Option.some.injEq] at hrow
      exact ⟨hrow.symm, rfl⟩

/-- A crate lists what was put for it, and what it listed. -/
theorem mem_foldl_apply_owned {owner : N} {row : OwnedRow N} : ∀ {l : List (Entry N Rest)}
    {dbs : GraphDatabases N Rest Embedding},
    (owner, row) ∈ (l.foldl model.apply dbs).owned ↔ (owner, row) ∈ dbs.owned ∨
      ((∃ entry ∈ l, entry.row = row) ∧ model.rowOwner row = some owner)
  | [], dbs => by simp
  | entry :: l, dbs => by
    have happly : (owner, row) ∈ (model.apply dbs entry).owned ↔
        (owner, row) ∈ dbs.owned ∨ (entry.row = row ∧ model.rowOwner row = some owner) := by
      rcases entry with ⟨k, value⟩ | d
      · exact mem_listed (dbs.put k value) (.key k)
      · exact mem_listed ({ dbs with dups := insert d dbs.dups }) (.dup d)
    rw [List.foldl_cons, mem_foldl_apply_owned, happly]
    simp only [List.mem_cons, exists_eq_or_imp]
    tauto

theorem foldl_apply_embeddings : ∀ (l : List (Entry N Rest))
    (dbs : GraphDatabases N Rest Embedding),
    (l.foldl model.apply dbs).embeddings = dbs.embeddings
  | [], dbs => rfl
  | entry :: l, dbs => by
    rw [List.foldl_cons, foldl_apply_embeddings l]
    rcases entry with _ | _ <;> (rw [apply]; split <;> rfl)

/-! ### The tables of the crates that are kept -/

variable (model) (keep : N → Bool)

/-- What a write that keeps these crates leaves in empty tables. -/
def tables : GraphDatabases N Rest Embedding :=
  (model.keptEntries keep).foldl model.apply .empty

/-- What any crate's write puts. -/
def allEntries : List (Entry N Rest) :=
  model.elements.flatMap model.entries

/-- Whether some kept crate keeps the key. -/
def keptKey : Key N → Bool
  | .nodesById id => (model.get id).any fun node ↦
      match node.kind with
      | .workspace => true
      | .externalSymbol => model.named keep id
      | .crate | .module | .item => node.crateId.any keep
  | .bindingsById id => (model.crateOf id.fromModule).any keep
  | .usagesById id => (model.crateOf id.consumerModule).any keep
  | .signaturesByTarget target | .staticMetadataByTarget target => model.recordKept keep target
  | .unresolvedCallsByOwner item => (model.crateOf item).any keep

/-- Whether a row is kept. -/
def keptRow : OwnedRow N → Bool
  | .key key => model.keptKey keep key
  | .dup d => (model.rowOwner (.dup d)).any keep

variable {model keep}

/-- What is kept is put by a kept element. -/
theorem mem_keptEntries : entry ∈ model.keptEntries keep ↔
    ∃ x ∈ model.elements, model.kept keep x ∧ entry ∈ model.entries x := by
  simp only [keptEntries, List.mem_flatMap, written]
  refine exists_congr fun x ↦ and_congr_right fun _ ↦ ?_
  by_cases hx : model.kept keep x <;> simp [hx]

/-- What anybody puts is put by an element. -/
theorem mem_allEntries : entry ∈ model.allEntries ↔
    ∃ x ∈ model.elements, entry ∈ model.entries x := by
  simp [allEntries]

/-- A binding to a stub puts the stub, and notes its crate. -/
theorem mem_stubEntries {binding : Binding N Rest} :
    entry ∈ model.stubEntries binding ↔ ∃ stub owner, model.stub binding.target = some stub ∧
      model.crateOf binding.fromModule = some owner ∧
      (entry = .put (.nodesById stub.id) stub ∨ entry = .dup (.stubOwners stub.id owner)) := by
  rw [stubEntries]
  rcases model.stub binding.target with _ | stub <;>
    rcases model.crateOf binding.fromModule with _ | owner <;> simp

/-- Whether an entry is kept shows in its row, but for a stub's node, which every binding that names
the stub puts. -/
theorem kept_eq {x : Element N Rest} (hx : x ∈ model.elements) (hentry : entry ∈ model.entries x) :
    (∀ keep, model.kept keep x = model.keptRow keep entry.row) ∨
      ∃ binding stub, x = .binding binding ∧ model.stub binding.target = some stub ∧
        entry = .put (.nodesById stub.id) stub := by
  rcases x with node | binding | edge | usage | item | record | record
  case node =>
    have hget : model.get node.id = some node := model.get_id (by simpa [elements] using hx)
    rw [entries] at hentry
    by_cases hstub : node.kind = .externalSymbol
    · simp [hstub] at hentry
    · rw [if_neg hstub, List.mem_singleton] at hentry
      subst hentry
      refine .inl fun keep ↦ ?_
      rcases hkind : node.kind with _ | _ | _ | _ | _
      case externalSymbol => exact absurd hkind hstub
      all_goals simp [kept, keptRow, keptKey, hget, hkind]
  case binding =>
    rw [entries, List.mem_append] at hentry
    rcases hentry with hentry | hentry
    · simp only [List.mem_cons, List.not_mem_nil, or_false] at hentry
      rcases hentry with rfl | rfl | rfl <;> exact .inl fun _ ↦ rfl
    · obtain ⟨stub, owner, hstub, howner, rfl | rfl⟩ := mem_stubEntries.1 hentry
      · exact .inr ⟨binding, stub, rfl, hstub, rfl⟩
      · exact .inl fun keep ↦ by simp [kept, howner, keptRow, rowOwner]
  case usage =>
    simp only [entries, usageEntries, List.mem_append, List.mem_cons, List.not_mem_nil, or_false,
      List.mem_map] at hentry
    rcases hentry with ((rfl | rfl | rfl) | ⟨f, -, rfl⟩) | ⟨item, -, rfl⟩ <;> exact .inl fun _ ↦ rfl
  all_goals
    rw [entries, List.mem_singleton] at hentry
    subst hentry
    exact .inl fun _ ↦ rfl

/-- A row that a crate lists is kept with the crate. -/
theorem keptRow_of_rowOwner {row : OwnedRow N} {owner : N}
    (howner : model.rowOwner row = some owner) (keep : N → Bool) :
    model.keptRow keep row = keep owner := by
  rcases row with key | d
  case dup => simp [keptRow, howner]
  rcases key with id | id | id | target | target | item
  case nodesById =>
    rw [rowOwner, Option.bind_eq_some_iff] at howner
    obtain ⟨node, hget, hcrate⟩ := howner
    rcases hkind : node.kind with _ | _ | _ | _ | _ <;>
      simp_all [keptRow, keptKey]
  case signaturesByTarget | staticMetadataByTarget =>
    rw [rowOwner] at howner
    by_cases hstub : (model.stub target).isSome
    · simp [hstub] at howner
    · rw [if_neg hstub] at howner
      simp [keptRow, keptKey, recordKept, hstub, howner]
  all_goals
    rw [rowOwner] at howner
    simp [keptRow, keptKey, howner]

/-- What a crate lists is kept with it. -/
theorem kept_of_owner {x : Element N Rest} {owner : N}
    (hx : x ∈ model.elements) (hentry : entry ∈ model.entries x)
    (howner : model.rowOwner entry.row = some owner) : model.kept keep x = keep owner := by
  rcases kept_eq hx hentry with hrow | ⟨binding, stub, -, hstub, rfl⟩
  · rw [hrow, keptRow_of_rowOwner howner]
  · -- nobody lists a stub's node
    obtain ⟨hget, hkind⟩ := model.stub_eq_some.1 hstub
    rw [← model.id_of_get hget] at hget
    simp [rowOwner, hget, hkind] at howner

/-- Every put of a node puts the node of the model. -/
theorem get_of_put {id : N} {node : Node N Rest}
    (h : .put (.nodesById id) node ∈ model.allEntries) : model.get id = some node := by
  obtain ⟨x, hx, hentry⟩ := mem_allEntries.1 h
  rcases x with node' | binding | edge | usage | item | record | record
  case node =>
    have hget : model.get node'.id = some node' := model.get_id (by simpa [elements] using hx)
    rw [entries] at hentry
    by_cases hstub : node'.kind = .externalSymbol
    · simp [hstub] at hentry
    · rw [if_neg hstub, List.mem_singleton] at hentry
      cases hentry
      exact hget
  case binding =>
    rw [entries, List.mem_append] at hentry
    rcases hentry with hentry | hentry
    · simp at hentry
    · obtain ⟨stub, owner, hstub, howner, heq | heq⟩ := mem_stubEntries.1 hentry
      · cases heq
        rw [model.id_of_get (model.stub_eq_some.1 hstub).1]
        exact (model.stub_eq_some.1 hstub).1
      · cases heq
  all_goals simp [entries, usageEntries] at hentry

/-- What is kept is put by the full write. -/
theorem mem_allEntries_of_kept (h : entry ∈ model.keptEntries keep) : entry ∈ model.allEntries := by
  obtain ⟨x, hx, -, hentry⟩ := mem_keptEntries.1 h
  exact mem_allEntries.2 ⟨x, hx, hentry⟩

/-- A stub is named by a binding of a kept crate. -/
theorem named_iff {id : N} : model.named keep id ↔ ∃ binding ∈ model.bindings,
    binding.target = id ∧ ∃ owner, model.crateOf binding.fromModule = some owner ∧ keep owner := by
  simp [named, Option.any_eq_true]

theorem binding_mem {binding : Binding N Rest} (h : binding ∈ model.bindings) :
    .binding binding ∈ model.elements := by
  simp [elements, h]

/-- An element that is a binding is one of the model. -/
theorem mem_bindings {binding : Binding N Rest} (h : .binding binding ∈ model.elements) :
    binding ∈ model.bindings := by
  simpa [elements] using h

/-- The node of a stub, which bindings of several crates put. -/
theorem lastAt_stub {id : N} {stub : Node N Rest} (hstub : model.stub id = some stub) :
    lastAt (.nodesById id) (model.keptEntries keep) =
      if model.named keep id then lastAt (.nodesById id) model.allEntries else none := by
  obtain ⟨hget, hkind⟩ := model.stub_eq_some.1 hstub
  have hid := model.id_of_get hget
  by_cases hnamed : model.named keep id
  · obtain ⟨binding, hmem, htarget, owner, howner, hkeep⟩ := named_iff.1 hnamed
    have hput : .put (.nodesById id) stub ∈ model.keptEntries keep := by
      refine mem_keptEntries.2 ⟨.binding binding, binding_mem hmem, by simp [kept, howner, hkeep],
        List.mem_append_right _ (mem_stubEntries.2
          ⟨stub, owner, by rw [htarget, hstub], howner, ?_⟩)⟩
      rw [hid]
      exact .inl rfl
    have hall : ∀ node, .put (.nodesById id) node ∈ model.allEntries → node = stub :=
      fun node hnode ↦ Option.some_injective _ ((get_of_put hnode).symm.trans hget)
    have hkept : ∀ node, .put (.nodesById id) node ∈ model.keptEntries keep → node = stub :=
      fun node hnode ↦ hall node (mem_allEntries_of_kept hnode)
    rw [if_pos hnamed, lastAt_eq_some hput hkept,
      lastAt_eq_some (mem_allEntries_of_kept hput) hall]
  · rw [if_neg hnamed, lastAt_eq_none]
    intro node hnode
    obtain ⟨x, hx, hkept, hentry⟩ := mem_keptEntries.1 hnode
    rcases kept_eq hx hentry with hrow | ⟨binding, stub', rfl, hstub', heq⟩
    · rw [hrow] at hkept
      simp [keptRow, keptKey, hget, hkind, hnamed] at hkept
    · -- the binding that puts it names it
      cases heq
      have htarget := model.id_of_get (model.stub_eq_some.1 hstub').1
      obtain ⟨owner, howner, hkeep⟩ := (Option.any_eq_true _ _).1 hkept
      exact hnamed (named_iff.2 ⟨binding, mem_bindings hx, htarget.symm, owner, howner, hkeep⟩)

/-- A search among what is all kept, or all left out. -/
theorem findSome?_ite {α β : Type} {f : α → Option β} {p : α → Bool} {b : Bool} : ∀ {l : List α},
    (∀ x ∈ l, f x ≠ none → p x = b) →
    l.findSome? (fun x ↦ if p x then f x else none) = if b then l.findSome? f else none
  | [], _ => by simp
  | x :: l, h => by
    have ih := findSome?_ite fun y (hy : y ∈ l) ↦ h y (by simp [hy])
    rcases hx : f x with _ | y
    · simp [hx, ih]
    · have hp := h x (by simp) (by simp [hx])
      rw [List.findSome?_cons, List.findSome?_cons, ih, hp]
      cases b <;> simp [hx]

/-- **A key has what the full tables have, if some kept crate keeps it.** -/
theorem lastAt_keptEntries (key : Key N) : lastAt key (model.keptEntries keep) =
    if model.keptKey keep key then lastAt key model.allEntries else none := by
  by_cases hstub : ∃ id stub, key = .nodesById id ∧ model.stub id = some stub
  · obtain ⟨id, stub, rfl, hstub⟩ := hstub
    obtain ⟨hget, hkind⟩ := model.stub_eq_some.1 hstub
    rw [lastAt_stub hstub]
    simp [keptKey, hget, hkind]
  · have hwritten : ∀ x, lastAt key (model.written keep x) =
        if model.kept keep x then lastAt key (model.entries x) else none := by
      intro x
      rw [written]
      split <;> rfl
    rw [keptEntries, lastAt_flatMap, allEntries, lastAt_flatMap]
    simp only [hwritten]
    refine findSome?_ite fun x hx hne ↦ ?_
    obtain ⟨value, hvalue⟩ := Option.ne_none_iff_exists'.1 hne
    rcases kept_eq (List.mem_reverse.1 hx) (put_mem_of_lastAt hvalue) with
      hrow | ⟨binding, stub, -, hbinding, heq⟩
    · exact hrow keep
    · cases heq
      have hid := model.id_of_get (model.stub_eq_some.1 hbinding).1
      exact absurd ⟨stub.id, stub, rfl, hid ▸ hbinding⟩ hstub

/-- A multimap's entry is kept when its row is. -/
theorem mem_keptEntries_dup {d : Dup N} : .dup d ∈ model.keptEntries keep ↔
    .dup d ∈ model.allEntries ∧ model.keptRow keep (.dup d) := by
  rw [mem_keptEntries, mem_allEntries]
  constructor
  · rintro ⟨x, hx, hkept, hentry⟩
    rcases kept_eq hx hentry with hrow | ⟨binding, stub, -, -, heq⟩
    · exact ⟨⟨x, hx, hentry⟩, hrow keep ▸ hkept⟩
    · cases heq
  · rintro ⟨⟨x, hx, hentry⟩, hkept⟩
    rcases kept_eq hx hentry with hrow | ⟨binding, stub, -, -, heq⟩
    · exact ⟨x, hx, hrow keep ▸ hkept, hentry⟩
    · cases heq

@[simp] theorem tables_plain (key : Key N) :
    (model.tables keep : GraphDatabases N Rest Embedding).plain key =
      if model.keptKey keep key then lastAt key model.allEntries else none := by
  rw [tables, foldl_apply_plain, lastAt_keptEntries]
  exact Option.or_none

@[simp] theorem mem_tables_dups {d : Dup N} :
    d ∈ (model.tables keep : GraphDatabases N Rest Embedding).dups ↔
      .dup d ∈ model.allEntries ∧ model.keptRow keep (.dup d) := by
  rw [tables, mem_foldl_apply_dups, mem_keptEntries_dup]
  simp [GraphDatabases.empty]

/-- A crate lists its rows while it is kept. -/
theorem listed_iff {owner : N} {row : OwnedRow N} :
    ((∃ entry ∈ model.keptEntries keep, entry.row = row) ∧ model.rowOwner row = some owner) ↔
      (∃ entry ∈ model.allEntries, entry.row = row) ∧ model.rowOwner row = some owner ∧
        keep owner := by
  rw [← and_assoc, and_right_comm]
  refine and_congr_left fun howner ↦ ⟨?_, ?_⟩
  · rintro ⟨entry, hentry, rfl⟩
    obtain ⟨x, hx, hkept, hentry⟩ := mem_keptEntries.1 hentry
    refine ⟨⟨entry, mem_allEntries.2 ⟨x, hx, hentry⟩, rfl⟩, ?_⟩
    rwa [kept_of_owner hx hentry howner] at hkept
  · rintro ⟨⟨entry, hentry, rfl⟩, hkeep⟩
    obtain ⟨x, hx, hentry⟩ := mem_allEntries.1 hentry
    exact ⟨entry, mem_keptEntries.2 ⟨x, hx, (kept_of_owner hx hentry howner).trans hkeep,
      hentry⟩, rfl⟩

@[simp] theorem mem_tables_owned {owner : N} {row : OwnedRow N} :
    (owner, row) ∈ (model.tables keep : GraphDatabases N Rest Embedding).owned ↔
      (∃ entry ∈ model.allEntries, entry.row = row) ∧ model.rowOwner row = some owner ∧
        keep owner := by
  rw [tables, mem_foldl_apply_owned, listed_iff]
  simp [GraphDatabases.empty]

@[simp] theorem tables_embeddings :
    (model.tables keep : GraphDatabases N Rest Embedding).embeddings = fun _ ↦ none :=
  foldl_apply_embeddings _ _

/-! ### More crates -/

omit [DecidableEq N] in
theorem any_or (o : Option N) (keep keep' : N → Bool) :
    o.any (fun krate ↦ keep krate || keep' krate) = (o.any keep || o.any keep') := by
  rcases o with _ | krate <;> rfl

variable (model keep) in
/-- A stub is named by the one or by the other. -/
theorem named_or (keep' : N → Bool) (id : N) :
    model.named (fun krate ↦ keep krate || keep' krate) id =
      (model.named keep id || model.named keep' id) := by
  rw [Bool.eq_iff_iff, Bool.or_eq_true, named_iff, named_iff, named_iff]
  simp only [Bool.or_eq_true, and_or_left, exists_or]

variable (model keep) in
/-- A record is kept by the one or by the other. -/
theorem recordKept_or (keep' : N → Bool) (id : N) :
    model.recordKept (fun krate ↦ keep krate || keep' krate) id =
      (model.recordKept keep id || model.recordKept keep' id) := by
  rw [recordKept, recordKept, recordKept]
  split
  · exact model.named_or keep keep' id
  · exact any_or _ keep keep'

variable (model keep) in
/-- A key is kept by some crate. -/
theorem keptKey_or (keep' : N → Bool) (key : Key N) :
    model.keptKey (fun krate ↦ keep krate || keep' krate) key =
      (model.keptKey keep key || model.keptKey keep' key) := by
  rcases key with id | id | id | target | target | item
  case nodesById =>
    rw [keptKey, keptKey, keptKey]
    rcases model.get id with _ | node
    · rfl
    · rcases hkind : node.kind with _ | _ | _ | _ | _ <;>
        simp [hkind, named_or, any_or]
  case signaturesByTarget | staticMetadataByTarget => exact model.recordKept_or keep keep' target
  all_goals exact any_or _ keep keep'

end ExtractionModel

end RustCodeMcp.Ownership
