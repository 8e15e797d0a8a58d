import RustCodeMcp.Graph.Kept

/-!
# Deleting the rows of a crate

A deletion cuts the tables down to the other crates, and writing the crate again undoes it: after
any deletions and rewrites the tables are those of the crates that are there.

**What a crate lists is not quite what a deletion removes.** The rows that are listed under it go,
each from its own table; a stub is a row of no crate, kept as long as somebody names it, and goes
with its records when the last crate that does is deleted. So the proof has two halves: the listed
rows, which are those the crate keeps and no other crate does (`has_of_owned`), and the stubs it
names, which go exactly if nobody else names them (`gone_iff`).

In the end both are read off the tables of the crates that are kept, `ExtractionModel.tables`, so no
deletion is ever compared with the writes before it.
-/

namespace RustCodeMcp.Ownership

variable {N Rest Embedding : Type} [DecidableEq N] {dbs : GraphDatabases N Rest Embedding}

namespace GraphDatabases

/-- Whether a row is in its table. -/
def Has (dbs : GraphDatabases N Rest Embedding) : OwnedRow N → Prop
  | .key key => (dbs.plain key).isSome
  | .dup d => d ∈ dbs.dups

/-- The tables less these rows. -/
def without (dbs : GraphDatabases N Rest Embedding) (rows : List (OwnedRow N)) :
    GraphDatabases N Rest Embedding where
  plain key := if .key key ∈ rows then none else dbs.plain key
  dups := dbs.dups.filter fun d ↦ .dup d ∉ rows
  owned := dbs.owned
  embeddings id := if .key (.nodesById id) ∈ rows then none else dbs.embeddings id

theorem mem_without_dups {rows : List (OwnedRow N)}
    {d : Dup N} : d ∈ (dbs.without rows).dups ↔ d ∈ dbs.dups ∧ .dup d ∉ rows :=
  Finset.mem_filter

theorem without_nil (dbs : GraphDatabases N Rest Embedding) : dbs.without [] = dbs := by
  ext <;> simp [without]

/-- A row that is there is deleted. -/
theorem deleteOwned_eq {row : OwnedRow N} (krate : N)
    (h : dbs.Has row) : deleteOwned krate dbs row = .ok (dbs.without [row]) := by
  have hplain : ∀ key, Function.update dbs.plain key none = (dbs.without [.key key]).plain := by
    intro key
    funext other
    by_cases hkey : other = key
    · subst hkey
      simp [without]
    · simp [without, hkey]
  rcases row with key | d
  · have hsome : (dbs.plain key).isSome := h
    have hdups : dbs.dups = (dbs.without [.key key]).dups := by simp [without]
    rw [deleteOwned, delete, if_pos hsome]
    rcases key with id | id | id | target | target | item
    case nodesById =>
      refine congrArg Except.ok (GraphDatabases.ext (hplain _) hdups rfl ?_)
      funext other
      by_cases hid : other = id
      · subst hid
        simp [without, dropEmbedding]
      · simp [without, dropEmbedding, hid]
    all_goals
      refine congrArg Except.ok (GraphDatabases.ext (hplain _) hdups rfl ?_)
      simp [without]
  · have hmem : d ∈ dbs.dups := h
    rw [deleteOwned, delete, if_pos hmem]
    refine congrArg Except.ok (GraphDatabases.ext ?_ ?_ rfl ?_)
    · simp [without]
    · ext other
      simp [without, and_comm]
    · simp [without]

theorem without_cons (dbs : GraphDatabases N Rest Embedding) (row : OwnedRow N)
    (rows : List (OwnedRow N)) : dbs.without (row :: rows) = (dbs.without [row]).without rows := by
  ext1
  · funext key
    by_cases h : OwnedRow.key key = row <;> simp [without, h]
  · ext d
    by_cases h : OwnedRow.dup d = row <;> simp [without, h]
  · rfl
  · funext id
    by_cases h : OwnedRow.key (.nodesById id) = row <;> simp [without, h]

theorem has_without {row other : OwnedRow N}
    (h : dbs.Has other) (hne : other ≠ row) : (dbs.without [row]).Has other := by
  rcases other with key | d
  · simpa [Has, without, hne] using h
  · simpa [Has, without, hne] using h

/-- Rows that are all there are all deleted. -/
theorem foldlM_deleteOwned (krate : N) : ∀ {rows : List (OwnedRow N)}
    {dbs : GraphDatabases N Rest Embedding}, rows.Nodup → (∀ row ∈ rows, dbs.Has row) →
    rows.foldlM (deleteOwned krate) dbs = .ok (dbs.without rows)
  | [], dbs, _, _ => by
    rw [without_nil]
    rfl
  | row :: rows, dbs, hnodup, hhas => by
    rw [List.nodup_cons] at hnodup
    rw [List.foldlM_cons, deleteOwned_eq krate (hhas row (by simp))]
    show rows.foldlM (deleteOwned krate) (dbs.without [row]) = _
    rw [foldlM_deleteOwned krate hnodup.2 fun other hmem ↦
      has_without (hhas other (by simp [hmem])) (ne_of_mem_of_not_mem hmem hnodup.1),
      ← without_cons]

/-! ### The stubs -/

/-- The stub that a key is about. -/
def stubKey : Key N → Option N
  | .nodesById id | .signaturesByTarget id | .staticMetadataByTarget id => some id
  | _ => none

/-- Nobody names a stub when no crate is noted for it. -/
theorem orphan_iff {stub : N} : dbs.Orphan stub ↔ ∀ krate, .stubOwners stub krate ∉ dbs.dups := by
  rw [Orphan, Finset.filter_eq_empty_iff]
  constructor
  · intro h krate hmem
    exact h hmem rfl
  · intro h d hmem
    rcases d with _ | _ | _ | _ | _ | _ | _ | ⟨stub', krate⟩
    case stubOwners =>
      intro heq
      cases heq
      exact h krate hmem
    all_goals exact nofun

/-- A stub that nobody names goes, with its records. -/
theorem deleteStub_plain (dbs : GraphDatabases N Rest Embedding) (stub : N) (key : Key N) :
    (dbs.deleteStub stub).plain key =
      if stubKey key = some stub ∧ dbs.Orphan stub then none else dbs.plain key := by
  by_cases horphan : dbs.Orphan stub
  · rw [deleteStub, if_pos horphan]
    rcases key with id | id | id | target | target | item
    case nodesById =>
      rcases eq_or_ne id stub with rfl | hid
      · simp [stubKey, horphan]
      · simp [stubKey, hid]
    case signaturesByTarget | staticMetadataByTarget =>
      rcases eq_or_ne target stub with rfl | hid
      · simp [stubKey, horphan]
      · simp [stubKey, hid]
    all_goals simp [stubKey]
  · rw [deleteStub, if_neg horphan, if_neg fun h ↦ horphan h.2]

theorem deleteStub_dups (dbs : GraphDatabases N Rest Embedding) (stub : N) :
    (dbs.deleteStub stub).dups = dbs.dups := by
  rw [deleteStub]
  split <;> rfl

theorem deleteStub_owned (dbs : GraphDatabases N Rest Embedding) (stub : N) :
    (dbs.deleteStub stub).owned = dbs.owned := by
  rw [deleteStub]
  split <;> rfl

theorem deleteStub_embeddings (h : dbs.embeddings = fun _ ↦ none) (stub : N) :
    (dbs.deleteStub stub).embeddings = fun _ ↦ none := by
  rw [deleteStub]
  split
  · simp [h]
  · exact h

/-- The stubs of a list that nobody names go, with their records. -/
theorem foldl_deleteStub_plain (key : Key N) : ∀ (stubs : List N)
    (dbs : GraphDatabases N Rest Embedding), (stubs.foldl deleteStub dbs).plain key =
      if ∃ stub ∈ stubs, stubKey key = some stub ∧ dbs.Orphan stub then none else dbs.plain key
  | [], dbs => by simp
  | stub :: stubs, dbs => by
    have horphan : ∀ id, (dbs.deleteStub stub).Orphan id ↔ dbs.Orphan id := by
      intro id
      rw [Orphan, deleteStub_dups]
      rfl
    rw [List.foldl_cons, foldl_deleteStub_plain key stubs, deleteStub_plain]
    simp only [horphan, List.mem_cons, exists_eq_or_imp]
    by_cases hstub : stubKey key = some stub ∧ dbs.Orphan stub <;> simp [hstub]

theorem foldl_deleteStub_rest : ∀ (stubs : List N) (dbs : GraphDatabases N Rest Embedding),
    (stubs.foldl deleteStub dbs).dups = dbs.dups ∧
      (stubs.foldl deleteStub dbs).owned = dbs.owned ∧
      ((dbs.embeddings = fun _ ↦ none) → (stubs.foldl deleteStub dbs).embeddings = fun _ ↦ none)
  | [], dbs => ⟨rfl, rfl, id⟩
  | stub :: stubs, dbs => by
    obtain ⟨hdups, howned, hembeddings⟩ := foldl_deleteStub_rest stubs (dbs.deleteStub stub)
    exact ⟨hdups.trans (deleteStub_dups dbs stub), howned.trans (deleteStub_owned dbs stub),
      fun h ↦ hembeddings (deleteStub_embeddings h stub)⟩

end GraphDatabases

namespace ExtractionModel

variable {model : ExtractionModel N Rest} {keep : N → Bool}

/-! ### One deletion -/

/-- A stub's crates are those that own a binding to it. -/
theorem mem_stubOwners {stub krate : N} : .dup (.stubOwners stub krate) ∈ model.allEntries ↔
    (model.stub stub).isSome ∧ ∃ binding ∈ model.bindings, binding.target = stub ∧
      model.crateOf binding.fromModule = some krate := by
  rw [mem_allEntries]
  constructor
  · rintro ⟨x, hx, hentry⟩
    rcases x with node | binding | edge | usage | item | record | record
    case node =>
      rw [entries] at hentry
      split at hentry <;> simp at hentry
    case binding =>
      rw [entries, List.mem_append] at hentry
      rcases hentry with hentry | hentry
      · simp at hentry
      · obtain ⟨node, owner, hstub, howner, heq | heq⟩ := mem_stubEntries.1 hentry
        · cases heq
        · cases heq
          have hid := model.id_of_get (model.stub_eq_some.1 hstub).1
          exact ⟨by simp [hid, hstub], binding, mem_bindings hx, hid.symm, howner⟩
    all_goals simp [entries, usageEntries] at hentry
  · rintro ⟨hsome, binding, hmem, rfl, howner⟩
    obtain ⟨node, hstub⟩ := Option.isSome_iff_exists.1 hsome
    have hid := model.id_of_get (model.stub_eq_some.1 hstub).1
    exact ⟨.binding binding, binding_mem hmem, List.mem_append_right _
      (mem_stubEntries.2 ⟨node, krate, hstub, howner, .inr (by rw [hid])⟩)⟩

/-- A stub is named by a kept crate when that crate is noted for it. -/
theorem named_iff_stubOwners {id : N} (hstub : (model.stub id).isSome) : model.named keep id ↔
    ∃ krate, .dup (.stubOwners id krate) ∈ model.allEntries ∧ keep krate := by
  rw [named_iff]
  simp only [mem_stubOwners, hstub, true_and]
  constructor
  · rintro ⟨binding, hmem, htarget, owner, howner, hkeep⟩
    exact ⟨owner, ⟨binding, hmem, htarget, howner⟩, hkeep⟩
  · rintro ⟨owner, ⟨binding, hmem, htarget, howner⟩, hkeep⟩
    exact ⟨binding, hmem, htarget, owner, howner, hkeep⟩

/-- A key that no crate lists is a stub's, or is kept whatever the crates. -/
theorem keptKey_of_rowOwner_none {key : Key N} (h : model.rowOwner (.key key) = none) :
    (∃ stub, GraphDatabases.stubKey key = some stub ∧ (model.stub stub).isSome ∧
      ∀ keep, model.keptKey keep key = model.named keep stub) ∨
    ((∀ stub, GraphDatabases.stubKey key = some stub → ¬ (model.stub stub).isSome) ∧
      ∃ b, ∀ keep, model.keptKey keep key = b) := by
  have hnone : ∀ {id : N}, model.crateOf id = none → ∀ keep : N → Bool,
      (model.crateOf id).any keep = false := by
    intro id hid keep
    rw [hid]
    rfl
  rcases key with id | id | id | target | target | item
  case nodesById =>
    rcases hget : model.get id with _ | node
    · refine .inr ⟨?_, false, fun keep ↦ by simp [keptKey, hget]⟩
      rintro _ ⟨⟩
      simp [ExtractionModel.stub, hget]
    · rcases hkind : node.kind with _ | _ | _ | _ | _
      case externalSymbol =>
        exact .inl ⟨id, rfl, by simp [ExtractionModel.stub, hget, hkind],
          fun keep ↦ by simp [keptKey, hget, hkind]⟩
      case workspace =>
        refine .inr ⟨?_, true, fun keep ↦ by simp [keptKey, hget, hkind]⟩
        rintro _ ⟨⟩
        simp [ExtractionModel.stub, hget, hkind]
      all_goals
        have hcrate : node.crateId = none := by simpa [rowOwner, hget, hkind] using h
        refine .inr ⟨?_, false, fun keep ↦ by simp [keptKey, hget, hkind, hcrate]⟩
        rintro _ ⟨⟩
        simp [ExtractionModel.stub, hget, hkind]
  case signaturesByTarget | staticMetadataByTarget =>
    by_cases hstub : (model.stub target).isSome
    · exact .inl ⟨target, rfl, hstub, fun keep ↦ by simp [keptKey, recordKept, hstub]⟩
    · rw [rowOwner, if_neg hstub] at h
      refine .inr ⟨?_, false, fun keep ↦ by simp [keptKey, recordKept, hstub, h]⟩
      rintro _ ⟨⟩
      exact hstub
  all_goals exact .inr ⟨by rintro _ ⟨⟩, false, hnone h⟩

/-- The rows that a crate lists are in their tables. -/
theorem has_of_owned {krate : N} {row : OwnedRow N}
    (h : (krate, row) ∈ (model.tables keep : GraphDatabases N Rest Embedding).owned) :
    (model.tables keep : GraphDatabases N Rest Embedding).Has row := by
  obtain ⟨⟨entry, hentry, rfl⟩, howner, hkeep⟩ := mem_tables_owned.1 h
  have hkept := (keptRow_of_rowOwner howner keep).trans hkeep
  rcases entry with ⟨key, value⟩ | d
  · have hkey : model.keptKey keep key := hkept
    show ((model.tables keep).plain key).isSome
    rw [tables_plain, if_pos hkey, Option.isSome_iff_ne_none]
    exact fun hlast ↦ lastAt_eq_none.1 hlast value hentry
  · exact mem_tables_dups.2 ⟨hentry, hkept⟩

/-- The reading of a table's rows, in some order. -/
def Lists (listing : Finset (OwnedRow N) → List (OwnedRow N)) : Prop :=
  ∀ rows, (listing rows).Nodup ∧ ∀ row, row ∈ listing rows ↔ row ∈ rows

theorem rowOwner_of_stubKey {key : Key N} {stub : N}
    (hkey : GraphDatabases.stubKey key = some stub) (hstub : (model.stub stub).isSome) :
    model.rowOwner (.key key) = none := by
  rcases key with id | id | id | target | target | item
  case nodesById =>
    cases hkey
    obtain ⟨node, hnode⟩ := Option.isSome_iff_exists.1 hstub
    obtain ⟨hget, hkind⟩ := model.stub_eq_some.1 hnode
    simp [rowOwner, hget, hkind]
  case signaturesByTarget | staticMetadataByTarget =>
    cases hkey
    rw [rowOwner, if_pos hstub]
  all_goals cases hkey

section Deletion

variable {rows : List (OwnedRow N)} {krate : N}

/-- The rows that the crate lists. -/
def RowsOf (model : ExtractionModel N Rest) (keep : N → Bool) (krate : N)
    (rows : List (OwnedRow N)) : Prop :=
  ∀ row, row ∈ rows ↔ (∃ entry ∈ model.allEntries, entry.row = row) ∧
    model.rowOwner row = some krate ∧ keep krate

/-- The multimaps without the crate's rows are those of the other crates. -/
theorem without_dups (hrows : RowsOf model keep krate rows) :
    ((model.tables keep : GraphDatabases N Rest Embedding).without rows).dups =
      (model.tables fun c ↦ keep c && c ≠ krate : GraphDatabases N Rest Embedding).dups := by
  ext d
  have hd : .dup d ∈ rows ↔
      .dup d ∈ model.allEntries ∧ model.rowOwner (.dup d) = some krate ∧ keep krate := by
    rw [hrows]
    refine and_congr_left fun _ ↦ ⟨?_, fun h ↦ ⟨_, h, rfl⟩⟩
    rintro ⟨entry, hentry, hrow⟩
    rcases entry with _ | d' <;> cases hrow
    exact hentry
  rw [GraphDatabases.mem_without_dups, mem_tables_dups, mem_tables_dups, hd, and_assoc]
  refine and_congr_right fun hall ↦ ?_
  rcases howner : model.rowOwner (.dup d) with _ | owner
  · simp [keptRow, howner]
  · rw [keptRow_of_rowOwner howner, keptRow_of_rowOwner howner]
    rcases eq_or_ne owner krate with rfl | hne
    · simp [hall]
    · simp [hall, hne]

/-- The stubs among the rows are those the crate names. -/
theorem mem_stubs (hrows : RowsOf model keep krate rows) {stub : N} :
    stub ∈ rows.filterMap GraphDatabases.stubOf ↔
      .dup (.stubOwners stub krate) ∈ model.allEntries ∧ keep krate := by
  rw [List.mem_filterMap]
  constructor
  · rintro ⟨row, hrow, hstub⟩
    obtain ⟨⟨entry, hentry, rfl⟩, howner, hkeep⟩ := (hrows row).1 hrow
    rcases entry with _ | (_ | _ | _ | _ | _ | _ | _ | ⟨stub', owner⟩) <;> cases hstub
    cases howner
    exact ⟨hentry, hkeep⟩
  · rintro ⟨hentry, hkeep⟩
    exact ⟨.dup (.stubOwners stub krate), (hrows _).2 ⟨⟨_, hentry, rfl⟩, rfl, hkeep⟩, rfl⟩

/-- The stubs that only this crate names go. -/
theorem gone_iff (hrows : RowsOf model keep krate rows) {stub : N}
    (hstub : (model.stub stub).isSome) :
    (stub ∈ rows.filterMap GraphDatabases.stubOf ∧
      ((model.tables keep : GraphDatabases N Rest Embedding).without rows).Orphan stub) ↔
    (.dup (.stubOwners stub krate) ∈ model.allEntries ∧ keep krate) ∧
      ¬ model.named (fun c ↦ keep c && c ≠ krate) stub := by
  rw [mem_stubs hrows, GraphDatabases.orphan_iff, without_dups hrows,
    named_iff_stubOwners hstub]
  simp only [mem_tables_dups, keptRow, rowOwner, Option.any_some, not_exists]

/-- A key has what it has for the other crates. -/
theorem deleted_plain (hrows : RowsOf model keep krate rows) (key : Key N) :
    ((rows.filterMap GraphDatabases.stubOf).foldl GraphDatabases.deleteStub
      ((model.tables keep : GraphDatabases N Rest Embedding).without rows)).plain key =
      if model.keptKey (fun c ↦ keep c && c ≠ krate) key then lastAt key model.allEntries
      else none := by
  have hwithout : ((model.tables keep : GraphDatabases N Rest Embedding).without rows).plain key =
      if .key key ∈ rows then none
      else if model.keptKey keep key then lastAt key model.allEntries else none := by
    show (if .key key ∈ rows then none else (model.tables keep).plain key) = _
    rw [tables_plain]
  rw [GraphDatabases.foldl_deleteStub_plain, hwithout]
  -- A key of no crate goes with the last crate that needs its stub; a key of a crate goes with it.
  rcases howner : model.rowOwner (.key key) with _ | owner
  · have hkey : .key key ∉ rows := fun hmem ↦ by simp [((hrows _).1 hmem).2.1] at howner
    rw [if_neg hkey]
    obtain ⟨stub, hstubKey, hstub, hkept⟩ | ⟨hstub, b, hkept⟩ := keptKey_of_rowOwner_none howner
    · have hgone : (∃ stub ∈ rows.filterMap GraphDatabases.stubOf,
          GraphDatabases.stubKey key = some stub ∧
            ((model.tables keep : GraphDatabases N Rest Embedding).without rows).Orphan stub) ↔
          (.dup (.stubOwners stub krate) ∈ model.allEntries ∧ keep krate) ∧
            ¬ model.named (fun c ↦ keep c && c ≠ krate) stub := by
        rw [← @gone_iff _ _ Embedding _ _ _ _ _ hrows _ hstub]
        constructor
        · rintro ⟨other, hmem, hother, horphan⟩
          obtain rfl := Option.some_injective _ (hother.symm.trans hstubKey)
          exact ⟨hmem, horphan⟩
        · exact fun h ↦ ⟨stub, h.1, hstubKey, h.2⟩
      -- The stub is needed by a crate that stays, or by the one that is taken out.
      have hnamed : model.named keep stub ↔ model.named (fun c ↦ keep c && c ≠ krate) stub ∨
          (.dup (.stubOwners stub krate) ∈ model.allEntries ∧ keep krate) := by
        rw [named_iff_stubOwners hstub, named_iff_stubOwners hstub]
        constructor
        · rintro ⟨c, hc, hkeep⟩
          rcases eq_or_ne c krate with rfl | hne
          · exact .inr ⟨hc, hkeep⟩
          · exact .inl ⟨c, hc, by simp [hkeep, hne]⟩
        · rintro (⟨c, hc, hkeep⟩ | ⟨hc, hkeep⟩)
          · exact ⟨c, hc, (Bool.and_eq_true_iff.1 hkeep).1⟩
          · exact ⟨krate, hc, hkeep⟩
      rw [hkept, hkept]
      by_cases hleft : model.named (fun c ↦ keep c && c ≠ krate) stub
      · rw [if_neg fun h ↦ (hgone.1 h).2 hleft, if_pos (hnamed.2 (.inl hleft)), if_pos hleft]
      · by_cases hkrate : .dup (.stubOwners stub krate) ∈ model.allEntries ∧ keep krate
        · rw [if_pos (hgone.2 ⟨hkrate, hleft⟩), if_neg hleft]
        · rw [if_neg fun h ↦ hkrate (hgone.1 h).1, if_neg fun h ↦ (hnamed.1 h).elim hleft hkrate,
            if_neg hleft]
    -- No stub stands for this key, so no deletion of one reaches it.
    · have hgone : ¬ ∃ stub ∈ rows.filterMap GraphDatabases.stubOf,
          GraphDatabases.stubKey key = some stub ∧
            ((model.tables keep : GraphDatabases N Rest Embedding).without rows).Orphan stub := by
        rintro ⟨stub, hmem, hstubKey, -⟩
        exact hstub stub hstubKey (mem_stubOwners.1 ((mem_stubs hrows).1 hmem).1).1
      rw [if_neg hgone, hkept, hkept]
  · have hgone : ¬ ∃ stub ∈ rows.filterMap GraphDatabases.stubOf,
        GraphDatabases.stubKey key = some stub ∧
          ((model.tables keep : GraphDatabases N Rest Embedding).without rows).Orphan stub := by
      rintro ⟨stub, hmem, hstubKey, -⟩
      have hstub := (mem_stubOwners.1 ((mem_stubs hrows).1 hmem).1).1
      simp [rowOwner_of_stubKey hstubKey hstub] at howner
    have hkept : ∀ keep : N → Bool, model.keptKey keep key = keep owner :=
      fun keep ↦ keptRow_of_rowOwner howner keep
    rw [if_neg hgone, hkept, hkept]
    rcases eq_or_ne owner krate with rfl | hne
    · rcases hlast : lastAt key model.allEntries with _ | value
      · simp
      · have hkey : .key key ∈ rows ↔ keep owner := by
          rw [hrows]
          exact ⟨fun h ↦ h.2.2, fun h ↦ ⟨⟨_, put_mem_of_lastAt hlast, rfl⟩, howner, h⟩⟩
        by_cases hkeep : keep owner <;> simp [hkey, hkeep]
    · have hkey : .key key ∉ rows := fun hmem ↦
        hne (Option.some_injective _ (howner.symm.trans ((hrows _).1 hmem).2.1))
      simp [hkey, hne]

end Deletion

variable (model keep) in
/-- **A deletion leaves the tables of the other crates.** -/
theorem deleteCrateRows_tables {listing : Finset (OwnedRow N) → List (OwnedRow N)}
    (hlisting : Lists listing) (krate : N) :
    ∃ n, (model.tables keep : GraphDatabases N Rest Embedding).deleteCrateRows listing krate =
      .ok (model.tables fun c ↦ keep c && c ≠ krate, n) := by
  set dbs : GraphDatabases N Rest Embedding := model.tables keep with hdbs
  set rows := listing ((dbs.owned.filter (·.1 = krate)).image Prod.snd) with hlist
  have hmem : ∀ row, row ∈ rows ↔ (krate, row) ∈ dbs.owned := by
    intro row
    rw [hlist, (hlisting _).2, Finset.mem_image]
    constructor
    · rintro ⟨⟨owner, row⟩, hrow, rfl⟩
      obtain ⟨hrow, howner⟩ := Finset.mem_filter.1 hrow
      exact howner ▸ hrow
    · exact fun hrow ↦ ⟨(krate, row), by simp [hrow], rfl⟩
  have hrows : RowsOf model keep krate rows := fun row ↦ (hmem row).trans mem_tables_owned
  have hdelete := GraphDatabases.foldlM_deleteOwned krate (hlisting _).1 fun row hrow ↦
    has_of_owned ((hmem row).1 hrow)
  obtain ⟨hdups, howned, hembeddings⟩ := GraphDatabases.foldl_deleteStub_rest
    (rows.filterMap GraphDatabases.stubOf) (dbs.without rows)
  refine ⟨rows.length, ?_⟩
  rw [GraphDatabases.deleteCrateRows]
  simp only [← hlist]
  rw [hdelete]
  refine congrArg (fun dbs ↦ Except.ok (dbs, rows.length)) (GraphDatabases.ext ?_ ?_ ?_ ?_)
  · funext key
    rw [tables_plain]
    exact deleted_plain hrows key
  · exact hdups.trans (without_dups hrows)
  · show Finset.filter (fun row ↦ row.1 ≠ krate) ((rows.filterMap GraphDatabases.stubOf).foldl
      GraphDatabases.deleteStub (dbs.without rows)).owned = _
    rw [howned]
    ext ⟨owner, row⟩
    show (owner, row) ∈ Finset.filter _ dbs.owned ↔ _
    simp only [Finset.mem_filter, hdbs, mem_tables_owned, Bool.and_eq_true, decide_eq_true_eq]
    tauto
  · rw [tables_embeddings]
    exact hembeddings (by simp [GraphDatabases.without, hdbs])

/-! ### Deletions and rewrites -/

/-- A write adds its crates to those that are there. -/
theorem foldl_apply_tables (keep' : N → Bool) :
    (model.keptEntries keep').foldl model.apply
      (model.tables keep : GraphDatabases N Rest Embedding) =
      model.tables fun c ↦ keep c || keep' c := by
  refine GraphDatabases.ext ?_ ?_ ?_ ?_
  · funext key
    rw [foldl_apply_plain, tables_plain, tables_plain, lastAt_keptEntries, keptKey_or]
    rcases model.keptKey keep key <;> rcases model.keptKey keep' key <;> simp
  · ext d
    rw [mem_foldl_apply_dups, mem_keptEntries_dup, mem_tables_dups, mem_tables_dups, ← and_or_left]
    refine and_congr_right fun _ ↦ ?_
    rw [keptRow, keptRow, keptRow, any_or, Bool.or_eq_true]
  · ext ⟨owner, row⟩
    rw [mem_foldl_apply_owned, listed_iff, mem_tables_owned, mem_tables_owned, Bool.or_eq_true,
      and_or_left, and_or_left]
  · rw [foldl_apply_embeddings, tables_embeddings, tables_embeddings]

/-- A step of the maintenance of a snapshot. -/
inductive Step (N : Type)
  | delete (krate : N)
  | rewrite (krate : N)

/-- What a step does to the tables. -/
def Step.run (model : ExtractionModel N Rest) (listing : Finset (OwnedRow N) → List (OwnedRow N))
    (dbs : GraphDatabases N Rest Embedding) :
    Step N → Except (OwnershipError N) (GraphDatabases N Rest Embedding)
  | .delete krate => Prod.fst <$> dbs.deleteCrateRows listing krate
  | .rewrite krate => Prod.fst <$> model.writeOwnedRows (fun c ↦ c = krate) dbs

/-- The crates that are there after a step. -/
def Step.present (keep : N → Bool) : Step N → N → Bool
  | .delete krate => fun c ↦ keep c && c ≠ krate
  | .rewrite krate => fun c ↦ keep c || c = krate

/-- A step leaves the tables of the crates that are there after it. -/
theorem Step.run_tables (h : model.Resolved) (hcalls : model.CallsAtHome)
    {listing : Finset (OwnedRow N) → List (OwnedRow N)} (hlisting : Lists listing)
    (keep : N → Bool) (step : Step N) :
    step.run model listing (model.tables keep : GraphDatabases N Rest Embedding) =
      .ok (model.tables (step.present keep)) := by
  rcases step with krate | krate
  · obtain ⟨n, hdelete⟩ := @deleteCrateRows_tables _ _ Embedding _ model keep _ hlisting krate
    rw [run, hdelete]
    rfl
  · obtain ⟨counts, hwrite⟩ := writeOwnedRows_eq h hcalls (fun c ↦ c = krate)
      (model.tables keep : GraphDatabases N Rest Embedding)
    rw [run, hwrite, foldl_apply_tables]
    rfl

theorem run_tables (h : model.Resolved) (hcalls : model.CallsAtHome)
    {listing : Finset (OwnedRow N) → List (OwnedRow N)} (hlisting : Lists listing) :
    ∀ (steps : List (Step N)) (keep : N → Bool),
      steps.foldlM (Step.run model listing)
        (model.tables keep : GraphDatabases N Rest Embedding) =
        .ok (model.tables (steps.foldl Step.present keep))
  | [], keep => rfl
  | step :: steps, keep => by
    rw [List.foldlM_cons, Step.run_tables h hcalls hlisting]
    exact run_tables h hcalls hlisting steps (step.present keep)

/-- **Deletions and rewrites leave what a write of the crates that are there would have written.**
In particular a deletion leaves what the write of the other crates would have, and writing the
crate again restores what was there. -/
theorem maintained (hcalls : model.CallsAtHome)
    {listing : Finset (OwnedRow N) → List (OwnedRow N)} (hlisting : Lists listing)
    {full : GraphDatabases N Rest Embedding} {counts : WrittenCounts}
    (hfull : model.writeOwnedRows (fun _ ↦ true) .empty = .ok (full, counts)) :
    (∀ steps : List (Step N), ∃ dbs counts,
      steps.foldlM (Step.run model listing) full = .ok dbs ∧
        model.writeOwnedRows (steps.foldl Step.present fun _ ↦ true) .empty = .ok (dbs, counts)) ∧
    ∀ krate, ∃ rest n counts₁ counts₂,
      full.deleteCrateRows listing krate = .ok (rest, n) ∧
        model.writeOwnedRows (fun c ↦ c ≠ krate) .empty = .ok (rest, counts₁) ∧
        model.writeOwnedRows (fun c ↦ c = krate) rest = .ok (full, counts₂) := by
  have h := Resolved.of_writeOwnedRows hfull
  have hwrite : ∀ keep : N → Bool, ∃ counts, model.writeOwnedRows keep
      (.empty : GraphDatabases N Rest Embedding) = .ok (model.tables keep, counts) :=
    fun keep ↦ writeOwnedRows_eq h hcalls keep .empty
  obtain rfl : full = model.tables fun _ ↦ true := by
    obtain ⟨counts', hall⟩ := hwrite fun _ ↦ true
    rw [hall] at hfull
    cases hfull
    rfl
  refine ⟨fun steps ↦ ?_, fun krate ↦ ?_⟩
  · obtain ⟨counts', hleft⟩ := hwrite (steps.foldl Step.present fun _ ↦ true)
    exact ⟨_, counts', run_tables h hcalls hlisting steps _, hleft⟩
  · obtain ⟨n, hdelete⟩ :=
      @deleteCrateRows_tables _ _ Embedding _ model (fun _ ↦ true) _ hlisting krate
    obtain ⟨counts₁, hrest⟩ := hwrite fun c ↦ c ≠ krate
    obtain ⟨counts₂, hback⟩ := writeOwnedRows_eq h hcalls (fun c ↦ c = krate)
      (model.tables fun c ↦ c ≠ krate : GraphDatabases N Rest Embedding)
    refine ⟨model.tables fun c ↦ c ≠ krate, n, counts₁, counts₂, hdelete, hrest, ?_⟩
    rw [hback, foldl_apply_tables]
    simp

/-- Two crates that name one stub; the second calls the first, and something unknown. -/
def twoCrates : ExtractionModel ℕ Unit where
  nodes := [⟨0, .workspace, "workspace", none, ()⟩, ⟨1, .crate, "alpha", some 1, ()⟩,
    ⟨2, .crate, "beta", some 2, ()⟩, ⟨3, .externalSymbol, "std::vec::Vec", none, ()⟩]
  nodup := by decide
  bindings := [⟨1, .type, "Vec", 3, ()⟩, ⟨2, .type, "Vec", 3, ()⟩]
  usages := [⟨1, 2, "beta/src/lib.rs", 10, 15, .other, none, none, .call, none⟩]
  unresolvedCalls := [⟨2, none, "beta/src/lib.rs", 20, 25, "f", .unresolved⟩]
  contains := [(0, 1), (0, 2)]
  signatures := [(3, ())]
  statics := []

/-- The statement for these two crates. -/
theorem twoCrates_maintained :
    let full := (twoCrates.tables fun _ ↦ true : GraphDatabases ℕ Unit Unit)
    ∀ krate, ∃ rest n counts₁ counts₂,
      full.deleteCrateRows Finset.toList krate = .ok (rest, n) ∧
        twoCrates.writeOwnedRows (fun c ↦ c ≠ krate) .empty = .ok (rest, counts₁) ∧
        twoCrates.writeOwnedRows (fun c ↦ c = krate) rest = .ok (full, counts₂) := by
  have hresolved : twoCrates.Resolved := by
    constructor <;> simp [twoCrates, crateOf, ExtractionModel.get, ExtractionModel.stub]
  have hcalls : twoCrates.CallsAtHome := by
    simp [CallsAtHome, twoCrates, UnresolvedCall.item]
  have hlists : Lists (N := ℕ) Finset.toList :=
    fun rows ↦ ⟨rows.nodup_toList, fun _ ↦ Finset.mem_toList⟩
  obtain ⟨counts, hfull⟩ := writeOwnedRows_eq hresolved hcalls (fun _ ↦ true)
    (.empty : GraphDatabases ℕ Unit Unit)
  exact (maintained hcalls hlists hfull).2

end ExtractionModel

end RustCodeMcp.Ownership
