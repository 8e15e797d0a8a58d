import RustCodeMcp.Graph.Kept

/-!
# An open snapshot and its calls

A query reads the tables of a published snapshot through cursors, whose order is that of the ids'
bytes. The ids are digests, so any order is possible, and the snapshot has it as data.

The two indexes of usages that queries about calls go through, by target and by the function around
the usage, agree with the table (`Indexed`); so do the tables that a write leaves, as long as the
id of a usage says which function it is in (`indexed_tables`).

**An index is believed, and may be wrong.** Its rows are ids of usages, which are looked up one by
one; an id without a usage is an error that a query passes on. That there is none, and that the rows
under a target or a function are exactly the table's usages of it, is a field of the snapshot, and
the tables of a build provide it; so the queries below it are about usages, not about rows.

The id of a usage is a digest of what is said of it, but for the function it lies in. Two usages of
one id could differ in nothing else (`usage_eq_of_id`), and `FunctionsInIds` asks that they do not.
-/

namespace RustCodeMcp.Ownership

variable {N Rest Embedding : Type}

/-- A call, of a function or through a trait. -/
def UsageRelation.isCall : UsageRelation → Bool
  | call | traitDispatch => true
  | _ => false

/-- A usage is a call in the body of this function. -/
def Usage.IsCallIn (usage : Usage N) (caller : N) : Prop :=
  usage.relation.isCall ∧ usage.consumerFunction = some caller

/-! ### The indexes of usages -/

section Indexed

variable [DecidableEq N]

/-- The rows of the indexes are those of the table's usages. -/
structure GraphDatabases.Indexed (dbs : GraphDatabases N Rest Embedding) : Prop where
  byTarget : ∀ target id, .usagesByTarget target id ∈ dbs.dups ↔
    ∃ usage, dbs.plain (.usagesById id) = some usage ∧ usage.target = target
  byConsumerFunction : ∀ function id, .usagesByConsumerFunction function id ∈ dbs.dups ↔
    ∃ usage, dbs.plain (.usagesById id) = some usage ∧ usage.consumerFunction = some function

namespace ExtractionModel

variable {model : ExtractionModel N Rest} {keep : N → Bool} {id : UsageId N}

/-- Usages of one id lie in one function: the item around a usage, which its id names, is that
function, if it is one. -/
def FunctionsInIds (model : ExtractionModel N Rest) : Prop :=
  ∀ u ∈ model.usages, ∀ u' ∈ model.usages, usageIdFor u = usageIdFor u' →
    u.consumerFunction = u'.consumerFunction

omit [DecidableEq N] in
theorem usage_eq_of_id (h : model.FunctionsInIds) {u u' : Usage N} (hu : u ∈ model.usages)
    (hu' : u' ∈ model.usages) (hid : usageIdFor u = usageIdFor u') : u = u' := by
  have hfunction := h u hu u' hu' hid
  obtain ⟨_, _, _, _, _, _, _, _, _, _⟩ := u
  obtain ⟨_, _, _, _, _, _, _, _, _, _⟩ := u'
  simp_all [usageIdFor]

/-- The rows that usages put. -/
def ofUsage : OwnedRow N → Bool
  | .key (.usagesById _) | .dup (.usagesByTarget _ _) | .dup (.usagesByConsumer _ _)
  | .dup (.usagesByConsumerFunction _ _) | .dup (.usagesByConsumerItem _ _) => true
  | _ => false

/-- Rows about usages are put by usages. -/
theorem mem_allEntries_usage {entry : Entry N Rest} (h : ofUsage entry.row) :
    entry ∈ model.allEntries ↔ ∃ usage ∈ model.usages, entry ∈ usageEntries usage := by
  rw [mem_allEntries]
  constructor
  · rintro ⟨x, hx, hentry⟩
    rcases x with node | binding | edge | usage | item | record | record
    case usage => exact ⟨usage, by simpa [elements] using hx, hentry⟩
    case node =>
      rw [entries] at hentry
      split at hentry
      · simp at hentry
      · obtain rfl := List.mem_singleton.1 hentry
        simp [ofUsage] at h
    case binding =>
      simp only [entries, List.mem_append, List.mem_cons, mem_stubEntries] at hentry
      rcases hentry with (rfl | rfl | rfl | hnil) | ⟨stub, owner, -, -, rfl | rfl⟩
      case inl.inr.inr.inr => simp at hnil
      all_goals simp [ofUsage] at h
    all_goals
      rw [entries] at hentry
      obtain rfl := List.mem_singleton.1 hentry
      simp [ofUsage] at h
  · rintro ⟨usage, hmem, hentry⟩
    exact ⟨.usage usage, by simpa [elements] using hmem, hentry⟩

theorem put_usage_mem {usage : Usage N} : .put (.usagesById id) usage ∈ model.allEntries ↔
    usage ∈ model.usages ∧ usageIdFor usage = id := by
  rw [mem_allEntries_usage rfl]
  constructor
  · rintro ⟨u, hu, hentry⟩
    have heq : id = usageIdFor u ∧ usage ≍ u := by simpa [usageEntries] using hentry
    obtain ⟨rfl, heq⟩ := heq
    obtain rfl := eq_of_heq heq
    exact ⟨hu, rfl⟩
  · rintro ⟨hu, rfl⟩
    exact ⟨usage, hu, by simp [usageEntries]⟩

theorem byTarget_mem {target : N} : .dup (.usagesByTarget target id) ∈ model.allEntries ↔
    ∃ usage ∈ model.usages, usageIdFor usage = id ∧ usage.target = target := by
  rw [mem_allEntries_usage rfl]
  refine exists_congr fun usage ↦ and_congr_right fun _ ↦ ?_
  simp only [usageEntries, List.mem_append, List.mem_cons, List.mem_map]
  grind

/-- The index by function has them under their functions. -/
theorem byConsumerFunction_mem {function : N} :
    .dup (.usagesByConsumerFunction function id) ∈ model.allEntries ↔
      ∃ usage ∈ model.usages, usageIdFor usage = id ∧ usage.consumerFunction = some function := by
  rw [mem_allEntries_usage rfl]
  refine exists_congr fun usage ↦ and_congr_right fun _ ↦ ?_
  simp only [usageEntries, List.mem_append, List.mem_cons, List.mem_map]
  grind

theorem lastAt_usage (h : model.FunctionsInIds) {usage : Usage N} :
    lastAt (.usagesById id) model.allEntries = some usage ↔
      usage ∈ model.usages ∧ usageIdFor usage = id := by
  constructor
  · intro hlast
    exact put_usage_mem.1 (put_mem_of_lastAt hlast)
  · intro husage
    refine lastAt_eq_some (put_usage_mem.2 husage) fun other hother ↦ ?_
    obtain ⟨hmem, hid⟩ := put_usage_mem.1 hother
    exact usage_eq_of_id h hmem husage.1 (hid.trans husage.2.symm)

/-- A signature is one of the model. -/
theorem put_signature_mem {target : N} {sig : Rest} :
    .put (.signaturesByTarget target) sig ∈ model.allEntries ↔
    (target, sig) ∈ model.signatures := by
  rw [mem_allEntries]
  constructor
  · rintro ⟨x, hx, hentry⟩
    rcases x with node | binding | edge | usage | item | record | record
    case signature =>
      have heq : target = record.1 ∧ sig = record.2 := by simpa [entries] using hentry
      obtain ⟨rfl, rfl⟩ := heq
      simpa [elements] using hx
    case node =>
      rw [entries] at hentry
      split at hentry <;> simp at hentry
    case binding => simp [entries, mem_stubEntries] at hentry
    case usage => simp [usageEntries, entries] at hentry
    all_goals simp [entries] at hentry
  · intro h
    exact ⟨.signature (target, sig), by simpa [elements] using h, by simp [entries]⟩

/-- What a write leaves is indexed. -/
theorem indexed_tables (h : model.FunctionsInIds) (keep : N → Bool) :
    (model.tables keep : GraphDatabases N Rest Embedding).Indexed where
  byTarget target id := by
    rw [mem_tables_dups, byTarget_mem, tables_plain]
    show _ ∧ (model.crateOf id.consumerModule).any keep ↔
      ∃ usage, (if (model.crateOf id.consumerModule).any keep then _ else none) = some usage ∧ _
    rcases hkeep : (model.crateOf id.consumerModule).any keep with - | -
    · simp
    · simp [lastAt_usage h, and_assoc]
  byConsumerFunction function id := by
    rw [mem_tables_dups, byConsumerFunction_mem, tables_plain]
    show _ ∧ (model.crateOf id.consumerModule).any keep ↔
      ∃ usage, (if (model.crateOf id.consumerModule).any keep then _ else none) = some usage ∧ _
    rcases hkeep : (model.crateOf id.consumerModule).any keep with - | -
    · simp
    · simp [lastAt_usage h, and_assoc]

end ExtractionModel

end Indexed

/-! ### The snapshot -/

variable [DecidableEq N]

/-- The tables, and what their cursors go through. -/
structure OpenedSnapshot (N Rest Embedding : Type) [DecidableEq N] where
  dbs : GraphDatabases N Rest Embedding
  indexed : dbs.Indexed
  /-- `usages_by_target` -/
  usagesByTarget : N → List (UsageId N)
  mem_usagesByTarget : ∀ target id,
    id ∈ usagesByTarget target ↔ .usagesByTarget target id ∈ dbs.dups
  /-- `usages_by_consumer_function` -/
  usagesByConsumerFunction : N → List (UsageId N)
  mem_usagesByConsumerFunction : ∀ function id,
    id ∈ usagesByConsumerFunction function ↔ .usagesByConsumerFunction function id ∈ dbs.dups
  /-- `signatures_by_target` -/
  signaturesByTarget : List N
  mem_signaturesByTarget : ∀ target,
    target ∈ signaturesByTarget ↔ (dbs.plain (.signaturesByTarget target)).isSome
  nodup_signaturesByTarget : signaturesByTarget.Nodup

/-- Why a query about calls fails. -/
inductive QueryError
  /-- "dangling UsageId in {index}" -/
  | danglingUsageId (index : String)
  deriving DecidableEq

namespace OpenedSnapshot

variable (snap : OpenedSnapshot N Rest Embedding)

/-- The name of a node, empty where there is none. -/
def qualifiedName (id : N) : String :=
  ((snap.dbs.plain (.nodesById id)).map Node.qualifiedName).getD ""

/-- The usage of an id that an index has. -/
def usage (index : String) (id : UsageId N) : Except QueryError (Usage N) :=
  match snap.dbs.plain (.usagesById id) with
  | none => .error (.danglingUsageId index)
  | some usage => .ok usage

/-- The usages of a target, through the index. -/
def usagesForTarget (target : N) : List (Except QueryError (Usage N)) :=
  (snap.usagesByTarget target).map (snap.usage "usages_by_target")

/-- The usages in a function, through the index. -/
def usagesForConsumerFunction (callerFn : N) : List (Except QueryError (Usage N)) :=
  (snap.usagesByConsumerFunction callerFn).map (snap.usage "usages_by_consumer_function")

/-- The usages of the table. -/
def usages : Set (Usage N) :=
  {usage | ∃ id, snap.dbs.plain (.usagesById id) = some usage}

/-- A usage of the table calls the callee in the caller. -/
def Calls (caller callee : N) : Prop :=
  ∃ usage ∈ snap.usages, usage.IsCallIn caller ∧ usage.target = callee

variable {snap}

/-- No cursor meets an id without a usage. -/
theorem exists_rows {ids : List (UsageId N)} {P : Usage N → Prop}
    (h : ∀ id, id ∈ ids ↔ ∃ usage, snap.dbs.plain (.usagesById id) = some usage ∧ P usage)
    (index : String) : ∃ rows : List (Usage N), ids.map (snap.usage index) = rows.map .ok ∧
      ∀ usage, usage ∈ rows ↔ usage ∈ snap.usages ∧ P usage := by
  refine ⟨ids.filterMap fun id ↦ snap.dbs.plain (.usagesById id), ?_, fun usage ↦ ?_⟩
  · have hids : ∀ id ∈ ids, ∃ usage, snap.dbs.plain (.usagesById id) = some usage :=
      fun id hid ↦ ((h id).1 hid).imp fun _ ↦ And.left
    clear h
    induction ids with
    | nil => rfl
    | cons id ids ih =>
      obtain ⟨usage, husage⟩ := hids id List.mem_cons_self
      rw [List.map_cons, ih fun i hi ↦ hids i (List.mem_cons_of_mem _ hi),
        List.filterMap_cons_some husage, List.map_cons, OpenedSnapshot.usage, husage]
  · rw [List.mem_filterMap]
    constructor
    · rintro ⟨id, hid, husage⟩
      obtain ⟨u, hu, hP⟩ := (h id).1 hid
      obtain rfl := Option.some.inj (husage.symm.trans hu)
      exact ⟨⟨id, husage⟩, hP⟩
    · rintro ⟨⟨id, husage⟩, hP⟩
      exact ⟨id, (h id).2 ⟨usage, husage, hP⟩, husage⟩

theorem usagesForTarget_eq (target : N) : ∃ rows : List (Usage N),
    snap.usagesForTarget target = rows.map .ok ∧
      ∀ usage, usage ∈ rows ↔ usage ∈ snap.usages ∧ usage.target = target := by
  refine exists_rows (fun id ↦ ?_) _
  rw [snap.mem_usagesByTarget, snap.indexed.byTarget]

theorem usagesForConsumerFunction_eq (callerFn : N) : ∃ rows : List (Usage N),
    snap.usagesForConsumerFunction callerFn = rows.map .ok ∧
      ∀ usage, usage ∈ rows ↔ usage ∈ snap.usages ∧ usage.consumerFunction = some callerFn := by
  refine exists_rows (fun id ↦ ?_) _
  rw [snap.mem_usagesByConsumerFunction, snap.indexed.byConsumerFunction]

end OpenedSnapshot

/-! ### The snapshot of a model -/

namespace ExtractionModel

variable (model : ExtractionModel N Rest)

/-- The usages that a full write keeps. -/
def homed : List (Usage N) :=
  model.usages.filter fun usage ↦ (model.crateOf usage.consumerModule).isSome

variable {model}

theorem exists_mem_homed {id : UsageId N} {P : Usage N → Prop} :
    (∃ usage ∈ model.homed, usageIdFor usage = id ∧ P usage) ↔
      (∃ usage ∈ model.usages, usageIdFor usage = id ∧ P usage) ∧
        (model.crateOf id.consumerModule).any (fun _ ↦ true) := by
  simp only [homed, List.mem_filter, Option.any_true]
  constructor
  · rintro ⟨usage, ⟨hmem, hhome⟩, rfl, hP⟩
    exact ⟨⟨usage, hmem, rfl, hP⟩, hhome⟩
  · rintro ⟨⟨usage, hmem, rfl, hP⟩, hhome⟩
    exact ⟨usage, ⟨hmem, hhome⟩, rfl, hP⟩

/-- What a full build of the model publishes, when the ids of rows come in the order of the
model. -/
def opened (h : model.FunctionsInIds) : OpenedSnapshot N Rest Embedding where
  dbs := model.tables fun _ ↦ true
  indexed := indexed_tables h _
  usagesByTarget target := ((model.homed.filter (·.target = target)).map usageIdFor).dedup
  mem_usagesByTarget target id := by
    rw [mem_tables_dups, byTarget_mem]
    refine Iff.trans ?_ exists_mem_homed
    simp only [List.mem_dedup, List.mem_map, List.mem_filter, decide_eq_true_eq]
    grind
  usagesByConsumerFunction function :=
    ((model.homed.filter (·.consumerFunction = some function)).map usageIdFor).dedup
  mem_usagesByConsumerFunction function id := by
    rw [mem_tables_dups, byConsumerFunction_mem]
    refine Iff.trans ?_ exists_mem_homed
    simp only [List.mem_dedup, List.mem_map, List.mem_filter, decide_eq_true_eq]
    grind
  signaturesByTarget :=
    ((model.signatures.map Prod.fst).filter (model.recordKept fun _ ↦ true)).dedup
  mem_signaturesByTarget target := by
    rw [tables_plain, List.mem_dedup, List.mem_filter, keptKey]
    rcases hkept : model.recordKept (fun _ ↦ true) target with - | -
    · simp
    · rw [if_pos rfl, and_iff_left rfl, ← not_iff_not, Option.not_isSome_iff_eq_none,
        lastAt_eq_none]
      simp [put_signature_mem]
  nodup_signaturesByTarget := List.nodup_dedup _

/-- A crate `0` with its root module `1`, and `n` functions that make these calls. -/
def ofCalls (n : ℕ) (calls : List (ℕ × ℕ)) : ExtractionModel ℕ Unit where
  nodes := (List.range (n + 2)).map fun i ↦
    match i with
    | 0 => ⟨0, .crate, "app", some 0, ()⟩
    | 1 => ⟨1, .module, "app", some 0, ()⟩
    | i + 2 => ⟨i + 2, .item, "app::f" ++ toString (i + 2), some 0, ()⟩
  nodup := by
    have hid : (List.range (n + 2)).map (Node.id ∘ fun i ↦
        match i with
        | 0 => ⟨0, .crate, "app", some 0, ()⟩
        | 1 => ⟨1, .module, "app", some 0, ()⟩
        | i + 2 => (⟨i + 2, .item, "app::f" ++ toString (i + 2), some 0, ()⟩ : Node ℕ Unit)) =
          List.range (n + 2) := by
      refine (List.map_congr_left fun i _ ↦ ?_).trans (List.map_id _)
      match i with
      | 0 | 1 | i + 2 => rfl
    rw [List.map_map, hid]
    exact List.nodup_range
  bindings := []
  usages := calls.zipIdx.map fun call ↦
    { target := call.1.2
      consumerModule := 1
      file := "src/lib.rs"
      start := call.2
      stop := call.2 + 1
      category := .other
      consumerFunction := some call.1.1
      consumerItem := some call.1.1
      relation := .call
      expansion := none }
  unresolvedCalls := []
  contains := []
  signatures := (List.range n).map fun i ↦ (i + 2, ())
  statics := []

theorem functionsInIds_ofCalls (n : ℕ) (calls : List (ℕ × ℕ)) :
    (ofCalls n calls).FunctionsInIds := by
  intro u hu u' hu' hid
  obtain ⟨call, -, rfl⟩ := List.mem_map.1 hu
  obtain ⟨call', -, rfl⟩ := List.mem_map.1 hu'
  exact congrArg UsageId.consumerItem hid

end ExtractionModel

/-- The snapshot of `n` functions, from `2` on, that make these calls. -/
def OpenedSnapshot.ofCalls (n : ℕ) (calls : List (ℕ × ℕ)) : OpenedSnapshot ℕ Unit Unit :=
  ExtractionModel.opened (ExtractionModel.functionsInIds_ofCalls n calls)

end RustCodeMcp.Ownership
