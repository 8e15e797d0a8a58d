import Mathlib.Data.List.Basic

/-!
# The tables of the database

Every table that a build writes has a tag. The tag fixes the name of the table in the database and
whether one key has many values in it. Its code is on disk, in the records of owned rows, which is
why a table may be added at the end of the list only; `fromCode` undoes `code`.

A name and a code are two ways to say which table, one for the database and one for the disk. **They
are written down side by side, in one place**, so whoever adds a table has to give both; that no two
tables have one code is then checked by computing (`code_injective`), as is that every code is read
back.
-/

namespace RustCodeMcp

/-- The tables. -/
inductive DbTag
  | nodesById
  | bindingsById
  | bindingsByFromModule
  | bindingsByTarget
  | childrenByParent
  | usagesById
  | usagesByTarget
  | usagesByConsumer
  | usagesByConsumerFunction
  | signaturesByTarget
  | staticMetadataByTarget
  | stubOwners
  | ownedRowsByCrate
  | unresolvedCallsByOwner
  | usagesByConsumerItem
  deriving DecidableEq

namespace DbTag

/-- `ALL` -/
def all : List DbTag :=
  [nodesById, bindingsById, bindingsByFromModule, bindingsByTarget, childrenByParent, usagesById,
    usagesByTarget, usagesByConsumer, usagesByConsumerFunction, signaturesByTarget,
    staticMetadataByTarget, stubOwners, ownedRowsByCrate, unresolvedCallsByOwner,
    usagesByConsumerItem]

/-- The name of the table in the database. -/
def dbName : DbTag → String
  | nodesById => "nodes_by_id"
  | bindingsById => "bindings_by_id"
  | bindingsByFromModule => "bindings_by_from_module"
  | bindingsByTarget => "bindings_by_target"
  | childrenByParent => "children_by_parent"
  | usagesById => "usages_by_id"
  | usagesByTarget => "usages_by_target"
  | usagesByConsumer => "usages_by_consumer"
  | usagesByConsumerFunction => "usages_by_consumer_function"
  | signaturesByTarget => "signatures_by_target"
  | staticMetadataByTarget => "static_metadata_by_target"
  | stubOwners => "stub_owners"
  | ownedRowsByCrate => "owned_rows_by_crate"
  | unresolvedCallsByOwner => "unresolved_calls_by_owner"
  | usagesByConsumerItem => "usages_by_consumer_item"

/-- Whether one key has many values. -/
def isDupSort : DbTag → Bool
  | nodesById | bindingsById | usagesById | signaturesByTarget | staticMetadataByTarget
  | unresolvedCallsByOwner => false
  | _ => true

theorem mem_all (tag : DbTag) : tag ∈ all := by
  cases tag <;> decide

/-- The code of the table in a record of an owned row. -/
def code : DbTag → UInt8
  | nodesById => 1
  | bindingsById => 2
  | bindingsByFromModule => 3
  | bindingsByTarget => 4
  | childrenByParent => 5
  | usagesById => 6
  | usagesByTarget => 7
  | usagesByConsumer => 8
  | usagesByConsumerFunction => 9
  | signaturesByTarget => 10
  | staticMetadataByTarget => 11
  | stubOwners => 12
  | ownedRowsByCrate => 13
  | unresolvedCallsByOwner => 14
  | usagesByConsumerItem => 15

/-- The table of a code, if it is one. -/
def fromCode (code : UInt8) : Option DbTag :=
  all.find? fun tag ↦ tag.code = code

theorem fromCode_code (tag : DbTag) : fromCode tag.code = some tag := by
  cases tag <;> rfl

theorem code_injective : Function.Injective code := by
  intro tag tag' h
  rw [← Option.some_inj, ← fromCode_code tag, ← fromCode_code tag', h]

/-- A code that is read is that of the table. -/
theorem code_of_fromCode {code : UInt8} {tag : DbTag} (h : fromCode code = some tag) :
    tag.code = code := by
  simpa using List.find?_some h

end DbTag

end RustCodeMcp
