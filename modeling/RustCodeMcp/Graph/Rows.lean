import Mathlib.Data.Finset.Insert
import Mathlib.Data.Finset.Filter
import Mathlib.Data.Finset.Erase
import Mathlib.Data.Finset.Image
import Mathlib.Data.List.Destutter
import Mathlib.Data.List.Sort
import Mathlib.Logic.Function.Basic

/-!
# The rows of a snapshot and their owners

Every row that a build writes has one owning crate, which lists it; only the workspace's node and
the stubs of external symbols, with their records, are listed by nobody. A stub is named by bindings
of possibly many crates, and `stubOwners` says which.

The ids of bindings and usages are digests of their components, and stand for them here.

**A row and the record of its ownership are put together** (`putOwned`, `putDup`), so that what a
crate lists is what it has written. Tables with one value under a key are a single function here,
over keys that say which table they belong to, and tables with many values a finite set of pairs; a
table of the source is what has its keys. What nothing here reads of a row is a parameter, and is
written and deleted with it.

A write does not look at what is there except for the stubs, which it does not put a second time; a
deletion looks at each row it removes, and stops where one is missing.
-/

namespace RustCodeMcp.Ownership

/-! ### The extraction model -/

/-- The kinds of nodes. -/
inductive NodeKind
  | workspace
  | crate
  | module
  | item
  | externalSymbol
  deriving DecidableEq

/-- `Rest` is what nothing here reads of a row. -/
structure Node (N Rest : Type) where
  id : N
  kind : NodeKind
  qualifiedName : String
  crateId : Option N
  rest : Rest

/-- The namespaces of a name. -/
inductive Namespace
  | type
  | value
  deriving DecidableEq

/-- A name that a module has. -/
structure Binding (N Rest : Type) where
  fromModule : N
  namespace_ : Namespace
  visibleName : String
  target : N
  rest : Rest

/-- What a usage does with its target. -/
inductive UsageCategory
  | read
  | write
  | test
  | other
  deriving DecidableEq

/-- In which way a usage refers to its target. -/
inductive UsageRelation
  | unknown
  | call
  | traitDispatch
  | functionReference
  | typeRef
  | construct
  | read
  | write
  | use
  | implements
  deriving DecidableEq

/-- Where a macro was expanded. -/
structure ExpansionSite where
  invocationFile : String
  callChain : List (ℕ × ℕ)
  expandedSpan : ℕ × ℕ
  deriving DecidableEq

/-- A usage: where it is, and what it refers to. -/
structure Usage (N : Type) where
  target : N
  consumerModule : N
  file : String
  start : ℕ
  stop : ℕ
  category : UsageCategory
  consumerFunction : Option N
  consumerItem : Option N
  relation : UsageRelation
  expansion : Option ExpansionSite

/-- Why a call leads to no function. -/
inductive UnresolvedCallReason
  | indirectCallable
  | targetOutsideGraph
  | unresolved
  deriving DecidableEq

/-- A call that leads to no function. -/
structure UnresolvedCall (N : Type) where
  consumerModule : N
  consumerItem : Option N
  file : String
  start : ℕ
  stop : ℕ
  expression : String
  reason : UnresolvedCallReason
  deriving DecidableEq

/-- The item that a call is filed under. -/
def UnresolvedCall.item {N : Type} (call : UnresolvedCall N) : N :=
  call.consumerItem.getD call.consumerModule

/-- All that is extracted of a workspace, or of some of its crates. -/
structure ExtractionModel (N Rest : Type) where
  /-- The nodes, by their ids. -/
  nodes : List (Node N Rest)
  nodup : (nodes.map Node.id).Nodup
  bindings : List (Binding N Rest)
  usages : List (Usage N)
  unresolvedCalls : List (UnresolvedCall N)
  /-- Parent and child. -/
  contains : List (N × N)
  signatures : List (N × Rest)
  statics : List (N × Rest)

/-- What the id of a binding is a digest of. -/
structure BindingId (N : Type) where
  fromModule : N
  namespace_ : Namespace
  visibleName : String
  target : N
  deriving DecidableEq

/-- The id of a binding. -/
def bindingIdFor {N Rest : Type} (binding : Binding N Rest) : BindingId N :=
  ⟨binding.fromModule, binding.namespace_, binding.visibleName, binding.target⟩

/-- What the id of a usage is a digest of. -/
structure UsageId (N : Type) where
  target : N
  consumerModule : N
  file : String
  start : ℕ
  stop : ℕ
  category : UsageCategory
  relation : UsageRelation
  consumerItem : Option N
  expansion : Option ExpansionSite
  deriving DecidableEq

/-- The id of a usage. -/
def usageIdFor {N : Type} (u : Usage N) : UsageId N :=
  ⟨u.target, u.consumerModule, u.file, u.start, u.stop, u.category, u.relation, u.consumerItem,
    u.expansion⟩

/-! ### The tables -/

/-- A key of a table with one value for each. -/
inductive Key (N : Type)
  | nodesById (id : N)
  | bindingsById (id : BindingId N)
  | usagesById (id : UsageId N)
  | signaturesByTarget (target : N)
  | staticMetadataByTarget (target : N)
  | unresolvedCallsByOwner (item : N)
  deriving DecidableEq

/-- What a table has under its keys. -/
@[reducible] def Key.Value {N : Type} (Rest : Type) : Key N → Type
  | nodesById _ => Node N Rest
  | bindingsById _ => Binding N Rest
  | usagesById _ => Usage N
  | signaturesByTarget _ => Rest
  | staticMetadataByTarget _ => Rest
  | unresolvedCallsByOwner _ => List (UnresolvedCall N)

/-- A key with one of its values, in a table with many. -/
inductive Dup (N : Type)
  | bindingsByFromModule (module : N) (id : BindingId N)
  | bindingsByTarget (target : N) (id : BindingId N)
  | childrenByParent (parent child : N)
  | usagesByTarget (target : N) (id : UsageId N)
  | usagesByConsumer (module : N) (id : UsageId N)
  | usagesByConsumerFunction (function : N) (id : UsageId N)
  | usagesByConsumerItem (item : N) (id : UsageId N)
  | stubOwners (stub krate : N)
  deriving DecidableEq

/-- Enough of a row to delete it. -/
inductive OwnedRow (N : Type)
  | key (key : Key N)
  | dup (dup : Dup N)
  deriving DecidableEq

/-- The tables, what each crate lists, and the embeddings. -/
@[ext]
structure GraphDatabases (N Rest Embedding : Type) where
  /-- The tables with one value for each key. -/
  plain : (key : Key N) → Option (key.Value Rest)
  /-- The tables with many. -/
  dups : Finset (Dup N)
  /-- `owned_rows_by_crate` -/
  owned : Finset (N × OwnedRow N)
  embeddings : N → Option Embedding

/-- How many rows of each kind were written. -/
structure WrittenCounts where
  nodes : ℕ
  bindings : ℕ
  usages : ℕ

/-- What a write or a deletion stops at. -/
inductive OwnershipError (N : Type)
  /-- "{kind} node `{name}` has no crate" -/
  | noCrate (kind : NodeKind) (qualifiedName : String)
  /-- "row points at {node}, which is not a node of the model" -/
  | notANode (node : N)
  /-- "{kind} node `{name}` owns rows but has no crate" -/
  | ownsRowsWithoutCrate (kind : NodeKind) (qualifiedName : String)
  /-- "crate {krate} owns a row that is not in the table" -/
  | notInTable (krate : N) (row : OwnedRow N)

/-- What is being written. -/
structure Writing (N Rest Embedding : Type) where
  dbs : GraphDatabases N Rest Embedding
  counts : WrittenCounts
  stubsWritten : List N

variable {N Rest Embedding : Type} [DecidableEq N]

namespace GraphDatabases

/-- Tables without rows. -/
def empty : GraphDatabases N Rest Embedding where
  plain _ := none
  dups := ∅
  owned := ∅
  embeddings _ := none

/-- Put a value under a key. -/
def put (dbs : GraphDatabases N Rest Embedding) (key : Key N) (value : key.Value Rest) :
    GraphDatabases N Rest Embedding :=
  { dbs with plain := Function.update dbs.plain key (some value) }

/-- List a row under its owner. -/
def own (dbs : GraphDatabases N Rest Embedding) (owner : N) (row : OwnedRow N) :
    GraphDatabases N Rest Embedding :=
  { dbs with owned := insert (owner, row) dbs.owned }

/-- A row with its ownership record. -/
def putOwned (dbs : GraphDatabases N Rest Embedding) (owner : N) (key : Key N)
    (value : key.Value Rest) : GraphDatabases N Rest Embedding :=
  (dbs.put key value).own owner (.key key)

/-- An entry of a multimap, with its ownership record. -/
def putDup (dbs : GraphDatabases N Rest Embedding) (owner : N) (dup : Dup N) :
    GraphDatabases N Rest Embedding :=
  ({ dbs with dups := insert dup dbs.dups } : GraphDatabases N Rest Embedding).own owner (.dup dup)

end GraphDatabases

/-! ### Writing -/

namespace ExtractionModel

variable (model : ExtractionModel N Rest) (keep : N → Bool)

/-- The node of an id. -/
def get (id : N) : Option (Node N Rest) :=
  model.nodes.find? (·.id = id)

/-- The crate that owns rows filed under the node. -/
def ownerOf (node : N) : Except (OwnershipError N) N :=
  match model.get node with
  | none => .error (.notANode node)
  | some n =>
    match n.crateId with
    | none => .error (.ownsRowsWithoutCrate n.kind n.qualifiedName)
    | some owner => .ok owner

/-- The node, if it is an external symbol's. -/
def stub (id : N) : Option (Node N Rest) :=
  (model.get id).filter (·.kind = .externalSymbol)

/-- A node; the stubs are written with the bindings that name them. -/
def writeNode (s : Writing N Rest Embedding) (node : Node N Rest) :
    Except (OwnershipError N) (Writing N Rest Embedding) :=
  let counts := { s.counts with nodes := s.counts.nodes + 1 }
  match node.kind with
  | .workspace => pure { s with dbs := s.dbs.put (.nodesById node.id) node, counts }
  | .externalSymbol => pure s
  | .crate | .module | .item =>
    match node.crateId with
    | none => throw (.noCrate node.kind node.qualifiedName)
    | some owner =>
      if keep owner then
        pure { s with dbs := s.dbs.putOwned owner (.nodesById node.id) node, counts }
      else pure s

/-- A binding, its index rows, and the stub that it names. -/
def writeBinding (s : Writing N Rest Embedding) (binding : Binding N Rest) :
    Except (OwnershipError N) (Writing N Rest Embedding) := do
  let owner ← model.ownerOf binding.fromModule
  if keep owner then
    let bid := bindingIdFor binding
    let dbs := s.dbs.putOwned owner (.bindingsById bid) binding
      |>.putDup owner (.bindingsByFromModule binding.fromModule bid)
      |>.putDup owner (.bindingsByTarget binding.target bid)
    let counts := { s.counts with bindings := s.counts.bindings + 1 }
    match model.stub binding.target with
    | none => pure { s with dbs, counts }
    | some stub =>
      let s := if stub.id ∈ s.stubsWritten then { s with dbs, counts } else
        { dbs := dbs.put (.nodesById stub.id) stub,
          counts := { counts with nodes := counts.nodes + 1 },
          stubsWritten := stub.id :: s.stubsWritten }
      pure { s with dbs := s.dbs.putDup owner (.stubOwners stub.id owner) }
  else pure s

/-- An edge, owned by the child's crate. -/
def writeContains (s : Writing N Rest Embedding) (edge : N × N) :
    Except (OwnershipError N) (Writing N Rest Embedding) := do
  let owner ← model.ownerOf edge.2
  if keep owner then
    pure { s with dbs := s.dbs.putDup owner (.childrenByParent edge.1 edge.2) }
  else pure s

/-- A usage and its index rows, owned by the consumer. -/
def writeUsage (s : Writing N Rest Embedding) (usage : Usage N) :
    Except (OwnershipError N) (Writing N Rest Embedding) := do
  let owner ← model.ownerOf usage.consumerModule
  if keep owner then
    let uid := usageIdFor usage
    let dbs := s.dbs.putOwned owner (.usagesById uid) usage
      |>.putDup owner (.usagesByTarget usage.target uid)
      |>.putDup owner (.usagesByConsumer usage.consumerModule uid)
    let dbs := match usage.consumerFunction with
      | none => dbs
      | some consumerFn => dbs.putDup owner (.usagesByConsumerFunction consumerFn uid)
    let dbs := match usage.consumerItem with
      | none => dbs
      | some item => dbs.putDup owner (.usagesByConsumerItem item uid)
    pure { s with dbs, counts := { s.counts with usages := s.counts.usages + 1 } }
  else pure s

/-- The calls of the crates that are kept. -/
def keepCall (calls : List (UnresolvedCall N)) (call : UnresolvedCall N) :
    Except (OwnershipError N) (List (UnresolvedCall N)) := do
  let owner ← model.ownerOf call.consumerModule
  pure (if keep owner then calls ++ [call] else calls)

/-- The order of calls in a row. -/
def callLe (a b : UnresolvedCall N) : Bool :=
  compareLex (compareOn UnresolvedCall.file) (compareLex (compareOn UnresolvedCall.start)
    (compareLex (compareOn UnresolvedCall.stop) (compareOn UnresolvedCall.expression))) a b ≠ .gt

/-- The row of an item: its calls in order, repeated ones once. -/
def sortCalls (calls : List (UnresolvedCall N)) : List (UnresolvedCall N) :=
  (calls.mergeSort callLe).destutter (· ≠ ·)

/-- The calls of one item. -/
def writeCalls (calls : List (UnresolvedCall N)) (s : Writing N Rest Embedding) (item : N) :
    Except (OwnershipError N) (Writing N Rest Embedding) :=
  let calls := sortCalls (calls.filter (·.item = item))
  match calls with
  | [] => pure s
  | call :: _ => do
    let owner ← model.ownerOf call.consumerModule
    pure { s with dbs := s.dbs.putOwned owner (.unresolvedCallsByOwner item) calls }

/-- The items that have calls. -/
def callItems (calls : List (UnresolvedCall N)) : List N :=
  (calls.map UnresolvedCall.item).dedup

/-- A record of an item, which a stub shares with whoever names it: `record_owner` and the put. -/
def writeRecord (key : N → Key N) (value : (target : N) → Rest → (key target).Value Rest)
    (s : Writing N Rest Embedding) (record : N × Rest) :
    Except (OwnershipError N) (Writing N Rest Embedding) :=
  if (model.stub record.1).isSome then
    if record.1 ∈ s.stubsWritten then
      pure { s with dbs := s.dbs.put (key record.1) (value record.1 record.2) }
    else pure s
  else do
    let owner ← model.ownerOf record.1
    if keep owner then
      pure { s with dbs := s.dbs.putOwned owner (key record.1) (value record.1 record.2) }
    else pure s

/-- `write_owned_rows` -/
def writeOwnedRows (dbs : GraphDatabases N Rest Embedding) :
    Except (OwnershipError N) (GraphDatabases N Rest Embedding × WrittenCounts) := do
  let s ← model.nodes.foldlM (writeNode keep) ⟨dbs, ⟨0, 0, 0⟩, []⟩
  let s ← model.bindings.foldlM (model.writeBinding keep) s
  let s ← model.contains.foldlM (model.writeContains keep) s
  let s ← model.usages.foldlM (model.writeUsage keep) s
  let calls ← model.unresolvedCalls.foldlM (model.keepCall keep) []
  let s ← (callItems calls).foldlM (model.writeCalls calls) s
  let s ← model.signatures.foldlM
    (model.writeRecord keep .signaturesByTarget fun _ sig ↦ sig) s
  let s ← model.statics.foldlM
    (model.writeRecord keep .staticMetadataByTarget fun _ metadata ↦ metadata) s
  pure (s.dbs, s.counts)

end ExtractionModel

/-! ### Deleting -/

namespace GraphDatabases

/-- Delete a row, if it is in its table. -/
def delete (dbs : GraphDatabases N Rest Embedding) : OwnedRow N →
    Option (GraphDatabases N Rest Embedding)
  | .key key =>
    if (dbs.plain key).isSome then some { dbs with plain := Function.update dbs.plain key none }
    else none
  | .dup dup => if dup ∈ dbs.dups then some { dbs with dups := dbs.dups.erase dup } else none

/-- The embedding of a node goes. -/
def dropEmbedding (dbs : GraphDatabases N Rest Embedding) (id : N) :
    GraphDatabases N Rest Embedding :=
  { dbs with embeddings := Function.update dbs.embeddings id none }

/-- One of the rows that the crate lists; a node takes its embedding with it. -/
def deleteOwned (krate : N) (dbs : GraphDatabases N Rest Embedding) (row : OwnedRow N) :
    Except (OwnershipError N) (GraphDatabases N Rest Embedding) :=
  match dbs.delete row with
  | none => .error (.notInTable krate row)
  | some dbs =>
    match row with
    | .key (.nodesById id) => .ok (dbs.dropEmbedding id)
    | _ => .ok dbs

/-- The stub of a row of `stub_owners`. -/
def stubOf : OwnedRow N → Option N
  | .dup (.stubOwners stub _) => some stub
  | _ => none

/-- Nobody names the stub any more. -/
def Orphan (dbs : GraphDatabases N Rest Embedding) (stub : N) : Prop :=
  dbs.dups.filter (fun d ↦ stubOf (.dup d) = some stub) = ∅

instance (dbs : GraphDatabases N Rest Embedding) (stub : N) : Decidable (dbs.Orphan stub) :=
  inferInstanceAs (Decidable (_ = _))

/-- A stub with no owner left goes, and its records with it. -/
def deleteStub (dbs : GraphDatabases N Rest Embedding) (stub : N) :
    GraphDatabases N Rest Embedding :=
  if dbs.Orphan stub then
    { dbs with
      plain := Function.update (Function.update (Function.update dbs.plain
        (.nodesById stub) none) (.signaturesByTarget stub) none) (.staticMetadataByTarget stub) none
      embeddings := Function.update dbs.embeddings stub none }
  else dbs

/-- `delete_crate_rows`. `listing` is the order in which the rows of a crate are read. -/
def deleteCrateRows (listing : Finset (OwnedRow N) → List (OwnedRow N))
    (dbs : GraphDatabases N Rest Embedding) (krate : N) :
    Except (OwnershipError N) (GraphDatabases N Rest Embedding × ℕ) := do
  let rows := listing ((dbs.owned.filter (·.1 = krate)).image Prod.snd)
  let dbs ← rows.foldlM (deleteOwned krate) dbs
  let dbs := (rows.filterMap stubOf).foldl deleteStub dbs
  pure ({ dbs with owned := dbs.owned.filter (·.1 ≠ krate) }, rows.length)

end GraphDatabases

end RustCodeMcp.Ownership
