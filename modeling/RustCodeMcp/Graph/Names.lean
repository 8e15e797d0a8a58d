import RustCodeMcp.Graph.Rows

/-!
# Names of a graph

A name is looked for among the canonical names first, then among the members of a type that is
written beside its impl, and last among the re-exports of the module that the prefix names, which is
looked up in the same way. `lookupInner` goes down the hops that are left.

**Names are lists of characters**, cut at the first or last `::` as Rust cuts strings, so that a
name with empty segments, or none, is cut as it is there. A selector stands in brackets behind the
name of a crate, and picks among the targets of a package. Nodes and bindings come in the order of
their ids, which are digests; the snapshot has that order as data, and the functions here go through
it as the code goes through its cursors.

Each re-export that is followed takes a hop, and with none left only the canonical names are asked.
-/

namespace RustCodeMcp.Navigation

open Ownership (NodeKind Namespace)

/-- The characters of a name. -/
abbrev Name := List Char

/-! ### Rust's splits -/

/-- `str::split_once` at a character. -/
def splitOnceAt (sep : Char) : Name → Option (Name × Name)
  | [] => none
  | c :: rest => if c = sep then some ([], rest)
    else (splitOnceAt sep rest).map fun (before, after) ↦ (c :: before, after)

/-- `str::split_once("::")` -/
def splitOnce : Name → Option (Name × Name)
  | [] => none
  | ':' :: ':' :: rest => some ([], rest)
  | c :: rest => (splitOnce rest).map fun (before, after) ↦ (c :: before, after)

/-- `str::rsplit_once("::")` -/
def rsplitOnce : Name → Option (Name × Name)
  | [] => none
  | c :: rest =>
    match rsplitOnce rest with
    | some (before, after) => some (c :: before, after)
    | none =>
      match c, rest with
      | ':', ':' :: after => some ([], after)
      | _, _ => none

/-! ### The rows -/

/-- The kinds of items. -/
inductive ItemKind
  | function
  | struct
  | enum
  | union
  | trait
  | typeAlias
  | const
  | static
  | assocFunction
  | assocConst
  | assocType
  | method
  | enumVariant
  | field
  deriving DecidableEq

/-- A node, as far as names go. -/
structure Node (N : Type) where
  id : N
  kind : NodeKind
  displayName : Name
  qualifiedName : Name
  crateId : Option N
  itemKind : Option ItemKind
  file : Option Name
  crateTargetKind : Option Name
  deriving DecidableEq

/-- The ways in which a module comes to have a name. -/
inductive BindingKind
  | declared
  | namedImport
  | globImport
  | externCrateImport
  deriving DecidableEq

/-- A name that a module has, and what it stands for. -/
structure Binding (N : Type) where
  fromModule : N
  namespace_ : Namespace
  visibleName : Name
  target : N
  kind : BindingKind
  deriving DecidableEq

/-- The nodes and the bindings, each in the byte order of their ids, as the cursors go through them.
Every binding that the index by module leads to is stored. -/
structure OpenedSnapshot (N : Type) where
  /-- `nodes_by_id` -/
  nodes : List (Node N)
  nodup : (nodes.map Node.id).Nodup
  /-- `bindings_by_id` -/
  bindings : List (Binding N)

/-- Why a name is not looked up. -/
inductive LookupError (N : Type)
  /-- "ambiguous graph name `{name}`: {previous} and {node}; use a Cargo-target selector such as
  [lib] or [bin]" -/
  | ambiguous (name : Name) (previous node : N)
  deriving DecidableEq

/-! ### Selectors -/

/-- What is asked for: a name, and perhaps a target. -/
structure Selector where
  canonical : Name
  targetKind : Option Name
  targetRoot : Option Name
  deriving DecidableEq

/-- A Cargo target selects by its kind, and by its root where that is given, as in
`app[bin]@src/main.rs::helper`. -/
def selector (name : Name) : Selector :=
  match (splitOnceAt '[' name).filter fun (before, _) ↦ (splitOnce before).isNone with
  | none => ⟨name, none, none⟩
  | some (before, rest) =>
    match splitOnceAt ']' rest with
    | none => ⟨name, none, none⟩
    | some (kind, '@' :: rest) =>
      match splitOnce rest with
      | some (root, suffix) => ⟨before ++ (':' :: ':' :: suffix), some kind, some root⟩
      | none => ⟨before, some kind, some rest⟩
    | some (kind, suffix) => ⟨before ++ suffix, some kind, none⟩

/-- A crate and its root module share a Rust path. -/
def crateRootPair {N : Type} [DecidableEq N] (previous node : Node N) : Bool :=
  previous.crateId = node.crateId && (previous.kind = .crate && node.kind = .module ||
    previous.kind = .module && node.kind = .crate)

/-- One node more in the scan for the canonical one. -/
def scanStep {N : Type} [DecidableEq N] (name : Name) (found : Option (Node N)) (node : Node N) :
    Except (LookupError N) (Option (Node N)) :=
  match found with
  | none => .ok (some node)
  | some previous =>
    if !crateRootPair previous node then .error (.ambiguous name previous.id node.id)
    -- the navigable module, not hash order
    else if previous.kind = .module then .ok (some previous)
    else .ok (some node)

/-! ### Members of an impl -/

/-- A name as a module, a type and a member of it. -/
def implModuleItemAliasParts (name : Name) : Option (Name × Name × Name) := do
  let (typePrefix, memberName) ← rsplitOnce name
  let (modulePrefix, typeName) ← rsplitOnce typePrefix
  if modulePrefix.isEmpty || typeName.isEmpty || memberName.isEmpty then none
  else some (modulePrefix, typeName, memberName)

/-- The items that stand in an impl. -/
def ItemKind.isAssociated : ItemKind → Bool
  | method | assocFunction | assocConst | assocType => true
  | _ => false

/-- The node is such a member, in the file of the module. -/
def isImplModuleItemAliasCandidate {N : Type} [DecidableEq N] (node : Node N)
    (moduleCrateId : Option N) (moduleFile : Option Name) (typeName memberName : Name) : Bool :=
  node.kind = .item && node.itemKind.any ItemKind.isAssociated &&
    node.displayName = memberName &&
    moduleCrateId.all (fun crateId ↦ node.crateId = some crateId) &&
    moduleFile.all (fun file ↦ node.file = some file) &&
    (':' :: ':' :: typeName ++ ':' :: ':' :: memberName).isSuffixOf node.qualifiedName

/-- The loop gives up at a second candidate. -/
def sole {N : Type} : List (Node N) → Option (Node N)
  | [resolved] => some resolved
  | _ => none

/-- What stands before the last `::` and behind it. -/
def prefixAndLeaf (name : Name) : Option (Name × Name) :=
  (rsplitOnce name).filter fun (before, leaf) ↦ !before.isEmpty && !leaf.isEmpty

namespace OpenedSnapshot

variable {N : Type} [DecidableEq N] (snap : OpenedSnapshot N)

/-- `get_node` -/
def get (id : N) : Option (Node N) :=
  snap.nodes.find? fun node ↦ node.id = id

/-! ### The lookup -/

/-- The node is what the selector asks for. -/
def matchesSelector (sel : Selector) (node : Node N) : Bool :=
  node.qualifiedName = sel.canonical && sel.targetKind.all fun kind ↦
    (node.crateId.bind snap.get).any fun krate ↦ krate.crateTargetKind = some kind &&
      sel.targetRoot.all fun root ↦ krate.file = some root

/-- The first phase. -/
def canonicalScan (name : Name) : Except (LookupError N) (Option (Node N)) :=
  (snap.nodes.filter (snap.matchesSelector (selector name))).foldlM (scanStep name) none

/-- The second phase: a member of a type, written beside its impl. -/
def lookupImplModuleItemAlias (lookup : Name → Except (LookupError N) (Option (Node N)))
    (name : Name) : Except (LookupError N) (Option (Node N)) :=
  match implModuleItemAliasParts name with
  | none => .ok none
  | some (modulePrefix, typeName, memberName) => do
    match ← lookup modulePrefix with
    | none => .ok none
    | some moduleNode =>
      if moduleNode.kind ≠ .module then .ok none
      else
        .ok (sole (snap.nodes.filter fun node ↦ isImplModuleItemAliasCandidate node
          moduleNode.crateId moduleNode.file typeName memberName))

/-- The bindings of a module, in the order of the bindings' ids. -/
def bindingsForFromModule (module : N) : List (Binding N) :=
  snap.bindings.filter fun binding ↦ binding.fromModule = module

/-- The target of the first re-export under the name that still has its node. -/
def reexport (prefixId : N) (leaf : Name) : Option (Node N) :=
  (snap.bindingsForFromModule prefixId).findSome? fun binding ↦
    if binding.visibleName ≠ leaf then none
    else if binding.kind = .declared then none
    else snap.get binding.target

/-- The three phases, with so many hops left. -/
def lookupInner : ℕ → Name → Except (LookupError N) (Option (Node N))
  | 0, name => snap.canonicalScan name
  | hops + 1, name => do
    match ← snap.canonicalScan name with
    | some found => .ok (some found)
    | none =>
      match ← snap.lookupImplModuleItemAlias (lookupInner hops) name with
      | some found => .ok (some found)
      | none =>
        match prefixAndLeaf name with
        | none => .ok none
        | some (before, leaf) =>
          match ← lookupInner hops before with
          | none => .ok none
          | some prefixNode => .ok (snap.reexport prefixNode.id leaf)

/-- How many re-exports are followed. -/
def MAX_REEXPORT_HOPS : ℕ := 8

/-- `lookup_by_qualified_name` -/
def lookupByQualifiedName (name : Name) : Except (LookupError N) (Option (Node N)) :=
  snap.lookupInner MAX_REEXPORT_HOPS name

end OpenedSnapshot
end RustCodeMcp.Navigation
