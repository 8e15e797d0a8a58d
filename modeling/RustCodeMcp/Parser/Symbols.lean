import Mathlib.Data.Finset.Insert
import Mathlib.Data.List.Nodup
import RustCodeMcp.Embeddings.VramBudget
import RustCodeMcp.Text.Splice

/-!
# What a file is parsed into

The items of a file, its symbols, its imports and its call graph. The symbols are those of every
item, with the methods of an `impl` and the items of a module at any depth
(`extractSymbols`); the call graph is built from the functions and the methods at the top of the
file alone (`buildFromAst`), under their bare names.

The syntax tree is the parser's, cut down to what is read of it: the names, ranges and doc comments
of items, the calls in a body, and the trees of a `use`. Macros are nodes of a body that call
nothing.

**Calls belong to the name of the function they are in.** Two functions with one name, as methods of
two types, share their entry in the graph, and a function of a nested module has none.
-/

namespace RustCodeMcp.Parser

/-! ### The syntax tree -/

/-- What is called, as far as it is looked at. -/
inductive Callee
  /-- A path: the name of each segment, as far as it has one. -/
  | path (segments : List (Option String))
  | other

/-- The nodes of a function body. -/
inductive Node
  | callExpr (callee : Option Callee) (children : List Node)
  | methodCallExpr (nameRef : Option String) (children : List Node)
  | other (children : List Node)

/-- Where an item stands, in bytes. -/
abbrev TextRange := Splice.Range

/-- What any item with a name has. -/
structure Decl where
  name : Option String
  range : TextRange
  /-- The texts of the doc comments, without their markers. -/
  docComments : List String

/-- A function: what any item has, and its body. -/
structure Fn extends Decl where
  isAsync : Bool
  isUnsafe : Bool
  isConst : Bool
  body : Option Node

/-- An item of an `impl` or a trait. -/
inductive AssocItem
  | fn (f : Fn)
  | other

/-- The texts of the paths of a `use`, with what follows them. -/
inductive UseTree
  | glob (path : Option String)
  | list (path : Option String) (trees : List UseTree)
  | simple (path : Option String)

/-- A missing list of items, as in `mod m;`, has no items. -/
inductive Item
  | fn (f : Fn)
  | struct (decl : Decl)
  | enum (decl : Decl)
  | trait (decl : Decl)
  | impl (selfTy : Option String) (trait : Option String) (range : TextRange)
      (assocItems : List AssocItem)
  | module (decl : Decl) (items : List Item)
  | const (decl : Decl)
  | static (decl : Decl)
  | typeAlias (decl : Decl)
  | use (tree : Option UseTree)
  | other

/-! ### Calls -/

mutual

/-- A node and all below it, in the order of the text. -/
def Node.descendants : Node → List Node
  | .callExpr callee children => .callExpr callee children :: descendantsOf children
  | .methodCallExpr nameRef children => .methodCallExpr nameRef children :: descendantsOf children
  | .other children => .other children :: descendantsOf children

/-- Several nodes, one after the other. -/
def descendantsOf : List Node → List Node
  | [] => []
  | node :: rest => node.descendants ++ descendantsOf rest

end

/-- The name that a call is of: the last segment of a path. -/
def extractCallTarget : Option Callee → Option String
  | some (.path segments) => segments.getLast?.join
  | _ => none

/-- The name a node calls. -/
def Node.callee? : Node → Option String
  | .callExpr callee _ => extractCallTarget callee
  | .methodCallExpr nameRef _ => nameRef
  | .other _ => none

/-- The names called inside a function's own body, in the order of the text. -/
def Fn.calls (f : Fn) : List String :=
  match f.body with
  | none => []
  | some body => body.descendants.filterMap Node.callee?

/-- The callees of each caller. A caller without an entry has none. -/
structure CallGraph where
  edges : String → Finset String

namespace CallGraph

/-- No calls. -/
def new : CallGraph := ⟨fun _ ↦ ∅⟩

/-- One call more. -/
def addCall (graph : CallGraph) (caller callee : String) : CallGraph :=
  ⟨fun name ↦ if name = caller then insert callee (graph.edges name) else graph.edges name⟩

/-- The calls below a node are put down to the caller. -/
def extractCallsFromExpr (node : Node) (caller : String) (graph : CallGraph) : CallGraph :=
  node.descendants.foldl (fun graph descendant ↦
    match descendant.callee? with
    | some callee => graph.addCall caller callee
    | none => graph) graph

/-- The calls of a function, under its name. -/
def addFn (graph : CallGraph) (f : Fn) : CallGraph :=
  match f.name, f.body with
  | some caller, some body => extractCallsFromExpr body caller graph
  | _, _ => graph

/-- The calls of a method, under its bare name. -/
def addAssocItem (graph : CallGraph) : AssocItem → CallGraph
  | .fn f => graph.addFn f
  | .other => graph

/-- The calls of an item at the top of the file. -/
def addItem (graph : CallGraph) : Item → CallGraph
  | .fn f => graph.addFn f
  | .impl _ _ _ assocItems => assocItems.foldl addAssocItem graph
  | _ => graph

/-- The call graph of a file. -/
def buildFromAst (file : List Item) : CallGraph :=
  file.foldl addItem new

end CallGraph

/-! ### Symbols -/

/-- What a symbol is. -/
inductive SymbolKind
  | function (isAsync isUnsafe isConst : Bool)
  | struct
  | enum
  | trait
  | impl (traitName : Option String) (typeName : String)
  | module
  | const
  | static
  | typeAlias
  deriving DecidableEq

/-- Its name, as a chunk has it. -/
def SymbolKind.asStr : SymbolKind → String
  | function .. => "function"
  | struct => "struct"
  | enum => "enum"
  | trait => "trait"
  | impl .. => "impl"
  | module => "module"
  | const => "const"
  | static => "static"
  | typeAlias => "type"

/-- A named piece of a file, with its lines. -/
structure Symbol where
  kind : SymbolKind
  name : String
  startLine : ℕ
  endLine : ℕ
  docstring : Option String

/-- The line of a byte offset, from one on. -/
def lineOfOffset (source : String) (offset : ℕ) : ℕ :=
  (source.toByteArray.toList.take offset).count 10 + 1

/-- The doc comments of an item, put together. -/
def extractDocstring (docComments : List String) : Option String :=
  let docs := docComments.map fun text ↦ String.ofList (trimmed text)
  if docs.isEmpty then none else some ("\n".intercalate docs)

/-- The symbol of an item that has a name. -/
def Decl.symbol (source : String) (kind : SymbolKind) (decl : Decl) : List Symbol :=
  match decl.name with
  | none => []
  | some name => [{
      kind, name
      startLine := lineOfOffset source decl.range.start
      endLine := lineOfOffset source decl.range.stop
      docstring := extractDocstring decl.docComments }]

/-- The symbol of a function. -/
def Fn.symbol (source : String) (f : Fn) : List Symbol :=
  f.toDecl.symbol source (.function f.isAsync f.isUnsafe f.isConst)

/-- The symbol of an item of an `impl` or a trait, if it is a function. -/
def AssocItem.symbol (source : String) : AssocItem → List Symbol
  | .fn f => f.symbol source
  | .other => []

/-- The symbol of an `impl`, named by its type and its trait. -/
def implSymbol (source : String) (selfTy traitText : Option String) (range : TextRange) :
    Symbol where
  kind := .impl traitText (selfTy.getD "")
  name := "impl " ++ (traitText.map (· ++ " for ")).getD "" ++ selfTy.getD ""
  startLine := lineOfOffset source range.start
  endLine := lineOfOffset source range.stop
  docstring := none

mutual

/-- The symbols of an item and of what is in it. -/
def extractItemSymbols (source : String) : Item → List Symbol
  | .fn f => f.symbol source
  | .struct decl => decl.symbol source .struct
  | .enum decl => decl.symbol source .enum
  | .trait decl => decl.symbol source .trait
  | .impl selfTy traitText range assocItems =>
    implSymbol source selfTy traitText range :: assocItems.flatMap (AssocItem.symbol source)
  | .module decl items =>
    -- The items of a module without a name are not visited.
    match decl.name with
    | none => []
    | some _ => decl.symbol source .module ++ extractSymbols source items
  | .const decl => decl.symbol source .const
  | .static decl => decl.symbol source .static
  | .typeAlias decl => decl.symbol source .typeAlias
  | .use _ => []
  | .other => []

/-- The symbols of a file. -/
def extractSymbols (source : String) : List Item → List Symbol
  | [] => []
  | item :: rest => extractItemSymbols source item ++ extractSymbols source rest

end

theorem lineOfOffset_mono (source : String) {i j : ℕ} (h : i ≤ j) :
    lineOfOffset source i ≤ lineOfOffset source j :=
  Nat.succ_le_succ ((List.take_sublist_take_left h).count_le 10)

theorem Decl.startLine_le_endLine {source : String} {kind : SymbolKind} {decl : Decl}
    {symbol : Symbol} (h : symbol ∈ decl.symbol source kind) :
    symbol.startLine ≤ symbol.endLine := by
  unfold Decl.symbol at h
  split at h
  · exact absurd h List.not_mem_nil
  · obtain rfl := List.mem_singleton.1 h
    exact lineOfOffset_mono source decl.range.start_le_stop

mutual

theorem startLine_le_endLine_of_item {source : String} {symbol : Symbol} (item : Item)
    (h : symbol ∈ extractItemSymbols source item) : symbol.startLine ≤ symbol.endLine := by
  match item with
  | .impl selfTy traitText range assocItems =>
    rcases List.mem_cons.1 h with rfl | h
    · exact lineOfOffset_mono source range.start_le_stop
    · obtain ⟨assocItem, -, h⟩ := List.mem_flatMap.1 h
      cases assocItem with
      | fn f => exact Decl.startLine_le_endLine h
      | other => exact absurd h List.not_mem_nil
  | .module decl items =>
    rw [extractItemSymbols] at h
    split at h
    · exact absurd h List.not_mem_nil
    · rcases List.mem_append.1 h with h | h
      · exact Decl.startLine_le_endLine h
      · exact startLine_le_endLine items h
  | .fn _ | .struct _ | .enum _ | .trait _ | .const _ | .static _ | .typeAlias _ =>
    exact Decl.startLine_le_endLine h
  | .use _ | .other => exact absurd h List.not_mem_nil

/-- The lines of a symbol can be cut out of the text. -/
theorem startLine_le_endLine {source : String} {symbol : Symbol} (file : List Item)
    (h : symbol ∈ extractSymbols source file) : symbol.startLine ≤ symbol.endLine := by
  match file with
  | [] => exact absurd h List.not_mem_nil
  | item :: rest =>
    rcases List.mem_append.1 h with h | h
    · exact startLine_le_endLine_of_item item h
    · exact startLine_le_endLine rest h

end

/-! ### Imports -/

/-- The path of a tree under a prefix. -/
def joinPrefix (pre : String) : Option String → String
  | none => pre
  | some path => if pre = "" then path else pre ++ "::" ++ path

mutual

/-- The paths a tree imports. -/
def extractUseTree : UseTree → String → List String
  | .glob path, pre => [joinPrefix pre path]
  | .list path trees, pre => extractUseTrees trees (joinPrefix pre path)
  | .simple path, pre => if joinPrefix pre path = "" then [] else [joinPrefix pre path]

/-- The paths of several trees. -/
def extractUseTrees : List UseTree → String → List String
  | [], _ => []
  | tree :: rest, pre => extractUseTree tree pre ++ extractUseTrees rest pre

end

/-- The paths that a file imports. -/
def extractImports (file : List Item) : List String :=
  file.flatMap fun
    | .use (some tree) => extractUseTree tree ""
    | _ => []

/-- What a file is parsed into. -/
structure ParseResult where
  symbols : List Symbol
  callGraph : CallGraph
  imports : List String

/-- Parse a file: its symbols, its call graph and its imports. -/
def parseSourceComplete (source : String) (file : List Item) : ParseResult where
  symbols := extractSymbols source file
  callGraph := .buildFromAst file
  imports := extractImports file

end RustCodeMcp.Parser
