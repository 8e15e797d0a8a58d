import RustCodeMcp.Chunker.Split
import RustCodeMcp.Digraph.Descent
import RustCodeMcp.Order.Iteration
import RustCodeMcp.Parser.Symbols

/-!
# What a chunk says of its symbol

Every symbol of a file becomes a chunk, and its outgoing calls are what the call graph has under the
symbol's bare name, in the order in which a hash set hands them out. So they are the function's own
calls, in their order, only where a name stands for one function as far as calls go, and where there
is no more than one callee to put in order (`chunkFile_iff`).

The calls of a function are collected twice over: by the parser, which gives every function its
symbol, and by the call graph, which visits functions and methods and puts the calls of each under
its bare name. The two walks are compared through lists of functions (`functionsOf`, `visited`):
symbols come in the order of the first, and what the graph has under a name is what the second holds
under it (`mem_edges_buildFromAst`).

A call graph keeps the callees of a name in a hash set. The order in which a set hands them out is a
parameter (`Orders`), chosen anew on every run, and a statement about a file holds of every choice.
-/

namespace RustCodeMcp.Parser

open Ranking (Iteration)

/-! ### Chunks -/

/-- A file name without the ending `.rs`. -/
def stripRs (name : String) : String :=
  if ".rs".toList <:+ name.toList then String.ofList (name.toList.take (name.length - 3)) else name

/-- The components of a module path, once `src` is found or before. -/
def moduleParts : Bool → List String → List String
  | _, [] => []
  | foundSrc, name :: rest =>
    if name = "src" then "crate" :: moduleParts true rest
    else if foundSrc ∧ stripRs name ≠ "mod" then stripRs name :: moduleParts foundSrc rest
    else moduleParts foundSrc rest

/-- `Path::file_stem` -/
def fileStem (path : PathBuf) : Option String :=
  path.getLast?.bind fun name ↦
    if name ∈ ["/", ".", ".."] then none
    else
      match name.toList.reverse.dropWhile (· ≠ '.') with
      | _ :: c :: before => some (String.ofList (c :: before).reverse)
      | _ => some name

/-- The module that a path stands for, as far as the path tells. -/
def extractModulePath (path : PathBuf) : List String :=
  let parts := moduleParts false path
  if parts.isEmpty then (fileStem path).toList else parts

example : extractModulePath ["src", "graph", "mod.rs"] = ["crate", "graph"] ∧
    extractModulePath ["build.rs"] = ["build"] := by
  decide

/-- The lines of the source that a symbol spans. -/
def extractSymbolCode (source : String) (symbol : Symbol) : String :=
  let lines := lines source
  let start := symbol.startLine - 1
  if lines.length ≤ start then ""
  else "\n".intercalate ((lines.take (min symbol.endLine lines.length)).drop start)

/-- In which order the callees of each caller come, whatever hash set they are in. -/
abbrev Orders := String → Iteration String

/-- What a name calls, in the order in which its set hands it out. -/
def CallGraph.getCallees (orders : Orders) (graph : CallGraph) (caller : String) : List String :=
  (orders caller).list (graph.edges caller)

/-- The context of a symbol's chunk. -/
def chunkContext (orders : Orders) (filePath : PathBuf) (parseResult : ParseResult)
    (symbol : Symbol) : ChunkContext where
  filePath
  modulePath := extractModulePath filePath
  symbolName := symbol.name
  symbolKind := symbol.kind.asStr
  docstring := symbol.docstring
  imports := parseResult.imports.take EMBEDDED_CONTEXT_ITEMS
  outgoingCalls := (parseResult.callGraph.getCallees orders symbol.name).take EMBEDDED_CONTEXT_ITEMS
  parentSymbolName := none
  splitPart := none
  splitTotal := none
  lineStart := symbol.startLine
  lineEnd := symbol.endLine

/-- A file's chunks: one for each symbol, under fresh identifiers. -/
def chunkFile (ids : ℕ → ChunkId) (orders : Orders) (filePath : PathBuf) (source : String)
    (parseResult : ParseResult) : List CodeChunk :=
  parseResult.symbols.mapIdx fun i symbol ↦ {
    id := ids i
    content := extractSymbolCode source symbol
    context := chunkContext orders filePath parseResult symbol }

/-! ### The functions of a file -/

/-- A function under its name. -/
def Fn.named (f : Fn) : List (String × Fn) :=
  (f.name.map (·, f)).toList

/-- The functions of an associated item that have a symbol. -/
def AssocItem.functions : AssocItem → List (String × Fn)
  | .fn f => f.named
  | .other => []

mutual

/-- The functions and methods that have a symbol, in the order of their symbols. -/
def Item.functions : Item → List (String × Fn)
  | .fn f => f.named
  | .impl _ _ _ assocItems => assocItems.flatMap AssocItem.functions
  | .module decl items =>
    match decl.name with
    | none => []
    | some _ => functionsOf items
  | _ => []

/-- The functions and methods of a file that have a symbol, in order. -/
def functionsOf : List Item → List (String × Fn)
  | [] => []
  | item :: rest => item.functions ++ functionsOf rest

end

/-- The functions and methods whose calls are collected. -/
def Item.visited : Item → List (String × Fn)
  | .fn f => f.named
  | .impl _ _ _ assocItems => assocItems.flatMap AssocItem.functions
  | _ => []

/-- The functions and methods of a file whose calls are collected. -/
def visited (file : List Item) : List (String × Fn) :=
  file.flatMap Item.visited

/-! ### The call graph -/

namespace CallGraph

variable {graph : CallGraph} {caller callee : String}

theorem mem_edges_addCall {caller' callee' : String} :
    callee ∈ (graph.addCall caller' callee').edges caller ↔
      callee ∈ graph.edges caller ∨ caller = caller' ∧ callee = callee' := by
  by_cases hcaller : caller = caller'
  · simp [addCall, hcaller, or_comm]
  · simp [addCall, hcaller]

/-- What a loop adds is what its steps add. -/
theorem mem_edges_foldl {α : Type} {step : CallGraph → α → CallGraph} {adds : α → Prop}
    (hstep : ∀ graph a, callee ∈ (step graph a).edges caller ↔
      callee ∈ graph.edges caller ∨ adds a) (graph : CallGraph) (l : List α) :
    callee ∈ (l.foldl step graph).edges caller ↔
      callee ∈ graph.edges caller ∨ ∃ a ∈ l, adds a := by
  induction l generalizing graph with
  | nil => simp
  | cons a rest ih => rw [List.foldl_cons, ih, hstep, List.exists_mem_cons_iff, or_assoc]

theorem mem_edges_extractCallsFromExpr {node : Node} {caller' : String} :
    callee ∈ (extractCallsFromExpr node caller' graph).edges caller ↔
      callee ∈ graph.edges caller ∨
        caller = caller' ∧ callee ∈ node.descendants.filterMap Node.callee? := by
  rw [extractCallsFromExpr]
  refine (@mem_edges_foldl caller callee _ _
    (fun descendant ↦ caller = caller' ∧ descendant.callee? = some callee)
    (fun graph descendant ↦ ?_) graph node.descendants).trans ?_
  · rcases hcallee : descendant.callee? with - | callee'
    · simp
    · simp [mem_edges_addCall, eq_comm]
  simp only [List.mem_filterMap]
  grind

theorem mem_edges_addFn {f : Fn} :
    callee ∈ (graph.addFn f).edges caller ↔
      callee ∈ graph.edges caller ∨ ∃ g, (caller, g) ∈ f.named ∧ callee ∈ g.calls := by
  unfold addFn Fn.named
  rcases f.name with - | name
  · simp
  · rcases hbody : f.body with - | body
    · simp [Fn.calls, hbody]
    · simp [mem_edges_extractCallsFromExpr, Fn.calls, hbody]

theorem mem_edges_addAssocItem (graph : CallGraph) (assocItem : AssocItem) :
    callee ∈ (graph.addAssocItem assocItem).edges caller ↔
      callee ∈ graph.edges caller ∨
        ∃ g, (caller, g) ∈ assocItem.functions ∧ callee ∈ g.calls := by
  cases assocItem with
  | fn f => exact mem_edges_addFn
  | other => simp [addAssocItem, AssocItem.functions]

theorem mem_edges_addItem (graph : CallGraph) (item : Item) :
    callee ∈ (graph.addItem item).edges caller ↔
      callee ∈ graph.edges caller ∨ ∃ g, (caller, g) ∈ item.visited ∧ callee ∈ g.calls := by
  cases item with
  | fn f => exact mem_edges_addFn
  | impl selfTy traitText range assocItems =>
    show callee ∈ (assocItems.foldl addAssocItem graph).edges caller ↔ _
    rw [mem_edges_foldl mem_edges_addAssocItem]
    simp only [Item.visited, List.mem_flatMap]
    grind
  | _ => simp [addItem, Item.visited]

/-- **What the call graph has under a name**: the calls of the functions it visits. -/
theorem mem_edges_buildFromAst {file : List Item} :
    callee ∈ (buildFromAst file).edges caller ↔
      ∃ g, (caller, g) ∈ visited file ∧ callee ∈ g.calls := by
  rw [buildFromAst, mem_edges_foldl mem_edges_addItem]
  simp only [visited, List.mem_flatMap, new, Finset.notMem_empty, false_or]
  grind

end CallGraph

/-! ### Chunks and functions -/

variable {file : List Item} {source : String}

theorem map_body_chunkFile (ids : ℕ → ChunkId) (orders : Orders) (filePath : PathBuf)
    (source : String) (parseResult : ParseResult) :
    (chunkFile ids orders filePath source parseResult).map CodeChunk.body =
      parseResult.symbols.map fun symbol ↦
        ⟨extractSymbolCode source symbol, chunkContext orders filePath parseResult symbol⟩ := by
  refine List.ext_getElem (by simp [chunkFile]) fun i _ _ ↦ ?_
  simp only [chunkFile, List.getElem_map, List.getElem_mapIdx]
  rfl

/-- The names of the functions among the symbols. -/
def functionNames (symbols : List Symbol) : List String :=
  (symbols.filter fun symbol ↦ symbol.kind.asStr = "function").map Symbol.name

theorem functionNames_append (symbols symbols' : List Symbol) :
    functionNames (symbols ++ symbols') = functionNames symbols ++ functionNames symbols' := by
  rw [functionNames, List.filter_append, List.map_append]
  rfl

theorem functionNames_symbol (f : Fn) : functionNames (f.symbol source) = f.named.map Prod.fst := by
  unfold Fn.symbol Decl.symbol Fn.named
  cases f.name <;> rfl

theorem functionNames_symbol_decl {kind : SymbolKind} (hkind : kind.asStr ≠ "function")
    (decl : Decl) : functionNames (decl.symbol source kind) = [] := by
  unfold Decl.symbol
  cases decl.name <;> simp [functionNames, hkind]

theorem functionNames_flatMap_symbol (assocItems : List AssocItem) :
    functionNames (assocItems.flatMap (AssocItem.symbol source)) =
      (assocItems.flatMap AssocItem.functions).map Prod.fst := by
  induction assocItems with
  | nil => rfl
  | cons assocItem rest ih =>
    rw [List.flatMap_cons, List.flatMap_cons, functionNames_append, List.map_append, ih]
    cases assocItem with
    | fn f => rw [AssocItem.symbol, functionNames_symbol, AssocItem.functions]
    | other => rfl

mutual

/-- The symbols of an item that are functions are those of its functions. -/
theorem functionNames_extractItemSymbols (source : String) (item : Item) :
    functionNames (extractItemSymbols source item) = item.functions.map Prod.fst := by
  match item with
  | .fn f => exact functionNames_symbol f
  | .impl selfTy traitText range assocItems => exact functionNames_flatMap_symbol assocItems
  | .module decl items =>
    rw [extractItemSymbols, Item.functions]
    cases decl.name with
    | none => rfl
    | some name =>
      show functionNames (decl.symbol source .module ++ extractSymbols source items) = _
      rw [functionNames_append, functionNames_symbol_decl (by decide), List.nil_append]
      exact functionNames_extractSymbols source items
  | .struct decl | .enum decl | .trait decl | .const decl | .static decl | .typeAlias decl =>
    exact functionNames_symbol_decl (by decide) decl
  | .use tree | .other => rfl

/-- The symbols that are functions are those of the functions, one after another. -/
theorem functionNames_extractSymbols (source : String) (file : List Item) :
    functionNames (extractSymbols source file) = (functionsOf file).map Prod.fst := by
  match file with
  | [] => rfl
  | item :: rest =>
    rw [extractSymbols, functionsOf, functionNames_append, List.map_append,
      functionNames_extractItemSymbols source item, functionNames_extractSymbols source rest]

end

theorem visited_subset (file : List Item) : visited file ⊆ functionsOf file := by
  induction file with
  | nil => exact List.Subset.refl _
  | cons item rest ih =>
    rw [visited, List.flatMap_cons, functionsOf]
    refine List.append_subset.2 ⟨List.subset_append_of_subset_left _ ?_,
      List.subset_append_of_subset_right _ ih⟩
    cases item with
    | fn f => exact List.Subset.refl _
    | impl selfTy traitText range assocItems => exact List.Subset.refl _
    | _ => exact List.nil_subset _

/-- A function has a symbol. -/
theorem exists_symbol_of_mem_functionsOf (source : String) {name : String} {f : Fn}
    (h : (name, f) ∈ functionsOf file) : ∃ symbol ∈ extractSymbols source file,
      symbol.name = name := by
  have hname : name ∈ functionNames (extractSymbols source file) := by
    rw [functionNames_extractSymbols]
    exact List.mem_map.2 ⟨_, h, rfl⟩
  obtain ⟨symbol, hmem, hsymbol⟩ := List.mem_map.1 hname
  exact ⟨symbol, List.mem_of_mem_filter hmem, hsymbol⟩

/-! ### When a context is its own symbol's -/

/-- The chunks are the same on every run, up to their ids. -/
def Reproducible (filePath : PathBuf) (source : String) (file : List Item) : Prop :=
  ∀ ids ids' orders orders',
    (chunkFile ids orders filePath source (parseSourceComplete source file)).map CodeChunk.body =
      (chunkFile ids' orders' filePath source (parseSourceComplete source file)).map CodeChunk.body

/-- The chunks of functions, each with its symbol's name and its outgoing calls. -/
def functionCalls (chunks : List CodeChunk) : List (String × List String) :=
  (chunks.filter fun chunk ↦ chunk.context.symbolKind = "function").map fun chunk ↦
    (chunk.context.symbolName, chunk.context.outgoingCalls)

/-- The outgoing calls of the function's chunks are the first names called in its own body. -/
def OwnCalls (filePath : PathBuf) (source : String) (file : List Item) : Prop :=
  ∀ ids orders,
    functionCalls (chunkFile ids orders filePath source (parseSourceComplete source file)) =
      (functionsOf file).map fun (name, f) ↦ (name, f.calls.eraseDups.take EMBEDDED_CONTEXT_ITEMS)

/-- A name stands for one function as far as calls go, and it calls no two names. -/
structure Settled (file : List Item) : Prop where
  /-- What is collected under one name are calls of one name. -/
  single : ∀ {name f g c d}, (name, f) ∈ visited file → (name, g) ∈ visited file →
    c ∈ f.calls → d ∈ g.calls → c = d
  /-- What is collected under a function's name is called in its body. -/
  called : ∀ {name f g c}, (name, f) ∈ functionsOf file → (name, g) ∈ visited file →
    c ∈ g.calls → c ∈ f.calls
  /-- What a function calls is collected under its name. -/
  collected : ∀ {name f c}, (name, f) ∈ functionsOf file → c ∈ f.calls →
    ∃ g, (name, g) ∈ visited file ∧ c ∈ g.calls

/-- The chunks of a file's functions, with the outgoing calls that the graph has for each. -/
theorem functionCalls_chunkFile (ids : ℕ → ChunkId) (orders : Orders) (filePath : PathBuf) :
    functionCalls (chunkFile ids orders filePath source (parseSourceComplete source file)) =
      (functionsOf file).map fun (name, _) ↦ (name,
        ((CallGraph.buildFromAst file).getCallees orders name).take EMBEDDED_CONTEXT_ITEMS) := by
  have hbody : ∀ chunks : List CodeChunk, functionCalls chunks =
      ((chunks.map CodeChunk.body).filter fun body ↦ body.context.symbolKind = "function").map
        fun body ↦ (body.context.symbolName, body.context.outgoingCalls) := by
    intro chunks
    rw [List.filter_map, List.map_map]
    rfl
  rw [hbody, map_body_chunkFile, List.filter_map, List.map_map]
  have hnames := congrArg (List.map fun name ↦ (name,
    ((CallGraph.buildFromAst file).getCallees orders name).take EMBEDDED_CONTEXT_ITEMS))
    (functionNames_extractSymbols source file)
  rw [functionNames, List.map_map, List.map_map] at hnames
  exact hnames

/-- Runs agree exactly where no name has two callees. -/
theorem reproducible_iff {filePath : PathBuf} : Reproducible filePath source file ↔
    ∀ symbol ∈ extractSymbols source file, ∀ c ∈ (CallGraph.buildFromAst file).edges symbol.name,
      ∀ d ∈ (CallGraph.buildFromAst file).edges symbol.name, c = d := by
  unfold Reproducible
  simp only [map_body_chunkFile, List.map_inj_left]
  constructor
  · intro h symbol hsymbol
    refine (Iteration.take_list_eq_iff (n := EMBEDDED_CONTEXT_ITEMS) (by decide)).1 fun it it' ↦ ?_
    have hbody := h (fun i ↦ ⟨i⟩) (fun i ↦ ⟨i⟩) (fun _ ↦ it) (fun _ ↦ it') symbol hsymbol
    exact congrArg (fun body ↦ body.context.outgoingCalls) hbody
  · intro h ids ids' orders orders' symbol hsymbol
    have htake := (Iteration.take_list_eq_iff (n := EMBEDDED_CONTEXT_ITEMS) (by decide)).2
      (h symbol hsymbol) (orders symbol.name) (orders' symbol.name)
    unfold chunkContext CallGraph.getCallees
    rw [show (parseSourceComplete source file).callGraph = .buildFromAst file from rfl, htake]

/-- With no two callees, what comes first is the function's own exactly if the names are. -/
theorem take_list_eq_take_eraseDups_iff {it : Iteration String} {s : Finset String}
    {l : List String} (hs : ∀ c ∈ s, ∀ d ∈ s, c = d) :
    (it.list s).take EMBEDDED_CONTEXT_ITEMS = l.eraseDups.take EMBEDDED_CONTEXT_ITEMS ↔
      ∀ c, c ∈ s ↔ c ∈ l := by
  have hcard : (it.list s).length ≤ 1 := by
    rw [← Multiset.coe_card, ← it.val_eq]
    exact Finset.card_le_one.2 hs
  have htake : (it.list s).take EMBEDDED_CONTEXT_ITEMS = it.list s :=
    List.take_of_length_le (hcard.trans (by decide))
  rw [htake]
  constructor
  · intro h c
    have hlength : l.eraseDups.length ≤ EMBEDDED_CONTEXT_ITEMS := by
      rw [h, List.length_take] at hcard
      have hitems : EMBEDDED_CONTEXT_ITEMS = 5 := rfl
      omega
    rw [← it.mem, h, List.take_of_length_le hlength, List.mem_eraseDups]
  · intro h
    have hperm : (it.list s).Perm l.eraseDups :=
      it.perm (DirectedGraph.nodup_eraseDups l) fun c ↦ by rw [List.mem_eraseDups, h]
    rw [List.take_of_length_le ((hperm.length_eq ▸ hcard).trans (by decide))]
    exact it.list_eq_of_perm hs hperm

/-- **When a chunk's context is its own symbol's.** The chunks of a file are the same on every run,
and those of functions name the calls of their own bodies, exactly if what is collected under a
function's name is what its own body calls, and that is one name at most. -/
theorem chunkFile_iff (filePath : PathBuf) (source : String) (file : List Item) :
    Reproducible filePath source file ∧ OwnCalls filePath source file ↔ Settled file := by
  have hown : (∀ symbol ∈ extractSymbols source file,
      ∀ c ∈ (CallGraph.buildFromAst file).edges symbol.name,
        ∀ d ∈ (CallGraph.buildFromAst file).edges symbol.name, c = d) →
      (OwnCalls filePath source file ↔ ∀ name f, (name, f) ∈ functionsOf file → ∀ c,
        c ∈ (CallGraph.buildFromAst file).edges name ↔ c ∈ f.calls) := by
    intro hsingle
    obtain ⟨it⟩ : Nonempty (Iteration String) := inferInstance
    have hiff : ∀ orders : Orders, ∀ name f, (name, f) ∈ functionsOf file →
        (((orders name).list ((CallGraph.buildFromAst file).edges name)).take
            EMBEDDED_CONTEXT_ITEMS = f.calls.eraseDups.take EMBEDDED_CONTEXT_ITEMS ↔
          ∀ c, c ∈ (CallGraph.buildFromAst file).edges name ↔ c ∈ f.calls) := by
      intro orders name f hf
      obtain ⟨symbol, hsymbol, rfl⟩ := exists_symbol_of_mem_functionsOf source hf
      exact take_list_eq_take_eraseDups_iff (hsingle symbol hsymbol)
    unfold OwnCalls
    simp only [functionCalls_chunkFile, List.map_inj_left]
    constructor
    · intro h name f hf
      exact (hiff (fun _ ↦ it) name f hf).1
        (congrArg Prod.snd (h (fun i ↦ ⟨i⟩) (fun _ ↦ it) (name, f) hf))
    · intro h ids orders ⟨name, f⟩ hf
      exact congrArg (Prod.mk name) ((hiff orders name f hf).2 (h name f hf))
  rw [reproducible_iff, and_congr_right hown]
  simp only [CallGraph.mem_edges_buildFromAst]
  constructor
  · rintro ⟨hsingle, hcalls⟩
    refine ⟨fun {name f g c d} hf hg hc hd ↦ ?_, fun hf hg hc ↦ (hcalls _ _ hf _).1 ⟨_, hg, hc⟩,
      fun hf hc ↦ (hcalls _ _ hf _).2 hc⟩
    obtain ⟨symbol, hsymbol, rfl⟩ :=
      exists_symbol_of_mem_functionsOf source (visited_subset file hf)
    exact hsingle symbol hsymbol c ⟨f, hf, hc⟩ d ⟨g, hg, hd⟩
  · intro h
    constructor
    · rintro symbol - c ⟨f, hf, hc⟩ d ⟨g, hg, hd⟩
      exact h.single hf hg hc hd
    · intro name f hf c
      constructor
      · rintro ⟨g, hg, hc⟩
        exact h.called hf hg hc
      · exact h.collected hf

/-- A function that calls these names one after another. -/
def calling (name : String) (callees : List String) : Fn where
  name := some name
  range := ⟨0, 0, Nat.le_refl 0⟩
  docComments := []
  isAsync := false
  isUnsafe := false
  isConst := false
  body := some (.other (callees.map fun callee ↦ .callExpr (some (.path [some callee])) []))

/-- Two callees come in either order, and a function inside a module has no calls at all. -/
theorem order_and_nesting :
    ¬ Reproducible ["src", "lib.rs"] "fn caller() { c2(); c1(); }"
        [.fn (calling "caller" ["c2", "c1"])] ∧
      ¬ OwnCalls ["src", "lib.rs"] "mod m { fn caller() { c1(); } }"
        [.module ⟨some "m", ⟨0, 0, Nat.le_refl 0⟩, []⟩ [.fn (calling "caller" ["c1"])]] := by
  constructor
  · rw [reproducible_iff]
    intro h
    have hsymbol := h _ (List.mem_singleton_self _)
    have hmem : ∀ c ∈ ["c2", "c1"], c ∈
        (CallGraph.buildFromAst [.fn (calling "caller" ["c2", "c1"])]).edges "caller" := by
      decide
    exact absurd (hsymbol "c2" (hmem _ (by decide)) "c1" (hmem _ (by decide))) (by decide)
  · intro h
    obtain ⟨it⟩ : Nonempty (Iteration String) := inferInstance
    have hcalls := h (fun i ↦ ⟨i⟩) fun _ ↦ it
    rw [functionCalls_chunkFile] at hcalls
    have hnone : it.list ∅ = [] :=
      List.eq_nil_iff_forall_not_mem.2 fun c hc ↦ Finset.notMem_empty c ((it.mem ∅ c).1 hc)
    have hlist := congrArg Prod.snd (List.cons.inj hcalls).1
    change (it.list ∅).take _ = _ at hlist
    rw [hnone] at hlist
    exact absurd hlist (by decide)

end RustCodeMcp.Parser
