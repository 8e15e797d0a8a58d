import Mathlib.Data.List.Basic

/-!
# Syntax trees of function bodies

The nodes the audits look at, in a tree of anything else. A node is reached together with the nodes
around it, as in a tree that can be climbed.

The tree itself has no way up: a `SyntaxNode` is a node together with its ancestors, and every
descent carries them along, so that "the nearest block around an expression" is a list operation.
That the ancestors are the right ones is said once (`ancestors_of_mem`) and used by every audit.

**A pattern is a condition on nodes.** Its findings in a body are what it picks among the
descendants, in the order of the text; so two patterns find the same in a body exactly when they
agree on each node of it (`findingsOf_eq_iff`), and what an audit should find can be said node by
node.
-/

namespace RustCodeMcp.Audit

/-- A block of statements may be asynchronous; a `let` is given with the texts of its initializer
and of its type. -/
inductive NodeKind (L : Type)
  | other
  | block (isAsync : Bool)
  | closure
  | function
  | letStmt (initializer ty : Option (List Char))
  | breakExpr (label : Option L)
  | returnExpr
  | tryExpr
  | awaitExpr
deriving DecidableEq

/-- The three kinds of loops: only a `loop` has no condition of its own. -/
inductive LoopKind
  | loop
  | while
  | for
deriving DecidableEq

/-- The body of a loop is all that runs in each round, the condition of a `while` included. The
iterable of a `for` runs before it and stands beside it in the tree. -/
inductive Node (L : Type)
  | node (kind : NodeKind L) (range : ℕ × ℕ) (children : List (Node L))
  | loopExpr (kind : LoopKind) (label : Option L) (range : ℕ × ℕ) (body : Node L)

variable {L : Type}

/-- Where a node begins and ends in the text, in bytes. -/
def Node.range : Node L → ℕ × ℕ
  | .node _ range _ => range
  | .loopExpr _ _ range _ => range

/-- A node and those around it, the nearest first. -/
structure SyntaxNode (L : Type) where
  self : Node L
  ancestors : List (Node L)

mutual

/-- A node and all below it, in the order of the text. -/
def descendantsOfNode (ancestors : List (Node L)) : Node L → List (SyntaxNode L)
  | .node kind range children =>
    ⟨.node kind range children, ancestors⟩ ::
      descendantsOfList (.node kind range children :: ancestors) children
  | .loopExpr kind label range body =>
    ⟨.loopExpr kind label range body, ancestors⟩ ::
      descendantsOfNode (.loopExpr kind label range body :: ancestors) body

/-- The nodes of a list and all below them, from left to right. -/
def descendantsOfList (ancestors : List (Node L)) : List (Node L) → List (SyntaxNode L)
  | [] => []
  | child :: rest => descendantsOfNode ancestors child ++ descendantsOfList ancestors rest

end

/-- The node and all below it, each with what is around it. -/
def SyntaxNode.descendants (node : SyntaxNode L) : List (SyntaxNode L) :=
  descendantsOfNode node.ancestors node.self

mutual

/-- Climbing from a node leads to where the descent began. -/
theorem ancestors_of_mem (ancestors : List (Node L)) : ∀ (n : Node L),
    ∀ d ∈ descendantsOfNode ancestors n, ancestors <:+ d.ancestors
  | .node kind range children, d, hd => by
    rw [descendantsOfNode, List.mem_cons] at hd
    obtain rfl | hd := hd
    · exact List.suffix_refl _
    · exact (List.suffix_cons _ _).trans (ancestors_of_mem_list _ children d hd)
  | .loopExpr kind label range body, d, hd => by
    rw [descendantsOfNode, List.mem_cons] at hd
    obtain rfl | hd := hd
    · exact List.suffix_refl _
    · exact (List.suffix_cons _ _).trans (ancestors_of_mem _ body d hd)

theorem ancestors_of_mem_list (ancestors : List (Node L)) : ∀ (ns : List (Node L)),
    ∀ d ∈ descendantsOfList ancestors ns, ancestors <:+ d.ancestors
  | [], d, hd => absurd hd List.not_mem_nil
  | child :: rest, d, hd => by
    rw [descendantsOfList, List.mem_append] at hd
    obtain hd | hd := hd
    · exact ancestors_of_mem _ child d hd
    · exact ancestors_of_mem_list _ rest d hd

end

/-- A finding: the pattern, and where in the text it was found. -/
structure RawFinding (L : Type) where
  pattern : String
  span : ℕ × ℕ
  syntaxNode : SyntaxNode L

/-- A pattern's findings in a body. -/
def findingsOf (pattern : String) (reported : SyntaxNode L → Bool) (body : SyntaxNode L) :
    List (RawFinding L) :=
  (body.descendants.filter reported).map fun node ↦ ⟨pattern, node.self.range, node⟩

/-- **Two patterns have the same findings exactly when they agree on every node.** The order of the
text then settles the rest. -/
theorem findingsOf_eq_iff {pattern : String} {p q : SyntaxNode L → Bool} {body : SyntaxNode L} :
    findingsOf pattern p body = findingsOf pattern q body ↔
      ∀ node ∈ body.descendants, (p node = true ↔ q node = true) := by
  have hinj : Function.Injective fun node : SyntaxNode L ↦
      (⟨pattern, node.self.range, node⟩ : RawFinding L) := fun _ _ h ↦ (RawFinding.mk.inj h).2.2
  rw [findingsOf, findingsOf, List.map_inj_right fun _ _ h ↦ hinj h]
  constructor
  · intro h node hnode
    have hmem : node ∈ body.descendants.filter p ↔ node ∈ body.descendants.filter q := by rw [h]
    simpa [hnode] using hmem
  · exact fun h ↦ List.filter_congr fun node hnode ↦ Bool.eq_iff_iff.2 (h node hnode)

end RustCodeMcp.Audit
