import Mathlib.Algebra.Order.Floor.Ring
import Mathlib.Data.Char
import Mathlib.Data.List.Lex
import Mathlib.Data.Prod.Lex
import Mathlib.Data.Rat.Floor
import RustCodeMcp.Codemap.Seeds
import RustCodeMcp.Digraph.Levels
import RustCodeMcp.Graph.Names
import RustCodeMcp.Order.Iteration

/-!
# Building a codemap

A codemap is what the usages lead to from its seeds, level by level and in both directions, with a
cap on the referrers of each node. Of the nodes reached, those that are no seeds compete for the
rest of the budget.

Every run gives a bounded neighbourhood of the seeds (`isNeighborhood_buildCodemap`), in whatever
order the hash sets are iterated.

**Two loops, one of them over a hash set.** `expand` goes through the levels, and each level through
what was reached in the one before, in an order that is a parameter of the run; what a level finds
does not depend on that order, only the lists it leaves do (`Visited`, `HasLevels`). So distances
and edges can be said by the number of steps from a seed, and the order comes back only where
something is cut: at the cap on the referrers of a node, and at the budget.

Scores are rationals where the code has floats, and casts to `i32` are written out with their
saturation, because the rank of a referrer is such a cast.
-/

namespace RustCodeMcp.CodemapBuild

open DirectedGraph Ranking
open Codemap (offsetsFrom)
open Navigation (Name ItemKind)
open Ownership (NodeKind Usage UsageRelation)
open Tables (Bytes)

/-! ### The rows and the answer -/

/-- A node with the place in a file that a codemap shows. -/
structure Node (N : Type) extends Navigation.Node N where
  span : Option (ℕ × ℕ)
  deriving DecidableEq

/-- Some node has this id. -/
def HasNode {N : Type} (nodes : List (Node N)) (id : N) : Prop :=
  ∃ node ∈ nodes, node.id = id

instance {N : Type} [DecidableEq N] (nodes : List (Node N)) (id : N) :
    Decidable (HasNode nodes id) :=
  inferInstanceAs (Decidable (∃ node ∈ nodes, node.id = id))

/-- The usages point at nodes. What the files on disk hold does not change during a call. -/
structure OpenedSnapshot (N : Type) where
  nodes : List (Node N)
  nodup : (nodes.map fun node ↦ node.id).Nodup
  /-- `usages_by_id` -/
  usages : List (Usage N)
  targets : ∀ usage ∈ usages, HasNode nodes usage.target
  owners : ∀ usage ∈ usages, ∀ owner, usage.consumerItem = some owner → HasNode nodes owner
  read : Name → Option Bytes
  extractSnippet : Name → ℕ → Option Name

/-- What an edge of a codemap stands for. -/
inductive EdgeKind
  | calls
  | traitDispatch
  | functionReference
  | typeRef
  | constructs
  | reads
  | writes
  | implements
  | uses
  | imports
  | contains
  deriving DecidableEq

/-- `{kind:?}` -/
def EdgeKind.debug : EdgeKind → Name
  | .calls => "Calls".toList
  | .traitDispatch => "TraitDispatch".toList
  | .functionReference => "FunctionReference".toList
  | .typeRef => "TypeRef".toList
  | .constructs => "Constructs".toList
  | .reads => "Reads".toList
  | .writes => "Writes".toList
  | .implements => "Implements".toList
  | .uses => "Uses".toList
  | .imports => "Imports".toList
  | .contains => "Contains".toList

/-- What a usage becomes in a codemap. -/
def edgeKind : UsageRelation → EdgeKind
  | .call => .calls
  | .traitDispatch => .traitDispatch
  | .functionReference => .functionReference
  | .typeRef => .typeRef
  | .construct => .constructs
  | .read => .reads
  | .write => .writes
  | .implements => .implements
  | .use | .unknown => .uses

/-- A node of the answer, with its relevance. -/
structure CodemapNode (N : Type) where
  id : N
  qualifiedName : Name
  kind : NodeKind
  itemKind : Option ItemKind
  file : Option Name
  span : Option (ℕ × ℕ)
  line : Option ℕ
  relevance : ℚ
  isSeed : Bool
  snippet : Option Name

/-- An edge of the answer: both ends, the kind, and how many usages it stands for. -/
structure CodemapEdge (N : Type) where
  from_ : N
  to_ : N
  kind : EdgeKind
  weight : ℕ
  deriving DecidableEq

/-- The seeds, the nodes and the edges of the answer. -/
structure Codemap (N : Type) where
  seeds : List N
  nodes : List (CodemapNode N)
  edges : List (CodemapEdge N)

/-- The seeds with the options, and the scores that the search hits gave (`bm25_by_node`), as exact
numbers. Seeds are resolved to nodes. -/
structure Request {N : Type} (snap : OpenedSnapshot N) where
  seeds : Finset N
  resolved : ∀ seed ∈ seeds, HasNode snap.nodes seed
  scored : Finset N
  score : N → ℚ
  maxNodes : ℕ
  depth : ℕ
  maxIncomingPerNode : ℕ
  includeSnippets : Bool

/-- In which order the hash sets and maps of one call are iterated. Each node is expanded once, and
each frontier is another set. -/
structure Orders (N : Type) where
  frontier : Iteration N
  outgoing : N → Iteration (N × EdgeKind)
  refs : N → Iteration (N × EdgeKind)
  scored : Iteration N
  retained : Iteration N
  seeds : Iteration N
  finalSet : Iteration N
  edges : Iteration (CodemapEdge N)

/-! ### Casts -/

/-- The least number of 32 bits. -/
def I32_MIN : ℤ := -2 ^ 31
/-- The greatest number of 32 bits. -/
def I32_MAX : ℤ := 2 ^ 31 - 1

/-- `as i32`, towards zero and saturating. -/
def toI32 (q : ℚ) : ℤ :=
  max I32_MIN (min I32_MAX (if 0 ≤ q then ⌊q⌋ else ⌈q⌉))

/-- A negation that wraps. -/
def negI32 (i : ℤ) : ℤ :=
  if i = I32_MIN then I32_MIN else -i

section Model

variable {N : Type} [DecidableEq N]

namespace OpenedSnapshot

variable (snap : OpenedSnapshot N)

/-- `get_node` -/
def get (id : N) : Option (Node N) :=
  snap.nodes.find? fun node ↦ node.id = id

/-- `node_qualified_name` -/
def nodeQualifiedName (id : N) : Name :=
  ((snap.get id).map fun node ↦ node.qualifiedName).getD []

/-- The line of a place in a file, counted from one; none if the file cannot be read. -/
def lineOfByte (file : Name) (byteStart : ℕ) : Option ℕ := do
  let bytes ← snap.read file
  -- The offsets increase, and the partition point is behind those up to the byte.
  let pp := ((0 :: offsetsFrom 0 bytes).takeWhile (· ≤ byteStart)).length
  if pp = 0 then none else some pp

/-- Names in ascending order. -/
def nameKey (n : N) : Nameᵒᵈ :=
  OrderDual.toDual (snap.nodeQualifiedName n)

/-- What the edges of a node are sorted by: in descending order of names and kinds. -/
def outgoingKey (edge : N × EdgeKind) : (Name ×ₗ Name)ᵒᵈ :=
  OrderDual.toDual (toLex (snap.nodeQualifiedName edge.1, edge.2.debug))

/-- What the edges of the answer are sorted by: the names of the two ends, and nothing else. -/
def edgeKey (edge : CodemapEdge N) : (Name ×ₗ Name)ᵒᵈ :=
  OrderDual.toDual (toLex (snap.nodeQualifiedName edge.from_, snap.nodeQualifiedName edge.to_))

/-! ### Expansion -/

/-- The set `outgoing` of a node. -/
def outgoing (n : N) : Finset (N × EdgeKind) :=
  ((snap.usages.filter fun usage ↦ usage.consumerItem = some n).map fun usage ↦
    (usage.target, edgeKind usage.relation)).toFinset

/-- The set `refs` of a node. -/
def refs (n : N) : Finset (N × EdgeKind) :=
  ((snap.usages.filter fun usage ↦ usage.target = n).filterMap fun usage ↦
    usage.consumerItem.map fun owner ↦ (owner, edgeKind usage.relation)).toFinset

end OpenedSnapshot

/-- An entry of the map `edges`, whose weights are all 1. -/
def entry (n m : N) (kind : EdgeKind) : CodemapEdge N :=
  ⟨n, m, kind, 1⟩

/-- Where the expansion stands: what is retained, at which distances, with which edges, and where to
go on. -/
structure Expansion (N : Type) where
  retained : Finset N
  frontier : Finset N
  distFromSeed : N → Option ℕ
  edges : Finset (CodemapEdge N)

/-- An edge and the node that it leads to. `frontier` is the next one. -/
def Expansion.visit (nextDist : ℕ) (state : Expansion N) (step : N × CodemapEdge N) :
    Expansion N where
  retained := insert step.1 state.retained
  frontier :=
    if step.1 ∈ state.retained then state.frontier else insert step.1 state.frontier
  distFromSeed :=
    if step.1 ∈ state.retained then state.distFromSeed
    else fun n ↦
      if n = step.1 then some ((state.distFromSeed n).getD nextDist) else state.distFromSeed n
  edges := insert step.2 state.edges

/-- `prune_to_budget` -/
def pruneToBudget (seeds : Finset N) (retained : List N) (relevance : N → ℚ)
    (qualifiedNames : N → Name) (maxNodes : ℕ) : Finset N :=
  seeds ∪ ((rankBy (fun n ↦ toLex (relevance n, OrderDual.toDual (qualifiedNames n)))
    (retained.filter fun n ↦ n ∉ seeds)).take (maxNodes - seeds.card)).toFinset

namespace Request

variable {snap : OpenedSnapshot N} (req : Request snap)

/-- The score that the search gave a node, or none. -/
def bm25 (n : N) : ℚ :=
  if n ∈ req.scored then req.score n else 0

/-- What referrers are ranked by: the score, as a saturated `i32`, then the name. -/
def rankReferrer (n : N) : ℤ ×ₗ Name :=
  toLex (negI32 (toI32 (req.bm25 n * 1000)), snap.nodeQualifiedName n)

/-- The order in which a node's referrers are cut. -/
def refKey (ref : N × EdgeKind) : ((ℤ ×ₗ Name) ×ₗ Name)ᵒᵈ :=
  OrderDual.toDual (toLex (req.rankReferrer ref.1, ref.2.debug))

variable (orders : Orders N)

/-- What the expansion of a node goes through. -/
def steps (n : N) : List (N × CodemapEdge N) :=
  ((rankBy snap.outgoingKey ((orders.outgoing n).list (snap.outgoing n))).map fun (target, kind) ↦
    (target, entry n target kind)) ++
  ((rankBy req.refKey ((orders.refs n).list (snap.refs n))).take req.maxIncomingPerNode).map
    fun (r, kind) ↦ (r, entry r n kind)

/-- One level. -/
def level (d : ℕ) (state : Expansion N) : Expansion N :=
  let ordered := rankBy snap.nameKey (orders.frontier.list state.frontier)
  (ordered.flatMap (req.steps orders)).foldl (Expansion.visit (d + 1)) { state with frontier := ∅ }

/-- The loop over the levels, from `d` on. -/
def expandFrom : ℕ → ℕ → Expansion N → Expansion N
  | 0, _, state => state
  | rest + 1, d, state =>
    if state.frontier = ∅ then state else expandFrom rest (d + 1) (req.level orders d state)

/-- All levels, from the seeds on. -/
def expand : Expansion N :=
  req.expandFrom orders req.depth 0
    { retained := req.seeds
      frontier := req.seeds
      distFromSeed := fun n ↦ if n ∈ req.seeds then some 0 else none
      edges := ∅ }

/-! ### Scores -/

/-- A score against the greatest one, from zero to one. -/
def bm25Norm (maxBm25 : ℚ) (n : N) : ℚ :=
  if 0 < maxBm25 then max 0 (min (req.bm25 n / maxBm25) 1) else 0

/-- The closer to a seed, the nearer to one. -/
def graphProx : Option ℕ → ℚ
  | none => 0
  | some dist => 1 / (1 + dist)

/-- The relevance without a prompt's embedding. -/
def relevance (maxBm25 : ℚ) (dist : N → Option ℕ) (n : N) : ℚ :=
  3 / 5 * req.bm25Norm maxBm25 n + 2 / 5 * graphProx (dist n)

/-- The greatest of the search's scores, or zero. -/
def maxBm25 : ℚ :=
  ((orders.scored.list req.scored).map req.score).foldl max 0

/-! ### The answer -/

/-- The node of the answer for an id. -/
def nodeOf (relevance : N → ℚ) (n : N) : Option (CodemapNode N) :=
  (snap.get n).map fun node ↦
    { id := n
      qualifiedName := node.qualifiedName
      kind := node.kind
      itemKind := node.itemKind
      file := node.file
      span := node.span
      line := do
        let file ← node.file
        let span ← node.span
        snap.lineOfByte file span.1
      relevance := relevance n
      isSeed := n ∈ req.seeds
      snippet :=
        if req.includeSnippets then do
          let file ← node.file
          let span ← node.span
          snap.extractSnippet file span.1
        else none }

/-- The values of the map `relevance`. -/
def relevanceOf : N → ℚ :=
  req.relevance (req.maxBm25 orders) (req.expand orders).distFromSeed

/-- The seeds, and of the other nodes as many as the budget has room for. -/
def finalSet : Finset N :=
  pruneToBudget req.seeds (orders.retained.list (req.expand orders).retained)
    (req.relevanceOf orders) snap.nodeQualifiedName req.maxNodes

/-- The keys that the map `edges` retains. -/
def finalEdges : Finset (CodemapEdge N) :=
  (req.expand orders).edges.filter fun edge ↦
    edge.from_ ∈ req.finalSet orders ∧ edge.to_ ∈ req.finalSet orders

/-- `build_codemap` -/
def buildCodemap : Codemap N where
  seeds := rankBy snap.nameKey (orders.seeds.list req.seeds)
  nodes := (rankBy snap.nameKey (orders.finalSet.list (req.finalSet orders))).filterMap
    (req.nodeOf (req.relevanceOf orders))
  edges := rankBy snap.edgeKey (orders.edges.list (req.finalEdges orders))

end Request

end Model

/-! ### What the expansion has -/

section Expansion

variable {N : Type} [DecidableEq N]

/-- What going through some edges gives. -/
structure Visited (nextDist : ℕ) (state : Expansion N) (steps : List (N × CodemapEdge N))
    (state' : Expansion N) : Prop where
  retained : ∀ m, m ∈ state'.retained ↔ m ∈ state.retained ∨ ∃ e, (m, e) ∈ steps
  frontier : ∀ m, m ∈ state'.frontier ↔ m ∉ state.retained ∧ ∃ e, (m, e) ∈ steps
  dist : ∀ m, state'.distFromSeed m =
    if m ∈ state'.frontier then some nextDist else state.distFromSeed m
  edges : ∀ e, e ∈ state'.edges ↔ e ∈ state.edges ∨ ∃ m, (m, e) ∈ steps

/-- One edge more. -/
theorem Visited.snoc {nextDist : ℕ} {state last : Expansion N} {steps : List (N × CodemapEdge N)}
    (ih : Visited nextDist state steps last)
    (h : ∀ m ∉ state.retained, state.distFromSeed m = none) (n : N) (edge : CodemapEdge N) :
    Visited nextDist state (steps ++ [(n, edge)]) (last.visit nextDist (n, edge)) := by
  have hmore : ∀ m e, (m, e) ∈ steps ++ [(n, edge)] ↔ (m, e) ∈ steps ∨ m = n ∧ e = edge := by
    intro m e
    rw [List.mem_append, List.mem_singleton, Prod.mk.injEq]
  have hfound : ∀ m, (∃ e, (m, e) ∈ steps ++ [(n, edge)]) ↔ (∃ e, (m, e) ∈ steps) ∨ m = n := by
    intro m
    simp only [hmore, exists_or, exists_and_left, exists_eq, and_true]
  -- What is retained and what edges are found does not depend on whether the node is new.
  have hretained : ∀ m, m ∈ insert n last.retained ↔
      m ∈ state.retained ∨ ∃ e, (m, e) ∈ steps ++ [(n, edge)] := by
    intro m
    rw [Finset.mem_insert, ih.retained, hfound, or_comm, or_assoc]
  have hedges : ∀ e, e ∈ insert edge last.edges ↔
      e ∈ state.edges ∨ ∃ m, (m, e) ∈ steps ++ [(n, edge)] := by
    intro e
    simp only [hmore, exists_or, exists_eq_left, Finset.mem_insert, ih.edges]
    rw [or_comm, or_assoc]
  by_cases hold : n ∈ last.retained
  · -- The node was there, or was found by an earlier edge.
    have hvisit : last.visit nextDist (n, edge) =
        ⟨insert n last.retained, last.frontier, last.distFromSeed, insert edge last.edges⟩ := by
      rw [Expansion.visit, if_pos hold, if_pos hold]
    rw [hvisit]
    refine ⟨hretained, fun m ↦ ?_, ih.dist, hedges⟩
    rw [ih.frontier, hfound]
    refine and_congr_right fun hnot ↦ ⟨Or.inl, ?_⟩
    rintro (hm | rfl)
    · exact hm
    · exact ((ih.retained m).1 hold).resolve_left hnot
  -- The node is new, and gets the distance of this level.
  · have hnew : n ∉ last.frontier := by
      intro hmem
      exact hold ((ih.retained n).2 (.inr ((ih.frontier n).1 hmem).2))
    have hnot : n ∉ state.retained := fun hmem ↦ hold ((ih.retained n).2 (.inl hmem))
    have hvisit : last.visit nextDist (n, edge) =
        ⟨insert n last.retained, insert n last.frontier, fun m ↦
          if m = n then some ((last.distFromSeed m).getD nextDist) else last.distFromSeed m,
          insert edge last.edges⟩ := by
      rw [Expansion.visit, if_neg hold, if_neg hold]
    rw [hvisit]
    refine ⟨hretained, fun m ↦ ?_, fun m ↦ ?_, hedges⟩
    · rw [Finset.mem_insert, ih.frontier, hfound, and_or_left, or_comm]
      refine or_congr_right ⟨?_, And.right⟩
      rintro rfl
      exact ⟨hnot, rfl⟩
    · show (if m = n then _ else _) = if m ∈ insert n last.frontier then _ else _
      by_cases hm : m = n
      · subst hm
        rw [if_pos rfl, if_pos (Finset.mem_insert_self _ _), ih.dist, if_neg hnew, h m hnot]
        rfl
      · rw [if_neg hm, ih.dist]
        simp only [Finset.mem_insert, hm, false_or]

theorem visited_foldl {state : Expansion N} (h : ∀ m ∉ state.retained, state.distFromSeed m = none)
    (nextDist : ℕ) (steps : List (N × CodemapEdge N)) :
    Visited nextDist state steps
      (steps.foldl (Expansion.visit nextDist) { state with frontier := ∅ }) := by
  induction steps using List.reverseRecOn with
  | nil => refine ⟨fun m ↦ ?_, fun m ↦ ?_, fun m ↦ ?_, fun e ↦ ?_⟩ <;> simp
  | append_singleton steps step ih =>
    rw [List.foldl_concat]
    exact ih.snoc h step.1 step.2

namespace Request

variable {snap : OpenedSnapshot N} (req : Request snap) (orders : Orders N)

/-- What the expansion of a node finds, by which edges. -/
def found (n : N) : Finset (N × CodemapEdge N) :=
  (req.steps orders n).toFinset

/-- The state after `d` levels. -/
def HasLevels (d : ℕ) (state : Expansion N) : Prop :=
  Levels (req.found orders) req.seeds d state.retained state.frontier state.distFromSeed state.edges

variable {req orders} {d : ℕ} {state : Expansion N}

theorem HasLevels.level (h : req.HasLevels orders d state) :
    req.HasLevels orders (d + 1) (req.level orders d state) := by
  have hvisited := visited_foldl (fun m ↦ h.dist_eq_none) (d + 1)
    ((rankBy snap.nameKey (orders.frontier.list state.frontier)).flatMap (req.steps orders))
  have hsteps : ∀ m e,
      (m, e) ∈ (rankBy snap.nameKey (orders.frontier.list state.frontier)).flatMap
        (req.steps orders) ↔ ∃ v ∈ state.frontier, (m, e) ∈ req.found orders v := by
    intro m e
    simp only [List.mem_flatMap, (rankBy_perm _ _).mem_iff, orders.frontier.mem, found,
      List.mem_toFinset]
  have hfound : ∀ m, (∃ e, (m, e) ∈ (rankBy snap.nameKey
      (orders.frontier.list state.frontier)).flatMap (req.steps orders)) ↔
        ∃ v ∈ state.frontier, ∃ e, (m, e) ∈ req.found orders v := by
    intro m
    simp only [hsteps]
    exact ⟨fun ⟨e, v, hv, h⟩ ↦ ⟨v, hv, e, h⟩, fun ⟨v, hv, e, h⟩ ↦ ⟨e, v, hv, h⟩⟩
  refine Levels.succ h (fun m ↦ ?_) (fun m ↦ ?_) hvisited.dist fun e ↦ ?_
  · exact (hvisited.retained m).trans (or_congr_right (hfound m))
  · exact (hvisited.frontier m).trans (and_congr_right fun _ ↦ hfound m)
  · refine (hvisited.edges e).trans (or_congr_right ?_)
    simp only [hsteps]
    exact ⟨fun ⟨m, v, hv, h⟩ ↦ ⟨v, hv, m, h⟩, fun ⟨v, hv, m, h⟩ ↦ ⟨m, v, hv, h⟩⟩

theorem HasLevels.expandFrom (h : req.HasLevels orders d state) (rest : ℕ) :
    req.HasLevels orders (d + rest) (req.expandFrom orders rest d state) := by
  induction rest generalizing d state with
  | zero => exact h
  | succ rest ih =>
    rw [Request.expandFrom]
    split
    · rename_i hempty
      rw [HasLevels, hempty] at h ⊢
      exact h.of_empty (rest + 1)
    · rw [← Nat.add_assoc, Nat.add_right_comm]
      exact ih h.level

/-- **The expansion goes through the levels up to the depth.** -/
theorem hasLevels_expand (req : Request snap) (orders : Orders N) :
    req.HasLevels orders req.depth (req.expand orders) := by
  have hzero : req.HasLevels orders 0 ⟨req.seeds, req.seeds,
      fun n ↦ if n ∈ req.seeds then some 0 else none, ∅⟩ := Levels.zero
  have h := hzero.expandFrom req.depth
  rwa [Nat.zero_add] at h

/-! ### What the answer has -/

theorem mem_steps {n m : N} {e : CodemapEdge N} (h : (m, e) ∈ req.steps orders n) :
    ∃ usage ∈ snap.usages, usage.consumerItem = some e.from_ ∧ usage.target = e.to_ ∧
      edgeKind usage.relation = e.kind ∧ e.weight = 1 ∧
      (e.from_ = n ∧ e.to_ = m ∨ e.from_ = m ∧ e.to_ = n) := by
  rw [steps, List.mem_append, List.mem_map, List.mem_map] at h
  rcases h with ⟨⟨target, kind⟩, hmem, heq⟩ | ⟨⟨r, kind⟩, hmem, heq⟩
  · obtain ⟨rfl, rfl⟩ := Prod.mk.inj heq
    rw [(rankBy_perm _ _).mem_iff, Iteration.mem, OpenedSnapshot.outgoing, List.mem_toFinset,
      List.mem_map] at hmem
    obtain ⟨usage, husage, hkey⟩ := hmem
    obtain ⟨husage, howner⟩ := List.mem_filter.1 husage
    obtain ⟨rfl, rfl⟩ := Prod.mk.inj hkey
    exact ⟨usage, husage, of_decide_eq_true howner, rfl, rfl, rfl, .inl ⟨rfl, rfl⟩⟩
  · obtain ⟨rfl, rfl⟩ := Prod.mk.inj heq
    have hmem := List.mem_of_mem_take hmem
    rw [(rankBy_perm _ _).mem_iff, Iteration.mem, OpenedSnapshot.refs, List.mem_toFinset,
      List.mem_filterMap] at hmem
    obtain ⟨usage, husage, hkey⟩ := hmem
    obtain ⟨husage, htarget⟩ := List.mem_filter.1 husage
    obtain ⟨owner, howner, hkey⟩ := Option.map_eq_some_iff.1 hkey
    obtain ⟨rfl, rfl⟩ := Prod.mk.inj hkey
    exact ⟨usage, husage, howner, of_decide_eq_true htarget, rfl, rfl, .inr ⟨rfl, rfl⟩⟩

theorem hasNode_of_within {k : ℕ} {n : N} (h : n ∈ within (req.found orders) req.seeds k) :
    HasNode snap.nodes n := by
  induction k generalizing n with
  | zero => exact req.resolved n h
  | succ k ih =>
    rcases mem_within_succ.1 h with h | ⟨m, -, e, hfound⟩
    · exact ih h
    · obtain ⟨usage, husage, howner, htarget, -, -, ⟨-, hto⟩ | ⟨hfrom, -⟩⟩ :=
        mem_steps (List.mem_toFinset.1 hfound)
      · rw [← hto, ← htarget]
        exact snap.targets usage husage
      · rw [← hfrom]
        exact snap.owners usage husage _ howner

theorem hasNode_of_retained (req : Request snap) (orders : Orders N) {n : N}
    (h : n ∈ (req.expand orders).retained) : HasNode snap.nodes n := by
  rw [(hasLevels_expand req orders).retained] at h
  exact hasNode_of_within h

theorem seeds_subset_retained (req : Request snap) (orders : Orders N) :
    req.seeds ⊆ (req.expand orders).retained := by
  rw [(hasLevels_expand req orders).retained]
  exact within_mono (Nat.zero_le _)

theorem seeds_subset_finalSet (req : Request snap) (orders : Orders N) :
    req.seeds ⊆ req.finalSet orders :=
  Finset.subset_union_left

theorem finalSet_subset (req : Request snap) (orders : Orders N) :
    req.finalSet orders ⊆ (req.expand orders).retained := by
  refine Finset.union_subset (seeds_subset_retained req orders) fun n hn ↦ ?_
  have hmem := (rankBy_perm _ _).mem_iff.1 (List.mem_of_mem_take (List.mem_toFinset.1 hn))
  exact (orders.retained.mem _ n).1 (List.mem_of_mem_filter hmem)

/-- The budget governs the other nodes only. -/
theorem card_finalSet_sdiff (req : Request snap) (orders : Orders N) :
    (req.finalSet orders \ req.seeds).card ≤ req.maxNodes - req.seeds.card := by
  rw [finalSet, pruneToBudget, Finset.union_sdiff_left]
  exact (Finset.card_le_card Finset.sdiff_subset).trans
    ((List.toFinset_card_le _).trans (List.length_take_le _ _))

theorem nodeOf_eq_some {relevance : N → ℚ} {n : N} {node : CodemapNode N}
    (h : req.nodeOf relevance n = some node) :
    node.id = n ∧ node.relevance = relevance n ∧ node.isSeed = decide (n ∈ req.seeds) := by
  obtain ⟨_, -, rfl⟩ := Option.map_eq_some_iff.1 h
  exact ⟨rfl, rfl, rfl⟩

theorem nodeOf_isSome (req : Request snap) (relevance : N → ℚ) {n : N} (h : HasNode snap.nodes n) :
    ∃ node, req.nodeOf relevance n = some node := by
  obtain ⟨node, hmem, hid⟩ := h
  have hget : (snap.get n).isSome = true :=
    List.find?_isSome.2 ⟨node, hmem, decide_eq_true hid⟩
  obtain ⟨node, hnode⟩ := Option.isSome_iff_exists.1 hget
  exact ⟨_, congrArg (Option.map _) hnode⟩

theorem map_id_filterMap {relevance : N → ℚ} {l : List N} (h : ∀ n ∈ l, HasNode snap.nodes n) :
    (l.filterMap (req.nodeOf relevance)).map CodemapNode.id = l := by
  induction l with
  | nil => rfl
  | cons n l ih =>
    obtain ⟨node, hnode⟩ := nodeOf_isSome req relevance (h n List.mem_cons_self)
    rw [List.filterMap_cons_some hnode, List.map_cons, (nodeOf_eq_some hnode).1,
      ih fun m hm ↦ h m (List.mem_cons_of_mem n hm)]

/-- **The nodes of the answer**, one for each that is kept. -/
theorem map_id_nodes (req : Request snap) (orders : Orders N) :
    (req.buildCodemap orders).nodes.map CodemapNode.id =
      rankBy snap.nameKey (orders.finalSet.list (req.finalSet orders)) := by
  refine map_id_filterMap fun n hn ↦ hasNode_of_retained req orders ?_
  rw [(rankBy_perm _ _).mem_iff, orders.finalSet.mem] at hn
  exact finalSet_subset req orders hn

theorem mem_map_id_nodes {n : N} :
    n ∈ (req.buildCodemap orders).nodes.map CodemapNode.id ↔ n ∈ req.finalSet orders := by
  rw [map_id_nodes, (rankBy_perm _ _).mem_iff, orders.finalSet.mem]

theorem mem_edges {e : CodemapEdge N} :
    e ∈ (req.buildCodemap orders).edges ↔ e ∈ req.finalEdges orders :=
  (rankBy_perm _ _).mem_iff.trans (orders.edges.mem _ e)

end Request

end Expansion

/-! ### Neighbourhoods -/

section Neighborhood

variable {N : Type} [DecidableEq N] {snap : OpenedSnapshot N}

/-- A usage leads from one of two nodes to the other. -/
def Adjacent (snap : OpenedSnapshot N) (n m : N) : Prop :=
  ∃ usage ∈ snap.usages, usage.consumerItem = some n ∧ usage.target = m ∨
    usage.consumerItem = some m ∧ usage.target = n

/-- The expansion of `n` follows an edge to `m`. -/
def Expands (req : Request snap) (orders : Orders N) (n m : N) : Prop :=
  ∃ e, (m, e) ∈ req.found orders n

/-- `m` is so many steps away from a seed. -/
def FromSeed (req : Request snap) (r : N → N → Prop) (k : ℕ) (m : N) : Prop :=
  ∃ seed ∈ req.seeds, Steps r k seed m

/-- A bounded neighbourhood of the seeds, with relevances by the distances of the expansion. -/
structure IsNeighborhood (req : Request snap) (orders : Orders N) (codemap : Codemap N) : Prop where
  seeds : ∀ seed ∈ req.seeds, ∃ node ∈ codemap.nodes, node.id = seed ∧ node.isSeed
  budget : (codemap.nodes.filter fun node ↦ !node.isSeed).length ≤
    req.maxNodes - req.seeds.card
  reached : ∀ node ∈ codemap.nodes, ∃ k ≤ req.depth, FromSeed req (Adjacent snap) k node.id ∧
    IsLeast {k | FromSeed req (Expands req orders) k node.id} k ∧
    node.relevance = 3 / 5 * req.bm25Norm (req.maxBm25 orders) node.id + 2 / 5 * (1 / (1 + k))
  edges : ∀ e ∈ codemap.edges, (∃ node ∈ codemap.nodes, node.id = e.from_) ∧
    (∃ node ∈ codemap.nodes, node.id = e.to_) ∧ e.weight = 1 ∧
    ∃ usage ∈ snap.usages, usage.consumerItem = some e.from_ ∧ usage.target = e.to_ ∧
      edgeKind usage.relation = e.kind

theorem adjacent_of_expands {req : Request snap} {orders : Orders N} {n m : N}
    (h : Expands req orders n m) : Adjacent snap n m := by
  obtain ⟨e, hmem⟩ := h
  obtain ⟨usage, husage, howner, htarget, -, -, ⟨rfl, rfl⟩ | ⟨rfl, rfl⟩⟩ :=
    Request.mem_steps (List.mem_toFinset.1 hmem)
  · exact ⟨usage, husage, .inl ⟨howner, htarget⟩⟩
  · exact ⟨usage, husage, .inr ⟨howner, htarget⟩⟩

/-- **Every run gives a bounded neighbourhood of the seeds.** -/
theorem isNeighborhood_buildCodemap (req : Request snap) (orders : Orders N) :
    IsNeighborhood req orders (req.buildCodemap orders) := by
  have hlevels := Request.hasLevels_expand req orders
  have hkept : ∀ n, n ∈ req.finalSet orders →
      ∃ node ∈ (req.buildCodemap orders).nodes, node.id = n := fun n hn ↦
    List.mem_map.1 (Request.mem_map_id_nodes.2 hn)
  have hnode : ∀ node ∈ (req.buildCodemap orders).nodes,
      node.relevance = req.relevanceOf orders node.id ∧
        node.isSeed = decide (node.id ∈ req.seeds) := by
    intro node hmem
    obtain ⟨n, -, hn⟩ := List.mem_filterMap.1 hmem
    obtain ⟨rfl, hrelevance, hseed⟩ := Request.nodeOf_eq_some hn
    exact ⟨hrelevance, hseed⟩
  constructor
  -- The seeds are kept.
  · intro seed hseed
    obtain ⟨node, hmem, rfl⟩ := hkept seed (Request.seeds_subset_finalSet req orders hseed)
    refine ⟨node, hmem, rfl, ?_⟩
    rw [(hnode node hmem).2, decide_eq_true hseed]
  -- The others are no more than asked for.
  · have hnodup : ((req.buildCodemap orders).nodes.map CodemapNode.id).Nodup := by
      rw [Request.map_id_nodes, (rankBy_perm _ _).nodup_iff]
      exact orders.finalSet.nodup _
    have hothers : (((req.buildCodemap orders).nodes.filter fun node ↦ !node.isSeed).map
        CodemapNode.id).toFinset ⊆ req.finalSet orders \ req.seeds := by
      intro n hn
      obtain ⟨node, hmem, rfl⟩ := List.mem_map.1 (List.mem_toFinset.1 hn)
      obtain ⟨hmem, hseed⟩ := List.mem_filter.1 hmem
      rw [(hnode node hmem).2, Bool.not_eq_true', decide_eq_false_iff_not] at hseed
      exact Finset.mem_sdiff.2 ⟨Request.mem_map_id_nodes.1 (List.mem_map_of_mem hmem), hseed⟩
    rw [← List.length_map CodemapNode.id,
      ← List.toFinset_card_of_nodup (hnodup.sublist (List.filter_sublist.map _))]
    exact (Finset.card_le_card hothers).trans (Request.card_finalSet_sdiff req orders)
  · intro node hmem
    have hretained := Request.finalSet_subset req orders
      (Request.mem_map_id_nodes.1 (List.mem_map_of_mem hmem))
    rw [hlevels.retained] at hretained
    obtain ⟨k, hk, hleast⟩ := exists_isLeast hretained
    have hdist : (req.expand orders).distFromSeed node.id = some k :=
      (hlevels.dist node.id k).2 ⟨hk, hleast⟩
    have hsteps := isLeast_within_iff.1 hleast
    refine ⟨k, hk, ?_, hsteps, ?_⟩
    · obtain ⟨seed, hseed, hsteps⟩ := hsteps.1
      exact ⟨seed, hseed, Steps.imp (fun _ _ ↦ adjacent_of_expands) hsteps⟩
    · rw [(hnode node hmem).1, Request.relevanceOf, Request.relevance, hdist]
      rfl
  -- An edge is between kept nodes, and a usage stands behind it.
  · intro e he
    obtain ⟨hmem, hfrom, hto⟩ := Finset.mem_filter.1 (Request.mem_edges.1 he)
    obtain ⟨k, -, n, -, m, hfound⟩ := (hlevels.edges e).1 hmem
    obtain ⟨usage, husage, howner, htarget, hkind, hweight, -⟩ :=
      Request.mem_steps (List.mem_toFinset.1 hfound)
    exact ⟨hkept _ hfrom, hkept _ hto, hweight, usage, husage, howner, htarget, hkind⟩

end Neighborhood

end RustCodeMcp.CodemapBuild
