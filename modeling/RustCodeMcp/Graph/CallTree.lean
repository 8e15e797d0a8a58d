import RustCodeMcp.Digraph.Distance
import RustCodeMcp.Digraph.ShortestFirst
import RustCodeMcp.Graph.Opened

/-!
# The tree of the calls from a function

`callGraph` goes down the calls depth-first, with one set of visited functions and a depth that is
used up on each path. A function that is met too deep at first is not looked into where it is met
again with depth to spare. The tree loses nothing exactly when the first path to each function is a
shortest one (`callGraph_complete_iff`).

Two facts meet. The recursion, with its set and its depth, is a descent along the callees of a
function in the order of its rows (`callGraphRec_ok`), so everything about descents applies; and a
path of calls is a way of the descent (`exists_isWay_of_steps`), so what is within the depth is what
some way leads to. **What is left to say is about the graph and the order of the rows, and nothing
about the recursion.**

In the answer a pruned place is marked as cut at a cycle, whether or not there is one.
-/

namespace RustCodeMcp.Ownership

open DirectedGraph

variable {N Rest Embedding : Type} [DecidableEq N]

/-- A node of the answer. Its function is told by the name only in the answer itself. -/
structure CallGraphNode (N : Type) where
  fnId : N
  fnQualifiedName : String
  crateName : Option String
  callees : List (CallGraphNode N)
  truncatedAtCycle : Bool
  truncatedAtDepth : Bool

/-- A row of the index of the caller. -/
def noteCallee (distinctCallees : List N) (entry : Except QueryError (Usage N)) :
    Except QueryError (List N) := do
  let usage ← entry
  if usage.relation.isCall && !distinctCallees.contains usage.target then
    pure (distinctCallees ++ [usage.target])
  else pure distinctCallees

namespace OpenedSnapshot

variable (snap : OpenedSnapshot N Rest Embedding)

/-- The name of the crate a function is in. -/
def crateName (fnId : N) : Option String :=
  (snap.dbs.plain (.nodesById fnId)).bind fun node ↦ node.crateId.bind fun cid ↦
    (snap.dbs.plain (.nodesById cid)).map Node.qualifiedName

/-- The node of a function, with what is below it. -/
def callGraphNode (fnId : N) (callees : List (CallGraphNode N))
    (truncatedAtCycle truncatedAtDepth : Bool) : CallGraphNode N where
  fnId
  fnQualifiedName := snap.qualifiedName fnId
  crateName := snap.crateName fnId
  callees
  truncatedAtCycle
  truncatedAtDepth

/-- The functions that a function calls, each once. -/
def distinctCallees (fnId : N) : Except QueryError (List N) :=
  (snap.usagesForConsumerFunction fnId).foldlM noteCallee []

/-- The node, and what has been visited then. -/
def callGraphRec : ℕ → N → Finset N → Except QueryError (CallGraphNode N × Finset N)
  | 0, fnId, visited =>
    if fnId ∈ visited then pure (snap.callGraphNode fnId [] true false, visited)
    else do
      let distinctCallees ← snap.distinctCallees fnId
      pure (snap.callGraphNode fnId [] false (!distinctCallees.isEmpty), insert fnId visited)
  | depth + 1, fnId, visited =>
    if fnId ∈ visited then pure (snap.callGraphNode fnId [] true false, visited)
    else do
      let distinctCallees ← snap.distinctCallees fnId
      let (callees, visited) ← distinctCallees.foldlM (fun acc calleeId ↦ do
        let (child, visited) ← callGraphRec depth calleeId acc.2
        pure (acc.1 ++ [child], visited)) ([], insert fnId visited)
      pure (snap.callGraphNode fnId callees false false, visited)

/-- `call_graph` -/
def callGraph (rootFn : N) (depth : ℕ) : Except QueryError (CallGraphNode N) := do
  let (node, _) ← snap.callGraphRec depth rootFn ∅
  pure node

/-- The callees of a function, in the order of its rows. -/
def callees (fnId : N) : List N :=
  (snap.distinctCallees fnId).toOption.getD []

end OpenedSnapshot

/-! ### The places of a tree -/

mutual

/-- The places, each with the path from the root. -/
def CallGraphNode.places : CallGraphNode N → List (Place N)
  | ⟨fnId, _, _, callees, truncatedAtCycle, _⟩ =>
    ⟨[fnId], truncatedAtCycle⟩ :: (placesAll callees).map (Place.under fnId)

/-- The places of some nodes, one after another. -/
def placesAll : List (CallGraphNode N) → List (Place N)
  | [] => []
  | node :: nodes => node.places ++ placesAll nodes

end

omit [DecidableEq N] in
theorem placesAll_append (nodes nodes' : List (CallGraphNode N)) :
    placesAll (nodes ++ nodes') = placesAll nodes ++ placesAll nodes' := by
  induction nodes with
  | nil => rfl
  | cons node nodes ih => rw [List.cons_append, placesAll, placesAll, ih, List.append_assoc]

/-- The tree has a place for exactly the functions within the depth, and what is truncated at a
cycle stands somewhere else, at most as deep, with all its callees if there is depth left. -/
structure CallGraphNode.LosesNothing (snap : OpenedSnapshot N Rest Embedding) (rootFn : N)
    (depth : ℕ) (tree : CallGraphNode N) : Prop where
  nodes : ∀ f, (∃ p ∈ tree.places, p.path.getLast? = some f) ↔
    ∃ k ≤ depth, Steps snap.Calls k rootFn f
  truncated : ∀ q ∈ tree.places, q.pruned = true → ∃ p ∈ tree.places, p.pruned = false ∧
    p.path.getLast? = q.path.getLast? ∧ p.path.length ≤ q.path.length ∧
    (p.path.length ≤ depth → ∀ f, p.path.getLast? = some f → ∀ g, snap.Calls f g →
      ∃ b, ⟨p.path ++ [g], b⟩ ∈ tree.places)

/-! ### The descent -/

namespace OpenedSnapshot

variable {snap : OpenedSnapshot N Rest Embedding}

theorem foldlM_noteCallee (rows : List (Usage N)) (l : List N) (hl : l.Nodup) :
    ∃ l', rows.foldlM (fun acc usage ↦ noteCallee acc (.ok usage)) l = .ok l' ∧ l'.Nodup ∧
      ∀ f, f ∈ l' ↔ f ∈ l ∨ ∃ usage ∈ rows, usage.relation.isCall = true ∧ usage.target = f := by
  induction rows generalizing l with
  | nil => exact ⟨l, rfl, hl, by simp⟩
  | cons usage rows ih =>
    by_cases hnew : (usage.relation.isCall && !l.contains usage.target) = true
    · have hnotMem : usage.target ∉ l := by
        simpa using (Bool.and_eq_true_iff.1 hnew).2
      have hnodup : (l ++ [usage.target]).Nodup := List.nodup_append.2 ⟨hl,
        List.nodup_singleton _, fun a ha b hb heq ↦ hnotMem (List.mem_singleton.1 hb ▸ heq ▸ ha)⟩
      obtain ⟨l', hl', hnodup', hmem⟩ := ih (l ++ [usage.target]) hnodup
      refine ⟨l', ?_, hnodup', fun f ↦ ?_⟩
      · rw [List.foldlM_cons, show noteCallee l (.ok usage) = _ from if_pos hnew]
        exact hl'
      · have hcall := (Bool.and_eq_true_iff.1 hnew).1
        rw [hmem, List.mem_append, List.mem_singleton, List.exists_mem_cons_iff]
        grind
    · obtain ⟨l', hl', hnodup', hmem⟩ := ih l hl
      refine ⟨l', ?_, hnodup', fun f ↦ ?_⟩
      · rw [List.foldlM_cons, show noteCallee l (.ok usage) = _ from if_neg hnew]
        exact hl'
      · have hold : usage.relation.isCall = true → usage.target ∈ l := by
          simpa using hnew
        rw [hmem, List.exists_mem_cons_iff]
        grind

theorem distinctCallees_ok (fnId : N) : snap.distinctCallees fnId = .ok (snap.callees fnId) ∧
    (snap.callees fnId).Nodup ∧ ∀ f, f ∈ snap.callees fnId ↔ snap.Calls fnId f := by
  obtain ⟨rows, hrows, hmem⟩ := snap.usagesForConsumerFunction_eq fnId
  obtain ⟨l, hl, hnodup, hcallee⟩ := foldlM_noteCallee rows [] List.nodup_nil
  have hok : snap.distinctCallees fnId = .ok l := by
    rw [distinctCallees, hrows, List.foldlM_map, hl]
  have hcallees : snap.callees fnId = l := by
    rw [callees, hok]
    rfl
  rw [hcallees]
  refine ⟨hok, hnodup, fun f ↦ ?_⟩
  rw [hcallee, Calls]
  simp only [hmem, Usage.IsCallIn]
  grind

/-- The recursion is the descent along the callees. -/
theorem callGraphRec_ok (depth : ℕ) (fnId : N) (visited : Finset N) : ∃ node,
    snap.callGraphRec depth fnId visited =
      .ok (node, (descend snap.callees depth fnId visited).2) ∧
    node.places = (descend snap.callees depth fnId visited).1 := by
  induction depth generalizing fnId visited with
  | zero =>
    rw [callGraphRec, descend]
    split_ifs
    · exact ⟨_, rfl, rfl⟩
    · rw [(distinctCallees_ok fnId).1]
      exact ⟨_, rfl, rfl⟩
  | succ depth ih =>
    rw [callGraphRec, descend]
    split_ifs
    · exact ⟨_, rfl, rfl⟩
    · rw [(distinctCallees_ok fnId).1]
      suffices hbelow : ∀ (l : List N) (acc : List (CallGraphNode N) × Finset N)
          (acc' : List (Place N) × Finset N), placesAll acc.1 = acc'.1 → acc.2 = acc'.2 →
          ∃ nodes, l.foldlM (fun acc calleeId ↦ do
            let (child, visited) ← snap.callGraphRec depth calleeId acc.2
            pure (acc.1 ++ [child], visited)) acc = Except.ok (nodes, (l.foldl (fun acc w ↦
              ((acc.1 ++ (descend snap.callees depth w acc.2).1),
                (descend snap.callees depth w acc.2).2)) acc').2) ∧
            placesAll nodes = (l.foldl (fun acc w ↦
              ((acc.1 ++ (descend snap.callees depth w acc.2).1),
                (descend snap.callees depth w acc.2).2)) acc').1 by
        obtain ⟨nodes, hnodes, hplaces⟩ := hbelow (snap.callees fnId) ([], insert fnId visited)
          ([], insert fnId visited) rfl rfl
        refine ⟨snap.callGraphNode fnId nodes false false, ?_, ?_⟩
        · show (Except.bind _ _) = _
          rw [Except.bind, hnodes]
          rfl
        · rw [callGraphNode, CallGraphNode.places, hplaces]
      intro l
      induction l with
      | nil =>
        rintro ⟨nodes, visited⟩ acc' hplaces rfl
        exact ⟨nodes, rfl, hplaces⟩
      | cons w l ihl =>
        rintro ⟨nodes, visited⟩ ⟨places, _⟩ hplaces rfl
        obtain ⟨child, hchild, hchildPlaces⟩ := ih w visited
        rw [List.foldlM_cons, List.foldl_cons, hchild]
        refine ihl (nodes ++ [child], _) _ ?_ rfl
        rw [placesAll_append, hplaces, placesAll, placesAll, List.append_nil, hchildPlaces]

/-! ### Paths of calls -/

theorem exists_isWay_of_steps {k : ℕ} {f g : N} (h : Steps snap.Calls k f g) :
    ∃ p, IsWay snap.callees [f] p ∧ p.length = k + 1 ∧ p.getLast? = some g := by
  induction k generalizing f with
  | zero =>
    obtain rfl := steps_zero.1 h
    exact ⟨[f], isWay_singleton (List.mem_singleton_self f), rfl, rfl⟩
  | succ k ih =>
    obtain ⟨w, hw, hsteps⟩ := h
    obtain ⟨p, hp, hlen, hlast⟩ := ih hsteps
    have hcallee : [w] ⊆ snap.callees f := fun x hx ↦ by
      rw [List.mem_singleton.1 hx]
      exact ((distinctCallees_ok f).2.2 w).2 hw
    refine ⟨f :: p, isWay_cons (List.mem_singleton_self f) (hp.mono hcallee), by simp [hlen], ?_⟩
    rw [List.getLast?_cons, hlast, Option.getD_some]

theorem steps_of_isWay {p : List N} {f g : N} (h : IsWay snap.callees [f] p)
    (hlast : p.getLast? = some g) : Steps snap.Calls (p.length - 1) f g := by
  induction p using List.reverseRecOn generalizing g with
  | nil => cases hlast
  | append_singleton p w ih =>
    obtain rfl : w = g := by simpa using hlast
    by_cases hnil : p = []
    · subst hnil
      obtain ⟨x, hx, hhead⟩ := h.head
      obtain rfl := Option.some.inj hhead
      exact (List.mem_singleton.1 hx).symm
    · obtain ⟨hway, x, hx, hw⟩ := h.of_concat hnil
      have hsteps := (ih hway hx).snoc (((distinctCallees_ok x).2.2 w).1 hw)
      have hpos := List.length_pos_iff.2 hnil
      rw [List.length_append, List.length_singleton, Nat.add_sub_cancel]
      rwa [Nat.sub_add_cancel hpos] at hsteps

end OpenedSnapshot

/-- **The tree loses nothing exactly when the first call path to each function is a shortest one**,
in the order in which the descent goes through the callees, among the paths within the depth that
meet no function twice. -/
theorem callGraph_complete_iff (snap : OpenedSnapshot N Rest Embedding) (rootFn : N) (depth : ℕ) :
    ∃ tree, snap.callGraph rootFn depth = .ok tree ∧
      (tree.LosesNothing snap rootFn depth ↔ ShortestFirst snap.callees depth rootFn) := by
  obtain ⟨tree, htree, hplaces⟩ := snap.callGraphRec_ok depth rootFn ∅
  have hnodup : ∀ f, (snap.callees f).Nodup := fun f ↦ (OpenedSnapshot.distinctCallees_ok f).2.1
  have hforest := forest_descend hnodup depth rootFn ∅
  rw [← hplaces] at hforest
  refine ⟨tree, by rw [OpenedSnapshot.callGraph, htree]; rfl, ?_⟩
  rw [← hforest.expands_iff]
  constructor
  · intro h q hq hpruned
    obtain ⟨p, hp, hunpruned, hlast, hle, -⟩ := h.truncated q hq hpruned
    exact ⟨p, hp, hunpruned, hlast, hle⟩
  · intro hexpands
    refine ⟨fun f ↦ ⟨?_, ?_⟩, fun q hq hpruned ↦ ?_⟩
    · rintro ⟨p, hp, hlast⟩
      obtain ⟨hway, hlen⟩ := hforest.way p hp
      exact ⟨p.path.length - 1, by omega, OpenedSnapshot.steps_of_isWay hway hlast⟩
    · rintro ⟨k, hk, hsteps⟩
      obtain ⟨w, hw, hlen, hlast⟩ := OpenedSnapshot.exists_isWay_of_steps hsteps
      obtain ⟨p, hp, hplast, -⟩ := hforest.exists_shallow hexpands hw (by omega)
      exact ⟨_, hp, hplast.trans hlast⟩
    · obtain ⟨p, hp, hunpruned, hlast, hle⟩ := hexpands q hq hpruned
      refine ⟨p, hp, hunpruned, hlast, hle, fun hroom f hf g hg ↦ ?_⟩
      exact hforest.child p hp hunpruned hroom f hf g
        (((OpenedSnapshot.distinctCallees_ok f).2.2 g).2 hg)

/-- **A function within the depth is lost.** The root calls `3` and `4`, `3` calls `4`, and `4`
calls `5`: at depth 2 the tree meets `4` below `3`, where no depth is left, and has no place for
`5`. -/
theorem callGraph_loses : ∃ tree,
    (OpenedSnapshot.ofCalls 4 [(2, 3), (2, 4), (3, 4), (4, 5)]).callGraph 2 2 = .ok tree ∧
      Steps (OpenedSnapshot.ofCalls 4 [(2, 3), (2, 4), (3, 4), (4, 5)]).Calls 2 2 5 ∧
      ¬tree.LosesNothing (OpenedSnapshot.ofCalls 4 [(2, 3), (2, 4), (3, 4), (4, 5)]) 2 2 := by
  obtain ⟨tree, htree, hplaces⟩ :=
    (OpenedSnapshot.ofCalls 4 [(2, 3), (2, 4), (3, 4), (4, 5)]).callGraphRec_ok 2 2 ∅
  have hcalls : ∀ f g, g ∈ (OpenedSnapshot.ofCalls 4 [(2, 3), (2, 4), (3, 4), (4, 5)]).callees f →
      (OpenedSnapshot.ofCalls 4 [(2, 3), (2, 4), (3, 4), (4, 5)]).Calls f g := fun f g hg ↦
    ((OpenedSnapshot.distinctCallees_ok f).2.2 g).1 hg
  have hsteps : Steps (OpenedSnapshot.ofCalls 4 [(2, 3), (2, 4), (3, 4), (4, 5)]).Calls 2 2 5 :=
    ⟨4, hcalls 2 4 (by decide +kernel), 5, hcalls 4 5 (by decide +kernel), rfl⟩
  refine ⟨tree, by rw [OpenedSnapshot.callGraph, htree]; rfl, hsteps, fun hloses ↦ ?_⟩
  obtain ⟨p, hp, hlast⟩ := (hloses.nodes 5).2 ⟨2, le_rfl, hsteps⟩
  rw [hplaces] at hp
  have hnone : ∀ p ∈ (descend (OpenedSnapshot.ofCalls 4 [(2, 3), (2, 4), (3, 4), (4, 5)]).callees
      2 2 ∅).1, p.path.getLast? ≠ some 5 := by
    decide +kernel
  exact hnone p hp hlast

end RustCodeMcp.Ownership
