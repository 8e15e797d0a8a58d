import RustCodeMcp.Codemap.Build

/-!
# Runs of the codemap

Names are not unique across targets, edges are sorted by the names of their ends alone, and a cap or
a budget can cut between two nodes of one rank. So two runs give the same codemap only where the
hash sets leave nothing to choose: where no cap cuts a tie, exactly when the budget cuts none, no
two of the nodes kept have one name and no two of the edges kept join the same names
(`buildCodemap_iff`).

**What a run has without choosing is written down first** (`closeTo`, `close`, `stepsTo`, `chosen`):
sets and distances in terms of the usages alone, by how many others are ranked before a node. Where
no cap cuts a tie every run comes to these; where one does, the run keeps some of the tied ones, and
which they are depends on the order of a hash map.

The other direction needs orders that make two runs differ. From a tie at the budget, from two nodes
of one name and from two edges between the same names, such orders are built here
(`Reproducible.sharpBudget`, `Reproducible.distinctNames`, `Reproducible.distinctEnds`).
-/

namespace RustCodeMcp.CodemapBuild

open DirectedGraph Ranking
open Navigation (Name)

section Runs

variable {N : Type} [DecidableEq N] {snap : OpenedSnapshot N}

/-! ### What is close -/

namespace Request

variable (req : Request snap)

/-- What a node leads to, with the referrers that too few others are ranked before. -/
def closeTo (n : N) : Finset (N × CodemapEdge N) :=
  (snap.outgoing n).image (fun (target, kind) ↦ (target, entry n target kind)) ∪
    (firstOf req.refKey (snap.refs n) req.maxIncomingPerNode).image
      fun (r, kind) ↦ (r, entry r n kind)

/-- What is at most `k` steps away from the seeds. -/
def close (k : ℕ) : Finset N :=
  within req.closeTo req.seeds k

/-- The least number of steps, up to the depth. -/
def stepsTo (n : N) : Option ℕ :=
  (List.range (req.depth + 1)).find? fun k ↦ n ∈ req.close k

/-- The greatest of the search's scores, in no order. -/
def maxScore : ℚ :=
  req.scored.fold max 0 req.score

/-- What the nodes compete by. -/
def standing (n : N) : ℚ ×ₗ Nameᵒᵈ :=
  toLex (req.relevance req.maxScore req.stepsTo n, OrderDual.toDual (snap.nodeQualifiedName n))

/-- What is close without being a seed. -/
def candidates : Finset N :=
  req.close req.depth \ req.seeds

/-- The seeds and the candidates that fewer others than the rest of the budget are ranked before. -/
def chosen : Finset N :=
  req.seeds ∪ firstOf req.standing req.candidates (req.maxNodes - req.seeds.card)

/-- The edges from one of these to another. -/
def chosenEdges : Finset (CodemapEdge N) :=
  ((Finset.range req.depth).biUnion fun k ↦
    (req.close k).biUnion fun n ↦ (req.closeTo n).image Prod.snd).filter fun e ↦
      e.from_ ∈ req.chosen ∧ e.to_ ∈ req.chosen

/-- No cap on referrers cuts a tie where the expansion goes on. -/
def SharpCaps : Prop :=
  ∀ k < req.depth, ∀ n ∈ req.close k, SharpCut req.refKey (snap.refs n) req.maxIncomingPerNode

variable {req}

/-- A sharp cap leaves of a node's referrers those that are ranked first. -/
theorem found_eq {n : N} (h : SharpCut req.refKey (snap.refs n) req.maxIncomingPerNode)
    (orders : Orders N) : req.found orders n = req.closeTo n := by
  have hrefs := toFinset_take_rankBy ((orders.refs n).nodup _) ((orders.refs n).mem _) h
  ext ⟨m, e⟩
  rw [found, steps, closeTo, ← hrefs]
  simp only [List.mem_toFinset, List.mem_append, List.mem_map, Finset.mem_union, Finset.mem_image,
    (rankBy_perm _ _).mem_iff, Iteration.mem]

/-- **Where no cap cuts a tie, the expansion is the same on every run.** -/
theorem levels_expand (h : req.SharpCaps) (orders : Orders N) :
    Levels req.closeTo req.seeds req.depth (req.expand orders).retained
      (req.expand orders).frontier (req.expand orders).distFromSeed (req.expand orders).edges := by
  have hsame : ∀ k < req.depth, ∀ n ∈ req.close k, req.closeTo n = req.found orders n :=
    fun k hk n hn ↦ (found_eq (h k hk n hn) orders).symm
  refine Levels.congr (hasLevels_expand req orders) fun k hk n hn ↦ (hsame k hk n ?_).symm
  rw [close, within_congr hsame hk.le]
  exact hn

theorem retained_eq (h : req.SharpCaps) (orders : Orders N) :
    (req.expand orders).retained = req.close req.depth :=
  (levels_expand h orders).retained

/-- The distance is the least number of steps, if the depth allows for it. -/
theorem stepsTo_eq_some {n : N} {k : ℕ} : req.stepsTo n = some k ↔
    k ≤ req.depth ∧ IsLeast {k | n ∈ within req.closeTo req.seeds k} k := by
  rw [isLeast_within, stepsTo, List.find?_range_eq_some]
  simp only [decide_eq_true_eq, List.mem_range, Bool.not_eq_true', decide_eq_false_iff_not,
    Nat.lt_succ_iff]
  exact and_left_comm

theorem relevanceOf_eq (h : req.SharpCaps) (orders : Orders N) :
    req.relevanceOf orders = req.relevance req.maxScore req.stepsTo := by
  have hdist : (req.expand orders).distFromSeed = req.stepsTo := by
    funext n
    refine Option.ext fun k ↦ ?_
    exact ((levels_expand h orders).dist n k).trans stepsTo_eq_some.symm
  rw [relevanceOf, hdist, maxBm25, Iteration.foldl_map_list, maxScore]

/-- With few usages, no cap cuts anything. -/
theorem sharpCaps_of_length_le (h : snap.usages.length ≤ req.maxIncomingPerNode) :
    req.SharpCaps := by
  intro k _ n _
  refine sharpCut_of_card_le ((List.toFinset_card_le _).trans ?_)
  exact ((List.length_filterMap_le _ _).trans (List.length_filter_le _ _)).trans h

theorem mem_candidates {n : N} :
    n ∈ req.candidates ↔ n ∈ req.close req.depth ∧ decide (n ∉ req.seeds) := by
  rw [candidates, Finset.mem_sdiff, decide_eq_true_iff]

theorem finalSet_eq (h : req.SharpCaps) (orders : Orders N) :
    req.finalSet orders = req.seeds ∪ ((rankBy req.standing ((orders.retained.list
      (req.close req.depth)).filter fun n ↦ n ∉ req.seeds)).take
        (req.maxNodes - req.seeds.card)).toFinset := by
  rw [finalSet, pruneToBudget, relevanceOf_eq h, retained_eq h]
  rfl

theorem finalSet_eq_chosen (h : req.SharpCaps)
    (hcut : SharpCut req.standing req.candidates (req.maxNodes - req.seeds.card))
    (orders : Orders N) : req.finalSet orders = req.chosen := by
  rw [finalSet_eq h, chosen, toFinset_take_rankBy ((orders.retained.nodup _).filter _) ?_ hcut]
  intro n
  rw [List.mem_filter, Iteration.mem, mem_candidates]

theorem finalEdges_eq_chosenEdges (h : req.SharpCaps)
    (hcut : SharpCut req.standing req.candidates (req.maxNodes - req.seeds.card))
    (orders : Orders N) : req.finalEdges orders = req.chosenEdges := by
  ext e
  rw [finalEdges, chosenEdges, Finset.mem_filter, Finset.mem_filter, finalSet_eq_chosen h hcut,
    (levels_expand h orders).edges]
  refine and_congr_left fun _ ↦ ?_
  simp only [Finset.mem_biUnion, Finset.mem_range, Finset.mem_image, Prod.exists,
    exists_eq_right, close]

/-! ### What there is to choose -/

/-- Two runs give the same seeds, nodes and edges, in the same order. -/
def Reproducible (req : Request snap) : Prop :=
  ∀ orders orders', req.buildCodemap orders = req.buildCodemap orders'

/-- No tie is cut by the budget. -/
def SharpBudget (req : Request snap) : Prop :=
  SharpCut req.standing req.candidates (req.maxNodes - req.seeds.card)

/-- No two of the nodes kept have one name. -/
def DistinctNames (req : Request snap) : Prop :=
  ∀ n ∈ req.chosen, ∀ m ∈ req.chosen,
    snap.nodeQualifiedName n = snap.nodeQualifiedName m → n = m

/-- No two of the edges kept join the same names. -/
def DistinctEnds (req : Request snap) : Prop :=
  ∀ e ∈ req.chosenEdges, ∀ e' ∈ req.chosenEdges,
    snap.nodeQualifiedName e.from_ = snap.nodeQualifiedName e'.from_ →
      snap.nodeQualifiedName e.to_ = snap.nodeQualifiedName e'.to_ → e = e'

/-- Runs that give the same answers keep the same nodes. -/
theorem Reproducible.finalSet_eq (h : req.Reproducible) (orders orders' : Orders N) :
    req.finalSet orders = req.finalSet orders' := by
  ext n
  rw [← mem_map_id_nodes, ← mem_map_id_nodes, h orders orders']

instance : Nonempty (Orders N) := by
  obtain ⟨it⟩ : Nonempty (Iteration N) := inferInstance
  obtain ⟨edges⟩ : Nonempty (Iteration (N × EdgeKind)) := inferInstance
  obtain ⟨entries⟩ : Nonempty (Iteration (CodemapEdge N)) := inferInstance
  exact ⟨it, fun _ ↦ edges, fun _ ↦ edges, it, it, it, it, entries⟩

/-- A budget that cuts a tie keeps one node on one run and another on the next. -/
theorem Reproducible.sharpBudget (h : req.Reproducible) (hcaps : req.SharpCaps) :
    req.SharpBudget := by
  obtain ⟨orders⟩ : Nonempty (Orders N) := inferInstance
  refine (take_rankBy_list_iff fun n ↦ mem_candidates).1 fun it it' ↦ ?_
  have hsame := h.finalSet_eq { orders with retained := it } { orders with retained := it' }
  rw [Request.finalSet_eq hcaps, Request.finalSet_eq hcaps] at hsame
  have hothers : ∀ (it : Iteration N) (n : N), n ∈ ((rankBy req.standing ((it.list
      (req.close req.depth)).filter fun n ↦ n ∉ req.seeds)).take
        (req.maxNodes - req.seeds.card)).toFinset → n ∉ req.seeds := by
    intro it n hn
    have hmem := (rankBy_perm _ _).mem_iff.1 (List.mem_of_mem_take (List.mem_toFinset.1 hn))
    exact of_decide_eq_true (List.mem_filter.1 hmem).2
  have hsdiff := congrArg (· \ req.seeds) hsame
  simp only [Finset.union_sdiff_left] at hsdiff
  rwa [Finset.sdiff_eq_self_of_disjoint (Finset.disjoint_left.2 (hothers it)),
    Finset.sdiff_eq_self_of_disjoint (Finset.disjoint_left.2 (hothers it'))] at hsdiff

theorem Reproducible.distinctNames (h : req.Reproducible) (hcaps : req.SharpCaps)
    (hbudget : req.SharpBudget) : req.DistinctNames := by
  obtain ⟨orders⟩ : Nonempty (Orders N) := inferInstance
  have hsame : ∀ it it' : Iteration N,
      rankBy snap.nameKey (it.list req.chosen) = rankBy snap.nameKey (it'.list req.chosen) := by
    intro it it'
    have hnodes := congrArg (fun codemap ↦ codemap.nodes.map CodemapNode.id)
      (h { orders with finalSet := it } { orders with finalSet := it' })
    simp only [map_id_nodes, finalSet_eq_chosen hcaps hbudget] at hnodes
    exact hnodes
  intro n hn m hm hname
  exact rankBy_list_eq_iff.1 hsame n hn m hm (congrArg OrderDual.toDual hname)

/-- Two edges between the same names come in either order. -/
theorem Reproducible.distinctEnds (h : req.Reproducible) (hcaps : req.SharpCaps)
    (hbudget : req.SharpBudget) : req.DistinctEnds := by
  obtain ⟨orders⟩ : Nonempty (Orders N) := inferInstance
  have hsame : ∀ it it' : Iteration (CodemapEdge N),
      rankBy snap.edgeKey (it.list req.chosenEdges) =
        rankBy snap.edgeKey (it'.list req.chosenEdges) := by
    intro it it'
    have hedges := congrArg Codemap.edges
      (h { orders with edges := it } { orders with edges := it' })
    rw [buildCodemap, buildCodemap] at hedges
    simp only [finalEdges_eq_chosenEdges hcaps hbudget] at hedges
    exact hedges
  intro e he e' he' hfrom hto
  refine rankBy_list_eq_iff.1 hsame e he e' he' ?_
  rw [OpenedSnapshot.edgeKey, OpenedSnapshot.edgeKey, hfrom, hto]

/-- **Where there is nothing to choose**, the codemap is the same on every run. -/
theorem reproducible_of (hcaps : req.SharpCaps) (hbudget : req.SharpBudget)
    (hnames : req.DistinctNames) (hends : req.DistinctEnds) : req.Reproducible := by
  intro orders orders'
  have hseeds : ∀ n ∈ req.seeds, ∀ m ∈ req.seeds, snap.nameKey n = snap.nameKey m → n = m :=
    fun n hn m hm heq ↦ hnames n (Finset.mem_union_left _ hn) m (Finset.mem_union_left _ hm)
      (OrderDual.toDual.injective heq)
  have hnodes : ∀ n ∈ req.chosen, ∀ m ∈ req.chosen, snap.nameKey n = snap.nameKey m → n = m :=
    fun n hn m hm heq ↦ hnames n hn m hm (OrderDual.toDual.injective heq)
  have hedges : ∀ e ∈ req.chosenEdges, ∀ e' ∈ req.chosenEdges,
      snap.edgeKey e = snap.edgeKey e' → e = e' := by
    intro e he e' he' heq
    obtain ⟨hfrom, hto⟩ := Prod.mk.inj (toLex.injective (OrderDual.toDual.injective heq))
    exact hends e he e' he' hfrom hto
  rw [buildCodemap, buildCodemap, relevanceOf_eq hcaps, relevanceOf_eq hcaps,
    finalSet_eq_chosen hcaps hbudget, finalSet_eq_chosen hcaps hbudget,
    finalEdges_eq_chosenEdges hcaps hbudget, finalEdges_eq_chosenEdges hcaps hbudget,
    rankBy_list_eq_iff.2 hseeds orders.seeds orders'.seeds,
    rankBy_list_eq_iff.2 hnodes orders.finalSet orders'.finalSet,
    rankBy_list_eq_iff.2 hedges orders.edges orders'.edges]

end Request

/-- **Where no cap on referrers cuts a tie, the codemap is a bounded neighbourhood of the seeds and
the same on every run exactly when the budget cuts no tie and names tell the nodes and the edges
kept apart.** -/
theorem buildCodemap_iff (req : Request snap) (h : req.SharpCaps) :
    ((∀ orders, IsNeighborhood req orders (req.buildCodemap orders)) ∧ req.Reproducible) ↔
      req.SharpBudget ∧ req.DistinctNames ∧ req.DistinctEnds := by
  constructor
  · rintro ⟨-, hsame⟩
    have hbudget := hsame.sharpBudget h
    exact ⟨hbudget, hsame.distinctNames h hbudget, hsame.distinctEnds h hbudget⟩
  · rintro ⟨hbudget, hnames, hends⟩
    exact ⟨isNeighborhood_buildCodemap req, Request.reproducible_of h hbudget hnames hends⟩

end Runs

/-! ### A function that is called and taken -/

/-- A use of `g` in `f`. -/
def useOf (start : ℕ) (relation : Ownership.UsageRelation) : Ownership.Usage ℕ where
  target := 1
  consumerModule := 2
  file := "src/lib.rs"
  start := start
  stop := start + 1
  category := .other
  consumerFunction := some 0
  consumerItem := some 0
  relation := relation
  expansion := none

/-- A function in a crate. -/
def functionNode (id : ℕ) (name : String) : Node ℕ where
  id := id
  kind := .item
  displayName := name.toList
  qualifiedName := ("app::" ++ name).toList
  crateId := none
  itemKind := some .function
  file := some "src/lib.rs".toList
  crateTargetKind := none
  span := none

/-- `fn f() { g(); take(g); }` -/
def callAndTake : OpenedSnapshot ℕ where
  nodes := [functionNode 0 "f", functionNode 1 "g"]
  nodup := by decide
  usages := [useOf 9 .call, useOf 19 .functionReference]
  targets := by decide
  owners := by
    intro usage husage owner howner
    rcases List.mem_cons.1 husage with rfl | husage
    · obtain rfl := Option.some.inj howner
      decide
    · obtain rfl := List.mem_singleton.1 husage
      obtain rfl := Option.some.inj howner
      decide
  read _ := none
  extractSnippet _ _ := none

/-- Both functions are seeds, and the options are the defaults. -/
def bothFunctions : Request callAndTake where
  seeds := {0, 1}
  resolved := by decide
  scored := ∅
  score _ := 0
  maxNodes := 80
  depth := 3
  maxIncomingPerNode := 8
  includeSnippets := false

/-- The call of `g`. -/
def callEdge : CodemapEdge ℕ := entry 0 1 .calls

/-- The use of `g` as a value. -/
def takeEdge : CodemapEdge ℕ := entry 0 1 .functionReference

theorem finalEdges_bothFunctions (orders : Orders ℕ) :
    bothFunctions.finalEdges orders = {callEdge, takeEdge} := by
  have hlevels := Request.hasLevels_expand bothFunctions orders
  have hseeds := Request.seeds_subset_finalSet bothFunctions orders
  ext e
  rw [Request.finalEdges, Finset.mem_filter, hlevels.edges, Finset.mem_insert,
    Finset.mem_singleton]
  constructor
  · rintro ⟨⟨k, -, n, -, m, hfound⟩, -, -⟩
    obtain ⟨usage, husage, howner, htarget, hkind, hweight, -⟩ :=
      Request.mem_steps (List.mem_toFinset.1 hfound)
    obtain ⟨from_, to_, kind, weight⟩ := e
    obtain rfl : weight = 1 := hweight
    rcases List.mem_cons.1 husage with rfl | husage
    · obtain rfl := Option.some.inj howner
      obtain rfl : 1 = to_ := htarget
      obtain rfl : EdgeKind.calls = kind := hkind
      exact .inl rfl
    · obtain rfl := List.mem_singleton.1 husage
      obtain rfl := Option.some.inj howner
      obtain rfl : 1 = to_ := htarget
      obtain rfl : EdgeKind.functionReference = kind := hkind
      exact .inr rfl
  · intro he
    have hends : e.from_ = 0 ∧ e.to_ = 1 ∧ (1, e.kind) ∈ callAndTake.outgoing 0 ∧
        entry 0 1 e.kind = e := by
      rcases he with rfl | rfl <;> decide
    obtain ⟨hfrom, hto, hmem, heq⟩ := hends
    refine ⟨⟨0, by decide, 0, Finset.mem_insert_self 0 {1}, 1, ?_⟩, ?_, ?_⟩
    · rw [Request.found, List.mem_toFinset, Request.steps, List.mem_append, List.mem_map]
      refine .inl ⟨(1, e.kind), ?_, congrArg (Prod.mk 1) heq⟩
      rw [(rankBy_perm _ _).mem_iff, Iteration.mem]
      exact hmem
    · rw [hfrom]
      exact hseeds (by decide)
    · rw [hto]
      exact hseeds (by decide)

theorem exists_order_bothFunctions {l : List (CodemapEdge ℕ)} (h : l.Nodup)
    (hmem : ∀ e, e ∈ l ↔ e ∈ ({callEdge, takeEdge} : Finset (CodemapEdge ℕ))) :
    ∃ orders, (bothFunctions.buildCodemap orders).edges = l := by
  obtain ⟨base⟩ : Nonempty (Orders ℕ) := inferInstance
  obtain ⟨it, hit⟩ := Iteration.exists_list_eq h hmem
  refine ⟨{ base with edges := it }, ?_⟩
  rw [Request.buildCodemap, finalEdges_bothFunctions]
  show rankBy callAndTake.edgeKey (it.list {callEdge, takeEdge}) = l
  rw [hit]
  have hkey : ∀ e ∈ l, callAndTake.edgeKey e = callAndTake.edgeKey callEdge := by
    intro e he
    have he := (hmem e).1 he
    rw [Finset.mem_insert, Finset.mem_singleton] at he
    rcases he with rfl | rfl <;> rfl
  refine rankBy_of_pairwise (List.pairwise_of_forall_mem_list fun e he e' he' ↦ ?_)
  rw [hkey e he, hkey e' he']

/-- The edges are sorted by the names of their ends alone, so each comes first on some run. -/
theorem bothFunctions_differ :
    ∃ orders orders', (bothFunctions.buildCodemap orders).edges = [callEdge, takeEdge] ∧
      (bothFunctions.buildCodemap orders').edges = [takeEdge, callEdge] := by
  obtain ⟨orders, h⟩ :=
    exists_order_bothFunctions (l := [callEdge, takeEdge]) (by decide) (by simp)
  obtain ⟨orders', h'⟩ :=
    exists_order_bothFunctions (l := [takeEdge, callEdge]) (by decide) (by simp [or_comm])
  exact ⟨orders, orders', h, h'⟩

theorem buildCodemap_bothFunctions :
    ((∀ orders, IsNeighborhood bothFunctions orders (bothFunctions.buildCodemap orders)) ∧
      bothFunctions.Reproducible) ↔
        bothFunctions.SharpBudget ∧ bothFunctions.DistinctNames ∧ bothFunctions.DistinctEnds :=
  buildCodemap_iff bothFunctions (Request.sharpCaps_of_length_le (by decide))

end RustCodeMcp.CodemapBuild
