import RustCodeMcp.Digraph.UnionFind
import RustCodeMcp.Order.Grouping
import RustCodeMcp.Order.Ranking
import Mathlib.Algebra.Field.Rat
import Mathlib.Algebra.Order.Ring.Unbundled.Rat
import Mathlib.Combinatorics.SimpleGraph.Connectivity.Connected
import Mathlib.Data.List.Forall2
import Mathlib.Order.Compare

/-!
# Clusters of similar items

`buildClusters` unites the two ids of every pair and makes a cluster of each tree of the union-find.
A cluster says how many nodes it has, and the least and the average score of the pairs inside it;
without a bound on its members these are the connected component of the pairs, whatever the order in
which the groups come out of their map (`buildClusters_components`).

Scores are 32-bit floats. What is said of them here holds however sums and quotients are rounded,
and with scores among them that are not numbers: the average is the quotient of the sum, in the
order of the pairs, and the least score is one that no other is below. Only the order of the
clusters depends on more. They are sorted by a comparison that is a total order unless one of their
averages or least scores is not a number (`totalOn_clusterCmp`); where it is not, `sort_by` leaves
open which order it gives, and may panic instead.

A page of clusters has so many members at most (`pageLoop_spec`).
-/

namespace RustCodeMcp.Similarity

open UnionFind Grouping Ranking

/-! ### Scores -/

/-- What is done with scores, as with 32-bit floats. They are compared as the numbers they are; one
that is not a number (`none`) compares with nothing. How operations round is left open. -/
class Score (K : Type) where
  /-- The numbers that there are: for floats, those with so many digits and the two infinities. -/
  Number : Type
  [order : LinearOrder Number]
  number : K → Option Number
  /-- What `sum` starts from. -/
  zero : K
  add : K → K → K
  div : K → K → K
  /-- `as f32` -/
  ofCount : ℕ → K

namespace Score

variable {K : Type} [Score K]

instance : LinearOrder (Number K) := order

/-- `partial_cmp`: no order between two scores of which one is not a number. -/
def partialCmp (a b : K) : Option Ordering := do
  return compare (← number a) (← number b)

/-- `a < b` -/
def lt (a b : K) : Bool :=
  partialCmp a b == some .lt

/-- The sum of some scores, in their order. -/
def sum (scores : List K) : K :=
  scores.foldl add zero

/-- The quotient of the sum by how many there are. -/
def average (scores : List K) : K :=
  div (sum scores) (ofCount scores.length)

/-- The least of some scores: the first, unless a later one is below it. -/
def minimum : List K → Option K
  | [] => none
  | score :: scores => some
    (scores.foldl (fun least score ↦ if lt score least then score else least) score)

theorem lt_eq_true {a b : K} :
    lt a b = true ↔ ∃ x y, number a = some x ∧ number b = some y ∧ x < y := by
  rw [lt, partialCmp]
  rcases number a with - | x
  · simp
  · rcases number b with - | y
    · simp
    · simp [compare_lt_iff_lt]

theorem lt_irrefl (a : K) : ¬ lt a a = true := by
  rw [lt_eq_true]
  rintro ⟨x, y, hx, hy, hlt⟩
  exact hlt.ne (Option.some.inj (hx.symm.trans hy))

theorem lt_trans {a b c : K} (hab : lt a b = true) (hbc : lt b c = true) : lt a c = true := by
  obtain ⟨x, y, hx, hy, hxy⟩ := lt_eq_true.1 hab
  obtain ⟨y', z, hy', hz, hyz⟩ := lt_eq_true.1 hbc
  obtain rfl : y = y' := Option.some.inj (hy.symm.trans hy')
  exact lt_eq_true.2 ⟨x, z, hx, hz, hxy.trans hyz⟩

/-- The loop keeps the score it started with or goes below it. -/
theorem foldl_spec (first : K) (scores : List K) :
    let least := scores.foldl (fun least score ↦ if lt score least then score else least) first
    (least = first ∨ lt least first = true) ∧ least ∈ first :: scores ∧
      ∀ score ∈ first :: scores, ¬ lt score least = true := by
  induction scores generalizing first with
  | nil =>
    refine ⟨.inl rfl, List.mem_cons_self, fun score hscore ↦ ?_⟩
    rw [List.mem_singleton.1 hscore]
    exact lt_irrefl first
  | cons next scores ih =>
    rw [List.foldl_cons]
    by_cases hlt : lt next first = true
    · rw [if_pos hlt]
      obtain ⟨hbelow, hmem, hle⟩ := ih next
      refine ⟨.inr ?_, List.mem_cons_of_mem _ hmem, List.forall_mem_cons.2 ⟨fun hfirst ↦ ?_, hle⟩⟩
      · rcases hbelow with heq | hbelow
        · rw [heq]
          exact hlt
        · exact lt_trans hbelow hlt
      · -- What is above the first is above the next one too.
        exact hle next List.mem_cons_self (lt_trans hlt hfirst)
    · rw [if_neg hlt]
      obtain ⟨hbelow, hmem, hle⟩ := ih first
      obtain ⟨hfirst, hrest⟩ := List.forall_mem_cons.1 hle
      refine ⟨hbelow, ?_, List.forall_mem_cons.2
        ⟨hfirst, List.forall_mem_cons.2 ⟨fun hnext ↦ hlt ?_, hrest⟩⟩⟩
      · rcases List.mem_cons.1 hmem with heq | hmem
        · rw [heq]
          exact List.mem_cons_self
        · exact List.mem_cons_of_mem _ (List.mem_cons_of_mem _ hmem)
      · rcases hbelow with heq | hbelow
        · rwa [heq] at hnext
        · exact lt_trans hnext hbelow

/-- **The least of some scores is one of them, and none of them is below it**, also where some are
not numbers. -/
theorem minimum_spec {scores : List K} {least : K} (h : minimum scores = some least) :
    least ∈ scores ∧ ∀ score ∈ scores, ¬ lt score least = true := by
  rcases scores with - | ⟨first, scores⟩
  · cases h
  rw [minimum, Option.some.injEq] at h
  subst h
  exact (foldl_spec first scores).2

/-- Exact numbers. -/
instance (priority := low) ofField {K : Type} [Field K] [LinearOrder K] : Score K where
  Number := K
  number := some
  zero := 0
  add := (· + ·)
  div := (· / ·)
  ofCount := Nat.cast

/-- Of exact numbers, the least score is the least. -/
theorem isLeast_of_minimum {K : Type} [Field K] [LinearOrder K] {scores : List K} {least : K}
    (h : minimum scores = some least) : IsLeast {score | score ∈ scores} least := by
  obtain ⟨hmem, hle⟩ := minimum_spec h
  refine ⟨hmem, fun score hscore ↦ not_lt.1 fun hlt ↦ hle score hscore ?_⟩
  exact lt_eq_true.2 ⟨score, least, rfl, rfl, hlt⟩

end Score

/-- A cluster: its members, and the scores of its pairs. -/
structure SimilarityCluster (Item K : Type) where
  members : List Item
  avgSimilarity : K
  minSimilarity : K
  size : ℕ
  truncated : Bool
  deriving DecidableEq

variable {N Item K : Type} [DecidableEq N]

/-! ### The clusters -/

/-- An id that is not in `seen` yet. The index that `seen` gives an id is its place. -/
def addNode (nodes : List N) (a : N) : List N :=
  if a ∈ nodes then nodes else nodes ++ [a]

/-- The ids of the pairs, in the order in which they come. -/
def nodesOf (edges : List (N × N × K)) : List N :=
  edges.foldl (fun nodes edge ↦ addNode (addNode nodes edge.1) edge.2.1) []

/-- The parents after all edges. The loop of `find` ends within the rounds that it has here. -/
def parentOf (edges : List (N × N × K)) : ℕ → ℕ :=
  unions (edges.length + 1) id
    (edges.map fun edge ↦ ((nodesOf edges).idxOf edge.1, (nodesOf edges).idxOf edge.2.1))

/-- The loop that looks for the root of each index, and moves parents as it does. -/
def groupRoots (fuel : ℕ) (indices : List ℕ) (state : List (ℕ × List ℕ) × (ℕ → ℕ)) :
    List (ℕ × List ℕ) × (ℕ → ℕ) :=
  indices.foldl
    (fun (groups, parent) i ↦
      let (root, parent) := find fuel parent i
      (push root i groups, parent))
    state

section Build

variable [Score K]

/-- The cluster of a group, if it has two members and a score. -/
def clusterOf (edges : List (N × N × K)) (nodes : List N) (maxMembers : ℕ)
    (lookup : N → Option Item) (group : List ℕ) : Option (SimilarityCluster Item K) :=
  if group.length < 2 then none
  else
    let groupScores := (edges.filter fun edge ↦
      nodes.idxOf edge.1 ∈ group ∧ nodes.idxOf edge.2.1 ∈ group).map fun edge ↦ edge.2.2
    (Score.minimum groupScores).map fun minSimilarity ↦
      { members := (group.take (min maxMembers group.length)).filterMap fun i ↦
          nodes[i]?.bind lookup
        avgSimilarity := Score.average groupScores
        minSimilarity
        size := group.length
        truncated := decide (maxMembers < group.length) }

/-- By average, size and minimum, larger ones first. -/
def clusterCmp (a b : SimilarityCluster Item K) : Ordering :=
  ((Score.partialCmp b.avgSimilarity a.avgSimilarity).getD .eq).then <|
    (compare b.size a.size).then <|
      (Score.partialCmp b.minSimilarity a.minSimilarity).getD .eq

/-- `order` is how the map of the groups is iterated, and `sortBy` how a list is sorted by a
comparison. -/
def buildClusters (order : List (ℕ × List ℕ) → List (ℕ × List ℕ))
    (sortBy : (SimilarityCluster Item K → SimilarityCluster Item K → Ordering) →
      List (SimilarityCluster Item K) → List (SimilarityCluster Item K))
    (edges : List (N × N × K)) (maxMembers : ℕ) (lookup : N → Option Item) :
    List (SimilarityCluster Item K) :=
  let nodes := nodesOf edges
  if nodes.length = 0 then []
  else
    let groups := (groupRoots (edges.length + 1) (List.range nodes.length) ([], parentOf edges)).1
    sortBy clusterCmp
      ((order groups).filterMap fun group ↦ clusterOf edges nodes maxMembers lookup group.2)

end Build

/-- The loop over the clusters from the offset on. -/
def pageLoop : ℕ → List (SimilarityCluster Item K) → List (SimilarityCluster Item K)
  | _, [] => []
  | remaining, cluster :: clusters =>
    if remaining = 0 then []
    else if remaining < cluster.members.length then
      [{ cluster with members := cluster.members.take remaining, truncated := true }]
    else cluster :: pageLoop (remaining - cluster.members.length) clusters

/-- A page of clusters, with so many members at most. -/
def pageClustersByMemberLimit (clusters : List (SimilarityCluster Item K))
    (offset memberLimit : ℕ) : List (SimilarityCluster Item K) :=
  pageLoop memberLimit (clusters.drop offset)

/-! ### What they say -/

/-- The graph of the pairs. -/
def pairGraph (edges : List (N × N × K)) : SimpleGraph N :=
  SimpleGraph.fromRel fun a b ↦ ∃ score, (a, b, score) ∈ edges

/-- The scores of the pairs inside a component. -/
def inside (edges : List (N × N × K)) (component : List N) : List K :=
  (edges.filter fun edge ↦ edge.1 ∈ component ∧ edge.2.1 ∈ component).map fun edge ↦ edge.2.2

/-- Lists that are the connected components of the pairs. -/
structure Components (edges : List (N × N × K)) (components : List (List N)) : Prop where
  nodup : components.flatten.Nodup
  covers : ∀ a, a ∈ components.flatten ↔ ∃ edge ∈ edges, a = edge.1 ∨ a = edge.2.1
  connected : ∀ component ∈ components, ∀ a ∈ component, ∀ b,
    b ∈ component ↔ (pairGraph edges).Reachable a b

/-- A cluster says of a component how many nodes it has, and of the pairs inside it the least and
the average score. -/
structure Describes [Score K] (edges : List (N × N × K)) (lookup : N → Option Item)
    (component : List N) (cluster : SimilarityCluster Item K) : Prop where
  members : cluster.members = component.filterMap lookup
  size : cluster.size = component.length
  truncated : cluster.truncated = false
  minimum : Score.minimum (inside edges component) = some cluster.minSimilarity
  least : cluster.minSimilarity ∈ inside edges component ∧
    ∀ score ∈ inside edges component, ¬ Score.lt score cluster.minSimilarity = true
  average : cluster.avgSimilarity = Score.average (inside edges component)

/-! ### Nodes and their indices -/

theorem nodesOf_spec (edges : List (N × N × K)) :
    (nodesOf edges).Nodup ∧ ∀ a, a ∈ nodesOf edges ↔ ∃ edge ∈ edges, a = edge.1 ∨ a = edge.2.1 := by
  have hadd : ∀ (nodes : List N) (a : N), nodes.Nodup →
      (addNode nodes a).Nodup ∧ ∀ b, b ∈ addNode nodes a ↔ b ∈ nodes ∨ b = a := by
    intro nodes a hnodup
    rw [addNode]
    split
    · rename_i ha
      refine ⟨hnodup, fun b ↦ ⟨.inl, ?_⟩⟩
      rintro (hb | rfl)
      · exact hb
      · exact ha
    · rename_i ha
      refine ⟨List.nodup_append.2 ⟨hnodup, List.nodup_singleton a, ?_⟩, fun b ↦ ?_⟩
      · rintro b hb c hc rfl
        exact ha (List.mem_singleton.1 hc ▸ hb)
      · rw [List.mem_append, List.mem_singleton]
  induction edges using List.reverseRecOn with
  | nil => exact ⟨List.nodup_nil, by simp [nodesOf]⟩
  | append_singleton edges edge ih =>
    obtain ⟨hnodup, hmem⟩ := ih
    rw [nodesOf, List.foldl_append]
    obtain ⟨hnodup₁, hmem₁⟩ := hadd (nodesOf edges) edge.1 hnodup
    obtain ⟨hnodup₂, hmem₂⟩ := hadd _ edge.2.1 hnodup₁
    refine ⟨hnodup₂, fun a ↦ (hmem₂ a).trans ?_⟩
    rw [hmem₁, hmem]
    simp only [List.mem_append, List.mem_singleton, or_and_right, exists_or, exists_eq_left,
      or_assoc]

theorem map_idxOf_nodesOf (edges : List (N × N × K)) :
    (nodesOf edges).map (nodesOf edges).idxOf = List.range (nodesOf edges).length := by
  refine List.ext_getElem (by simp) fun i hi _ ↦ ?_
  rw [List.getElem_map, List.getElem_range, (nodesOf_spec edges).1.idxOf_getElem]

/-- A group of indices is the group of the nodes at them. -/
theorem filter_range (edges : List (N × N × K)) (p : ℕ → Bool) :
    (List.range (nodesOf edges).length).filter p =
      ((nodesOf edges).filter fun a ↦ p ((nodesOf edges).idxOf a)).map (nodesOf edges).idxOf := by
  rw [← map_idxOf_nodesOf, List.filter_map]
  rfl

theorem idxOf_mem_map {edges : List (N × N × K)} {component : List N}
    (hsub : component ⊆ nodesOf edges) {a : N} :
    (nodesOf edges).idxOf a ∈ component.map (nodesOf edges).idxOf ↔ a ∈ component := by
  rw [List.mem_map]
  constructor
  · rintro ⟨b, hb, heq⟩
    exact (List.idxOf_inj (hsub hb)).1 heq ▸ hb
  · intro h
    exact ⟨a, h, rfl⟩

/-! ### Trees and components -/

theorem ranked_parentOf (edges : List (N × N × K)) :
    ∃ rank, Ranked (parentOf edges) rank edges.length := by
  obtain ⟨rank, h⟩ := exists_ranked_unions ranked_id
    (by rw [List.length_map]; omega : 0 + (edges.map fun edge ↦
      ((nodesOf edges).idxOf edge.1, (nodesOf edges).idxOf edge.2.1)).length ≤ edges.length + 1)
  rw [List.length_map, Nat.zero_add] at h
  exact ⟨rank, h⟩

/-- **The nodes of one tree are the nodes that pairs connect.** -/
theorem same_parentOf {edges : List (N × N × K)} (hdistinct : ∀ edge ∈ edges, edge.1 ≠ edge.2.1)
    {a b : N} (ha : a ∈ nodesOf edges) :
    (b ∈ nodesOf edges ∧
        Same (parentOf edges) ((nodesOf edges).idxOf a) ((nodesOf edges).idxOf b)) ↔
      (pairGraph edges).Reachable a b := by
  have hmem := (nodesOf_spec edges).2
  have hlength : 0 + (edges.map fun edge ↦
      ((nodesOf edges).idxOf edge.1, (nodesOf edges).idxOf edge.2.1)).length ≤
      edges.length + 1 := by
    rw [List.length_map]
    omega
  constructor
  · rintro ⟨hb, hsame⟩
    have hcomponent := eq_of_same_unions (@ranked_id ℕ) hlength
      (f := fun i ↦ (nodesOf edges)[i]?.map (pairGraph edges).connectedComponentMk)
      (fun h ↦ by rw [same_id.1 h]) ?_ hsame
    · simp only [List.getElem?_idxOf ha, List.getElem?_idxOf hb, Option.map_some,
        Option.some.injEq] at hcomponent
      exact SimpleGraph.ConnectedComponent.exact hcomponent
    · intro p hp
      obtain ⟨edge, hedge, rfl⟩ := List.mem_map.1 hp
      simp only [List.getElem?_idxOf ((hmem _).2 ⟨edge, hedge, .inl rfl⟩),
        List.getElem?_idxOf ((hmem _).2 ⟨edge, hedge, .inr rfl⟩), Option.map_some,
        Option.some.injEq]
      refine SimpleGraph.ConnectedComponent.sound (SimpleGraph.Adj.reachable ?_)
      exact (SimpleGraph.fromRel_adj _ _ _).2 ⟨hdistinct edge hedge, .inl ⟨_, hedge⟩⟩
  · intro h
    rw [SimpleGraph.reachable_iff_reflTransGen] at h
    induction h with
    | refl =>
      obtain ⟨rank, hranked⟩ := ranked_parentOf edges
      obtain ⟨r, hr⟩ := hranked.exists_rootOf ((nodesOf edges).idxOf a)
      exact ⟨ha, r, hr, hr⟩
    | @tail b c _ hadj ih =>
      have hsame : ∀ {x y score}, (x, y, score) ∈ edges →
          Same (parentOf edges) ((nodesOf edges).idxOf x) ((nodesOf edges).idxOf y) :=
        fun hedge ↦ same_unions ranked_id hlength (List.mem_map_of_mem hedge)
      rcases ((SimpleGraph.fromRel_adj _ _ _).1 hadj).2 with ⟨score, hedge⟩ | ⟨score, hedge⟩
      · exact ⟨(hmem c).2 ⟨_, hedge, .inr rfl⟩, ih.2.trans (hsame hedge)⟩
      · exact ⟨(hmem c).2 ⟨_, hedge, .inl rfl⟩, ih.2.trans (hsame hedge).symm⟩

/-! ### Groups -/

/-- The root of an index once all pairs are united. -/
def rootAt (edges : List (N × N × K)) (i : ℕ) : ℕ :=
  (find (edges.length + 1) (parentOf edges) i).1

theorem rootOf_rootAt (edges : List (N × N × K)) (i : ℕ) :
    RootOf (parentOf edges) i (rootAt edges i) := by
  obtain ⟨rank, h⟩ := ranked_parentOf edges
  exact (find_spec h (Nat.lt_succ_of_le (h.le i))).1

theorem rootAt_eq_iff {edges : List (N × N × K)} {i j : ℕ} :
    rootAt edges i = rootAt edges j ↔ Same (parentOf edges) i j :=
  ⟨fun h ↦ ⟨_, rootOf_rootAt edges i, h ▸ rootOf_rootAt edges j⟩,
    fun h ↦ h.eq (rootOf_rootAt edges i) (rootOf_rootAt edges j)⟩

/-- Halving on the way does not change what the later indices get. -/
theorem groupRoots_eq (edges : List (N × N × K)) (indices : List ℕ) :
    (groupRoots (edges.length + 1) indices ([], parentOf edges)).1 =
      groupBy (rootAt edges) indices := by
  have hloop : ∀ (indices : List ℕ) (groups : List (ℕ × List ℕ)) (parent : ℕ → ℕ)
      (rank : ℕ → ℕ), Ranked parent rank edges.length →
      (∀ x r, RootOf parent x r ↔ RootOf (parentOf edges) x r) →
      (groupRoots (edges.length + 1) indices (groups, parent)).1 =
        indices.foldl (fun groups i ↦ push (rootAt edges i) i groups) groups := by
    intro indices
    induction indices with
    | nil => exact fun _ _ _ _ _ ↦ rfl
    | cons i indices ih =>
      intro groups parent rank hranked hroots
      obtain ⟨hroot, hranked', hsame⟩ :=
        find_spec hranked (Nat.lt_succ_of_le (hranked.le i) : rank i < edges.length + 1)
      have hroot' : (find (edges.length + 1) parent i).1 = rootAt edges i :=
        ((hroots _ _).1 hroot).eq (rootOf_rootAt edges i)
      rw [List.foldl_cons, ← hroot']
      exact ih _ _ rank hranked' fun x r ↦ (hsame x r).trans (hroots x r)
  obtain ⟨rank, hranked⟩ := ranked_parentOf edges
  exact hloop indices [] (parentOf edges) rank hranked fun _ _ ↦ Iff.rfl

/-- The nodes of a tree. -/
def treeOf (edges : List (N × N × K)) (root : ℕ) : List N :=
  (nodesOf edges).filter fun a ↦ rootAt edges ((nodesOf edges).idxOf a) = root

/-- **The trees are the components**, in whatever order. -/
theorem components_treeOf {edges : List (N × N × K)}
    (hdistinct : ∀ edge ∈ edges, edge.1 ≠ edge.2.1) {roots : List ℕ} (hnodup : roots.Nodup)
    (hroots : ∀ root, root ∈ roots ↔
      ∃ a ∈ nodesOf edges, rootAt edges ((nodesOf edges).idxOf a) = root) :
    Components edges (roots.map (treeOf edges)) where
  nodup := by
    rw [List.nodup_flatten, List.pairwise_map]
    refine ⟨fun l hl ↦ ?_, hnodup.imp fun hne a ha hb ↦ hne ?_⟩
    · obtain ⟨root, -, rfl⟩ := List.mem_map.1 hl
      exact (nodesOf_spec edges).1.filter _
    · exact (of_decide_eq_true (List.mem_filter.1 ha).2).symm.trans
        (of_decide_eq_true (List.mem_filter.1 hb).2)
  covers a := by
    rw [← (nodesOf_spec edges).2, List.mem_flatten]
    constructor
    · rintro ⟨l, hl, ha⟩
      obtain ⟨root, -, rfl⟩ := List.mem_map.1 hl
      exact List.mem_of_mem_filter ha
    · intro ha
      exact ⟨_, List.mem_map_of_mem ((hroots _).2 ⟨a, ha, rfl⟩),
        List.mem_filter.2 ⟨ha, decide_eq_true rfl⟩⟩
  connected l hl a ha b := by
    obtain ⟨root, -, rfl⟩ := List.mem_map.1 hl
    obtain ⟨ha, hroot⟩ := List.mem_filter.1 ha
    rw [treeOf, List.mem_filter, ← same_parentOf hdistinct ha, ← rootAt_eq_iff,
      of_decide_eq_true hroot, decide_eq_true_iff, eq_comm (a := root)]

omit [DecidableEq N] in
theorem Components.of_perm {edges : List (N × N × K)} {components components' : List (List N)}
    (h : Components edges components) (hperm : components'.Perm components) :
    Components edges components' where
  nodup := hperm.flatten.nodup_iff.2 h.nodup
  covers a := hperm.flatten.mem_iff.trans (h.covers a)
  connected component hmem := h.connected component (hperm.mem_iff.1 hmem)

section Exact

variable [Score K]

/-- **The cluster of a tree** counts its nodes, and the scores inside it. -/
theorem clusterOf_treeOf {edges : List (N × N × K)}
    (hdistinct : ∀ edge ∈ edges, edge.1 ≠ edge.2.1) {maxMembers : ℕ}
    (hmax : (nodesOf edges).length ≤ maxMembers) (lookup : N → Option Item) {a : N}
    (ha : a ∈ nodesOf edges) :
    ∃ cluster, clusterOf edges (nodesOf edges) maxMembers lookup
        ((treeOf edges (rootAt edges ((nodesOf edges).idxOf a))).map (nodesOf edges).idxOf) =
          some cluster ∧
      Describes edges lookup (treeOf edges (rootAt edges ((nodesOf edges).idxOf a))) cluster := by
  set tree := treeOf edges (rootAt edges ((nodesOf edges).idxOf a)) with htree
  have hsub : tree ⊆ nodesOf edges := fun _ hb ↦ List.mem_of_mem_filter hb
  -- The tree is the component of `a`, so it holds both ends of a pair at `a`.
  have hmemTree : ∀ {b}, b ∈ tree ↔ (pairGraph edges).Reachable a b := by
    intro b
    rw [htree, treeOf, List.mem_filter, ← same_parentOf hdistinct ha, ← rootAt_eq_iff,
      decide_eq_true_iff, eq_comm]
  obtain ⟨edge, hedge, hends⟩ := ((nodesOf_spec edges).2 a).1 ha
  have hne := hdistinct edge hedge
  have hadj : (pairGraph edges).Adj edge.1 edge.2.1 :=
    (SimpleGraph.fromRel_adj _ _ _).2 ⟨hne, .inl ⟨_, hedge⟩⟩
  have hboth : edge.1 ∈ tree ∧ edge.2.1 ∈ tree := by
    rw [hmemTree, hmemTree]
    rcases hends with rfl | rfl
    · exact ⟨.refl _, hadj.reachable⟩
    · exact ⟨hadj.symm.reachable, .refl _⟩
  -- Two ends make it two nodes at least, and it is not passed over as too small.
  have hlength : ¬ (tree.map (nodesOf edges).idxOf).length < 2 := by
    rw [List.length_map]
    intro hlt
    rcases htree' : tree with - | ⟨b, - | ⟨c, rest⟩⟩
    · exact List.not_mem_nil (htree' ▸ hboth.1)
    · rw [htree', List.mem_singleton, List.mem_singleton] at hboth
      exact hne (hboth.1.trans hboth.2.symm)
    · rw [htree', List.length_cons, List.length_cons] at hlt
      omega
  have hle : tree.length ≤ maxMembers :=
    (List.length_filter_le _ _).trans hmax
  -- What the code selects by the nodes' numbers is what is selected by the nodes.
  have hinside : (edges.filter fun edge ↦
      (nodesOf edges).idxOf edge.1 ∈ tree.map (nodesOf edges).idxOf ∧
        (nodesOf edges).idxOf edge.2.1 ∈ tree.map (nodesOf edges).idxOf).map
      (fun edge ↦ edge.2.2) = inside edges tree := by
    simp only [idxOf_mem_map hsub]
    rfl
  -- The cut at `maxMembers` takes nothing away.
  have hmembers : ((tree.map (nodesOf edges).idxOf).take
      (min maxMembers (tree.map (nodesOf edges).idxOf).length)).filterMap
        (fun i ↦ (nodesOf edges)[i]?.bind lookup) = tree.filterMap lookup := by
    rw [List.take_of_length_le (by rw [List.length_map]; omega), List.filterMap_map]
    refine List.filterMap_congr fun b hb ↦ ?_
    rw [Function.comp_apply, List.getElem?_idxOf (hsub hb), Option.bind_some]
  rw [clusterOf, if_neg hlength, hinside, hmembers]
  have hscore : edge.2.2 ∈ inside edges tree :=
    List.mem_map_of_mem (List.mem_filter.2 ⟨hedge, decide_eq_true hboth⟩)
  rcases hscores : inside edges tree with - | ⟨score, scores⟩
  · exact absurd (hscores ▸ hscore) List.not_mem_nil
  · refine ⟨_, rfl, rfl, List.length_map _, ?_, ?_, ?_, ?_⟩
    · rw [List.length_map]
      exact decide_eq_false (Nat.not_lt.2 hle)
    · rw [hscores]
      rfl
    · rw [hscores]
      exact Score.minimum_spec rfl
    · rw [hscores]

omit [DecidableEq N] in
theorem forall₂_filterMap {α β γ : Type} {R : β → γ → Prop} {f : α → β} {g : α → Option γ}
    {l : List α} (h : ∀ x ∈ l, ∃ c, g x = some c ∧ R (f x) c) :
    List.Forall₂ R (l.map f) (l.filterMap g) := by
  induction l with
  | nil => exact .nil
  | cons x l ih =>
    obtain ⟨c, hg, hR⟩ := h x List.mem_cons_self
    rw [List.map_cons, List.filterMap_cons, hg]
    exact .cons hR (ih fun y hy ↦ h y (List.mem_cons_of_mem _ hy))

/-- **The clusters are the connected components of the pairs.** -/
theorem buildClusters_components {order : List (ℕ × List ℕ) → List (ℕ × List ℕ)}
    (horder : ∀ groups, (order groups).Perm groups)
    {sortBy : (SimilarityCluster Item K → SimilarityCluster Item K → Ordering) →
      List (SimilarityCluster Item K) → List (SimilarityCluster Item K)}
    (hsort : ∀ cmp clusters, (sortBy cmp clusters).Perm clusters) {edges : List (N × N × K)}
    (hdistinct : ∀ edge ∈ edges, edge.1 ≠ edge.2.1) {maxMembers : ℕ}
    (hmax : (nodesOf edges).length ≤ maxMembers) (lookup : N → Option Item) :
    ∃ components, Components edges components ∧
      List.Forall₂ (Describes edges lookup) components
        (buildClusters order sortBy edges maxMembers lookup) := by
  set groups := groupBy (rootAt edges) (List.range (nodesOf edges).length) with hgroups
  have hgrouped : Groups (rootAt edges) (List.range (nodesOf edges).length) groups :=
    groups_groupBy _ _
  -- A key is the root of a node, and its group are the indices of the tree.
  have hroots : ∀ root, root ∈ (order groups).map Prod.fst ↔
      ∃ a ∈ nodesOf edges, rootAt edges ((nodesOf edges).idxOf a) = root := by
    intro root
    rw [((horder groups).map Prod.fst).mem_iff, hgrouped.keys, ← map_idxOf_nodesOf, List.map_map,
      List.mem_map]
    rfl
  have hgroup : ∀ group ∈ order groups,
      group.2 = (treeOf edges group.1).map (nodesOf edges).idxOf := by
    intro group hmem
    rw [hgrouped.values group ((horder groups).mem_iff.1 hmem), filter_range]
    rfl
  have hclusters : List.Forall₂ (Describes edges lookup)
      ((order groups).map fun group ↦ treeOf edges group.1)
      ((order groups).filterMap fun group ↦
        clusterOf edges (nodesOf edges) maxMembers lookup group.2) := by
    refine forall₂_filterMap fun group hmem ↦ ?_
    obtain ⟨a, ha, hroot⟩ := (hroots group.1).1 (List.mem_map_of_mem hmem)
    rw [hgroup group hmem, ← hroot]
    exact clusterOf_treeOf hdistinct hmax lookup ha
  have hcomponents := components_treeOf hdistinct
    (((horder groups).map Prod.fst).nodup_iff.2 hgrouped.nodup) hroots
  rw [List.map_map] at hcomponents
  have hbuild : (buildClusters order sortBy edges maxMembers lookup).Perm
      ((order groups).filterMap fun group ↦
        clusterOf edges (nodesOf edges) maxMembers lookup group.2) := by
    rw [buildClusters, groupRoots_eq]
    split
    · rename_i hempty
      have hnone : order groups = [] := by
        rw [hgroups, hempty]
        exact List.perm_nil.1 (horder [])
      rw [hnone]
      exact .nil
    · exact hsort _ _
  obtain ⟨components, hdescribes, hperm⟩ := List.perm_comp_forall₂ hbuild hclusters.flip
  exact ⟨components, hcomponents.of_perm hperm, hdescribes.flip⟩

/-- **The comparison of clusters is a total order** on those whose averages and least scores are
numbers. -/
theorem totalOn_clusterCmp {clusters : List (SimilarityCluster Item K)}
    (h : ∀ cluster ∈ clusters, (Score.number cluster.avgSimilarity).isSome = true ∧
      (Score.number cluster.minSimilarity).isSome = true) : TotalOn clusterCmp clusters := by
  rcases clusters with - | ⟨first, clusters⟩
  · exact ⟨nofun, nofun⟩
  obtain ⟨default, -⟩ := Option.isSome_iff_exists.1 (h first List.mem_cons_self).1
  -- What is compared are averages, sizes and least scores, one after another.
  have hlex : Std.TransCmp fun p q : Score.Number K × ℕ × Score.Number K ↦
      compareLex (compareOn Prod.fst) (compareLex (compareOn fun p ↦ p.2.1)
        (compareOn fun p : Score.Number K × ℕ × Score.Number K ↦ p.2.2)) q p := inferInstance
  refine @TotalOn.of_key _ _ _ _ _ hlex
    (fun cluster ↦ ((Score.number cluster.avgSimilarity).getD default, cluster.size,
      (Score.number cluster.minSimilarity).getD default)) fun a ha b hb ↦ ?_
  obtain ⟨⟨x, hx⟩, ⟨y, hy⟩⟩ := (h a ha).imp Option.isSome_iff_exists.1 Option.isSome_iff_exists.1
  obtain ⟨⟨x', hx'⟩, ⟨y', hy'⟩⟩ :=
    (h b hb).imp Option.isSome_iff_exists.1 Option.isSome_iff_exists.1
  simp only [clusterCmp, Score.partialCmp, hx, hy, hx', hy', compareLex, compareOn]
  rfl

end Exact

/-! ### Pages -/

/-- How many members some clusters have. -/
def memberCount (clusters : List (SimilarityCluster Item K)) : ℕ :=
  (clusters.map fun cluster ↦ cluster.members.length).sum

/-- **A page is a prefix**, of which only the last cluster can be cut. -/
theorem pageLoop_spec (remaining : ℕ) (clusters : List (SimilarityCluster Item K)) :
    memberCount (pageLoop remaining clusters) ≤ remaining ∧
      ∃ whole rest, clusters = whole ++ rest ∧
        (pageLoop remaining clusters = whole ∧ (rest = [] ∨ memberCount whole = remaining) ∨
          ∃ cluster rest', rest = cluster :: rest' ∧ memberCount whole < remaining ∧
            remaining < memberCount whole + cluster.members.length ∧
            pageLoop remaining clusters = whole ++
              [{ cluster with
                members := cluster.members.take (remaining - memberCount whole)
                truncated := true }]) := by
  induction clusters generalizing remaining with
  | nil => exact ⟨Nat.zero_le _, [], [], rfl, .inl ⟨rfl, .inl rfl⟩⟩
  | cons cluster clusters ih =>
    rw [pageLoop]
    by_cases hzero : remaining = 0
    · rw [if_pos hzero]
      exact ⟨Nat.zero_le _, [], _, rfl, .inl ⟨rfl, .inr hzero.symm⟩⟩
    rw [if_neg hzero]
    by_cases hcut : remaining < cluster.members.length
    · rw [if_pos hcut]
      refine ⟨?_, [], _, rfl, .inr ⟨cluster, clusters, rfl, Nat.pos_of_ne_zero hzero, ?_, rfl⟩⟩
      · simp [memberCount]
      · simpa [memberCount] using hcut
    rw [if_neg hcut]
    obtain ⟨hcount, whole, rest, hwhole, hpage⟩ := ih (remaining - cluster.members.length)
    have hcons : ∀ l, memberCount (cluster :: l) = cluster.members.length + memberCount l :=
      fun _ ↦ List.sum_cons
    refine ⟨by rw [hcons]; omega, cluster :: whole, rest, by rw [hwhole]; rfl, ?_⟩
    rcases hpage with ⟨hpage, hend⟩ | ⟨next, rest', hrest, hlt, hlt', hpage⟩
    · refine .inl ⟨by rw [hpage], hend.imp_right fun h ↦ ?_⟩
      rw [hcons]
      omega
    · refine .inr ⟨next, rest', hrest, ?_, ?_, ?_⟩
      · rw [hcons]
        omega
      · rw [hcons]
        omega
      · rw [hpage, hcons, Nat.sub_sub, List.cons_append]

/-! ### The two together -/

/-- **Clusters are the connected components of the pairs**, each with its size, least and average
score; they can be compared with one another unless an average or a least score is not a number; and
their pages are prefixes. -/
theorem clusters_exact [Score K] {order : List (ℕ × List ℕ) → List (ℕ × List ℕ)}
    (horder : ∀ groups, (order groups).Perm groups)
    {sortBy : (SimilarityCluster Item K → SimilarityCluster Item K → Ordering) →
      List (SimilarityCluster Item K) → List (SimilarityCluster Item K)}
    (hsort : ∀ cmp clusters, (sortBy cmp clusters).Perm clusters) {edges : List (N × N × K)}
    (hdistinct : ∀ edge ∈ edges, edge.1 ≠ edge.2.1) {maxMembers : ℕ}
    (hmax : (nodesOf edges).length ≤ maxMembers) (lookup : N → Option Item) :
    (∃ components, Components edges components ∧
        List.Forall₂ (Describes edges lookup) components
          (buildClusters order sortBy edges maxMembers lookup)) ∧
      (∀ clusters : List (SimilarityCluster Item K),
        (∀ cluster ∈ clusters, (Score.number cluster.avgSimilarity).isSome = true ∧
          (Score.number cluster.minSimilarity).isSome = true) → TotalOn clusterCmp clusters) ∧
      ∀ (clusters : List (SimilarityCluster Item K)) (offset memberLimit : ℕ),
        memberCount (pageClustersByMemberLimit clusters offset memberLimit) ≤ memberLimit ∧
          ∃ whole rest, clusters.drop offset = whole ++ rest ∧
            (pageClustersByMemberLimit clusters offset memberLimit = whole ∧
                (rest = [] ∨ memberCount whole = memberLimit) ∨
              ∃ cluster rest', rest = cluster :: rest' ∧ memberCount whole < memberLimit ∧
                memberLimit < memberCount whole + cluster.members.length ∧
                pageClustersByMemberLimit clusters offset memberLimit = whole ++
                  [{ cluster with
                    members := cluster.members.take (memberLimit - memberCount whole)
                    truncated := true }]) :=
  ⟨buildClusters_components horder hsort hdistinct hmax lookup, fun _ ↦ totalOn_clusterCmp,
    fun clusters offset memberLimit ↦ pageLoop_spec memberLimit (clusters.drop offset)⟩

/-- Numbers, and a value that is none. -/
instance scoreOption : Score (Option ℚ) where
  Number := ℚ
  number := id
  zero := some 0
  add a b := do return (← a) + (← b)
  div a b := do return (← a) / (← b)
  ofCount n := some n

/-- Two components, one of them a chain, the other with a score that is not a number. -/
def chainPairs : List (ℕ × ℕ × Option ℚ) :=
  [(1, 2, some 1), (4, 5, none), (2, 3, some (1 / 2)), (5, 4, some 1)]

theorem clusters_exact_chainPairs :
    (∃ components, Components chainPairs components ∧
        List.Forall₂ (Describes chainPairs some) components
          (buildClusters List.reverse sortBy chainPairs 5 some)) ∧
      (∀ clusters : List (SimilarityCluster ℕ (Option ℚ)),
        (∀ cluster ∈ clusters, (Score.number cluster.avgSimilarity).isSome = true ∧
          (Score.number cluster.minSimilarity).isSome = true) → TotalOn clusterCmp clusters) ∧
      ∀ (clusters : List (SimilarityCluster ℕ (Option ℚ))) (offset memberLimit : ℕ),
        memberCount (pageClustersByMemberLimit clusters offset memberLimit) ≤ memberLimit ∧
          ∃ whole rest, clusters.drop offset = whole ++ rest ∧
            (pageClustersByMemberLimit clusters offset memberLimit = whole ∧
                (rest = [] ∨ memberCount whole = memberLimit) ∨
              ∃ cluster rest', rest = cluster :: rest' ∧ memberCount whole < memberLimit ∧
                memberLimit < memberCount whole + cluster.members.length ∧
                pageClustersByMemberLimit clusters offset memberLimit = whole ++
                  [{ cluster with
                    members := cluster.members.take (memberLimit - memberCount whole)
                    truncated := true }]) :=
  clusters_exact List.reverse_perm sortBy_perm (by decide) (by decide) some

end RustCodeMcp.Similarity
