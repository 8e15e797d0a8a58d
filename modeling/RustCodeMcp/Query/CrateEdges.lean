import RustCodeMcp.Graph.Labels
import RustCodeMcp.Order.Grouping
import RustCodeMcp.Order.Ranking
import Mathlib.Data.Char
import Mathlib.Data.List.Dedup
import Mathlib.Data.List.Lex
import Mathlib.Data.Prod.Lex

/-!
# Edges between crates

Bindings and usages that cross from one crate into another are counted in hash maps, and the maps
are merged into a row for each target of each edge. No reference is lost on the way, in whatever
order the maps are iterated (`conserved_crateEdges`).

The report is made in three stages. Bindings and usages are counted by reference (`importAcc`,
`usageAcc`); the counts are added up by edge, symbol and kind of binding (`perEdge`); and the
entries of one target are collapsed to a row. **Only the last one chooses**: the row keeps one kind
of binding, the first that comes, and the counts of all of them.

The results follow the stages:

* `perEdge_perm`: the edges are those that a reference crosses, each with its counts;
* `byTarget_perm`: the symbols of an edge have all that refers to them;
* `conserved_crateEdges`: no reference is lost or counted twice.
-/

namespace RustCodeMcp.CrateEdges

open Grouping Ranking
open Navigation

/-- A snapshot with its usages, in the byte order of their ids. -/
structure OpenedSnapshot (N : Type) extends Navigation.OpenedSnapshot N where
  /-- `usages_by_id` -/
  usages : List (Ownership.Usage N)

/-- What crosses an edge to one target. -/
structure EdgeSymbol where
  targetQualified : Name
  targetKind : String
  bindingKind : Option String
  importCount : ℕ
  usageCount : ℕ
  deriving DecidableEq

/-- A consumer crate, a producer crate, and what crosses between them. -/
structure CrateEdge where
  consumerCrate : Name
  producerCrate : Name
  uniqueSymbols : ℕ
  totalRefsViaImports : ℕ
  totalRefsViaUsages : ℕ
  symbols : List EdgeSymbol
  deriving DecidableEq

/-- A consumer crate, a producer crate and a target in it. -/
abbrev Reference (N : Type) := N × N × N

/-- The counts of the symbols of one edge, before the rows of one target are collapsed. -/
abbrev PerSymbol (N : Type) := List ((N × Option String) × ℕ × ℕ)

/-- In which order the hash maps of one call are iterated. -/
structure Orders (N : Type) where
  imports : List ((Reference N × BindingKind) × ℕ) → List ((Reference N × BindingKind) × ℕ)
  usages : List (Reference N × ℕ) → List (Reference N × ℕ)
  edges : List ((N × N) × PerSymbol N) → List ((N × N) × PerSymbol N)
  symbols : N × N → PerSymbol N → PerSymbol N
  imports_perm : ∀ l, (imports l).Perm l
  usages_perm : ∀ l, (usages l).Perm l
  edges_perm : ∀ l, (edges l).Perm l
  symbols_perm : ∀ edge l, (symbols edge l).Perm l

namespace OpenedSnapshot

variable {N : Type} [LinearOrder N] (snap : OpenedSnapshot N)

/-! ### The report -/

/-- The label of a Cargo target: its name where that is unique. -/
def targetLabel (node : Node N) : Name :=
  if 1 < snap.nodes.countP fun other ↦
      other.kind = .crate ∧ other.qualifiedName = node.qualifiedName then
    node.qualifiedName ++ '[' :: node.crateTargetKind.getD "unknown".toList ++
      ']' :: '@' :: node.file.getD "unknown".toList
  else node.qualifiedName

/-- The label of a crate that has one. -/
def targetLabels (id : N) : Option Name :=
  ((snap.get id).filter fun node ↦ node.kind = .crate).map snap.targetLabel

/-- The crate of a node, which is its own crate. -/
def nodeToCrate (id : N) : Option N :=
  (snap.get id).bind Node.crateId

/-- The qualified name of a node. -/
def nodeQual (id : N) : Name :=
  ((snap.get id).map Node.qualifiedName).getD []

/-- The kind of a node, as it is printed. -/
def nodeKind (id : N) : String :=
  ((snap.get id).map fun node ↦ nodeKindLabel node itemKindShortLabel).getD ""

/-- What a reference crosses, if it crosses anything. -/
def crossing (consumer target : N) : Option (Reference N) := do
  let consumerCrate ← snap.nodeToCrate consumer
  let producerCrate ← snap.nodeToCrate target
  if consumerCrate = producerCrate then none else some (consumerCrate, producerCrate, target)

/-- The reference of a binding that is no declaration. -/
def importKey (binding : Binding N) : Option (Reference N × BindingKind) :=
  if binding.kind = .declared then none
  else (snap.crossing binding.fromModule binding.target).map fun ref ↦ (ref, binding.kind)

/-- The reference of a usage. -/
def usageKey (usage : Ownership.Usage N) : Option (Reference N) :=
  snap.crossing usage.consumerModule usage.target

/-- How often each reference is imported, by kind. -/
def importAcc : List ((Reference N × BindingKind) × ℕ) :=
  accumulate id (fun _ ↦ 0) (fun _ count ↦ count + 1) (snap.bindings.filterMap snap.importKey)

/-- How often each reference is used. -/
def usageAcc : List (Reference N × ℕ) :=
  accumulate id (fun _ ↦ 0) (fun _ count ↦ count + 1) (snap.usages.filterMap snap.usageKey)

end OpenedSnapshot

/-- What is added to a symbol of an edge. -/
abbrev Addition (N : Type) := (N × N) × (N × Option String) × ℕ × ℕ

section Model

variable {N : Type} [LinearOrder N] (orders : Orders N)

/-- What the count of an import adds. -/
def importAddition : (Reference N × BindingKind) × ℕ → Addition N
  | (((c, p, t), kind), n) => ((c, p), (t, some (bindingKindLabel kind)), n, 0)

/-- What the count of a usage adds. -/
def usageAddition : Reference N × ℕ → Addition N
  | ((c, p, t), n) => ((c, p), (t, none), 0, n)

/-- Add it to the counts of an edge. -/
def addTo (addition : Addition N) : PerSymbol N → PerSymbol N :=
  upsert addition.2.1 (0, 0) fun counts ↦
    (counts.1 + addition.2.2.1, counts.2 + addition.2.2.2)

/-- The counts of all edges. -/
def perEdge (additions : List (Addition N)) : List ((N × N) × PerSymbol N) :=
  accumulate Prod.fst (fun _ ↦ []) addTo additions

/-- One entry of a target more. -/
def EdgeSymbol.collapse (entry : (N × Option String) × ℕ × ℕ) (symbol : EdgeSymbol) :
    EdgeSymbol where
  targetQualified := symbol.targetQualified
  targetKind := symbol.targetKind
  importCount := symbol.importCount + entry.2.1
  usageCount := symbol.usageCount + entry.2.2
  bindingKind :=
    if entry.1.2.isSome && symbol.bindingKind.isNone then entry.1.2 else symbol.bindingKind

/-- A map that is iterated by the order of its keys. -/
def intoValues (byTarget : List (N × EdgeSymbol)) : List EdgeSymbol :=
  (rankBy (fun entry ↦ OrderDual.toDual entry.1) byTarget).map Prod.snd

/-- More references come first, then earlier names. -/
def EdgeSymbol.rank (symbol : EdgeSymbol) : ℕ ×ₗ Nameᵒᵈ :=
  toLex (symbol.importCount + symbol.usageCount, OrderDual.toDual symbol.targetQualified)

/-- By consumer, and then by producer. -/
def CrateEdge.rank (edge : CrateEdge) : (Name ×ₗ Name)ᵒᵈ :=
  OrderDual.toDual (toLex (edge.consumerCrate, edge.producerCrate))

namespace OpenedSnapshot

variable (snap : OpenedSnapshot N)

/-- A target without references. -/
def newSymbol (target : N) : EdgeSymbol where
  targetQualified := snap.nodeQual target
  targetKind := snap.nodeKind target
  bindingKind := none
  importCount := 0
  usageCount := 0

/-- The entries of an edge, collapsed by target. -/
def byTarget (perSymbol : PerSymbol N) : List (N × EdgeSymbol) :=
  accumulate (fun entry ↦ entry.1.1) snap.newSymbol EdgeSymbol.collapse perSymbol

/-- The row of an edge, whose symbols are sorted. -/
def edgeOf (edge : N × N) (byTarget : List (N × EdgeSymbol)) : CrateEdge :=
  let symbols := rankBy EdgeSymbol.rank (intoValues byTarget)
  { consumerCrate := (snap.targetLabels edge.1).getD []
    producerCrate := (snap.targetLabels edge.2).getD []
    uniqueSymbols := symbols.length
    totalRefsViaImports := (symbols.map EdgeSymbol.importCount).sum
    totalRefsViaUsages := (symbols.map EdgeSymbol.usageCount).sum
    symbols }

/-- All that is added, imports first. -/
def additions : List (Addition N) :=
  (orders.imports snap.importAcc).map importAddition ++
    (orders.usages snap.usageAcc).map usageAddition

/-- The report. -/
def crateEdges : List CrateEdge :=
  rankBy CrateEdge.rank ((orders.edges (perEdge (snap.additions orders))).map fun entry ↦
    snap.edgeOf entry.1 (snap.byTarget (orders.symbols entry.1 entry.2)))

end OpenedSnapshot

end Model

/-! ### What the report is about -/

namespace OpenedSnapshot

variable {N : Type} [LinearOrder N] (snap : OpenedSnapshot N)

/-- The bindings that cross into another crate and are no declarations. -/
def imports : List (Reference N × BindingKind) :=
  snap.bindings.filterMap snap.importKey

/-- What is imported or used across crates. -/
def references : List (Reference N) :=
  (snap.imports.map Prod.fst ++ snap.usages.filterMap snap.usageKey).dedup

/-- How often a reference is imported. -/
def importCount (ref : Reference N) : ℕ :=
  snap.bindings.countP fun binding ↦
    binding.kind ≠ .declared ∧ snap.crossing binding.fromModule binding.target = some ref

/-- How often it is used. -/
def usageCount (ref : Reference N) : ℕ :=
  snap.usages.countP fun usage ↦ snap.crossing usage.consumerModule usage.target = some ref

/-- The pairs of crates that a reference crosses. -/
def crossed : List (N × N) :=
  (snap.references.map fun ref ↦ (ref.1, ref.2.1)).dedup

/-- The targets of an edge. -/
def targetsOf (edge : N × N) : List N :=
  (snap.references.filter fun ref ↦ (ref.1, ref.2.1) = edge).map fun ref ↦ ref.2.2

/-- The symbol of a reference, with a kind of binding. -/
def symbolOf (ref : Reference N) (bindingKind : Option String) : EdgeSymbol where
  targetQualified := snap.nodeQual ref.2.2
  targetKind := snap.nodeKind ref.2.2
  bindingKind := bindingKind
  importCount := snap.importCount ref
  usageCount := snap.usageCount ref

theorem nodup_references : snap.references.Nodup :=
  List.nodup_dedup _

theorem mem_references {ref : Reference N} : ref ∈ snap.references ↔
    (∃ kind, (ref, kind) ∈ snap.imports) ∨ ref ∈ snap.usages.filterMap snap.usageKey := by
  rw [references, List.mem_dedup, List.mem_append, List.mem_map]
  refine or_congr_left ⟨?_, ?_⟩
  · rintro ⟨⟨ref, kind⟩, hmem, rfl⟩
    exact ⟨kind, hmem⟩
  · rintro ⟨kind, hmem⟩
    exact ⟨_, hmem, rfl⟩

theorem mem_crossed {edge : N × N} :
    edge ∈ snap.crossed ↔ ∃ target, (edge.1, edge.2, target) ∈ snap.references := by
  rw [crossed, List.mem_dedup, List.mem_map]
  constructor
  · rintro ⟨⟨c, p, target⟩, hmem, rfl⟩
    exact ⟨target, hmem⟩
  · rintro ⟨target, hmem⟩
    exact ⟨_, hmem, rfl⟩

theorem mem_targetsOf {edge : N × N} {target : N} :
    target ∈ snap.targetsOf edge ↔ (edge.1, edge.2, target) ∈ snap.references := by
  rw [targetsOf, List.mem_map]
  constructor
  · rintro ⟨⟨c, p, target⟩, hmem, rfl⟩
    obtain ⟨href, hedge⟩ := List.mem_filter.1 hmem
    obtain rfl : (c, p) = edge := of_decide_eq_true hedge
    exact href
  · intro hmem
    exact ⟨_, List.mem_filter.2 ⟨hmem, decide_eq_true rfl⟩, rfl⟩

theorem nodup_targetsOf (edge : N × N) : (snap.targetsOf edge).Nodup := by
  refine List.Nodup.map_on ?_ ((List.nodup_dedup _).filter _)
  rintro ⟨c, p, target⟩ hmem ⟨c', p', target'⟩ hmem' rfl
  have hedge : (c, p) = edge := of_decide_eq_true (List.mem_filter.1 hmem).2
  have hedge' : (c', p') = edge := of_decide_eq_true (List.mem_filter.1 hmem').2
  obtain ⟨rfl, rfl⟩ := Prod.mk.inj (hedge.trans hedge'.symm)
  rfl

theorem importCount_eq (ref : Reference N) :
    snap.importCount ref = (snap.imports.filter fun key ↦ key.1 = ref).length := by
  rw [← List.countP_eq_length_filter, imports, List.countP_filterMap, importCount]
  refine List.countP_congr fun binding _ ↦ ?_
  rw [importKey]
  by_cases hkind : binding.kind = .declared
  · simp [hkind]
  · rcases hcrossing : snap.crossing binding.fromModule binding.target with - | ref'
    · simp [hkind]
    · simp [hkind]

theorem usageCount_eq (ref : Reference N) : snap.usageCount ref =
    ((snap.usages.filterMap snap.usageKey).filter fun key ↦ key = ref).length := by
  rw [← List.countP_eq_length_filter, List.countP_filterMap, usageCount]
  refine List.countP_congr fun usage _ ↦ ?_
  rw [usageKey]
  rcases snap.crossing usage.consumerModule usage.target with - | ref' <;> simp

end OpenedSnapshot

/-! ### Counting -/

section Counting

variable {N : Type} [LinearOrder N] {snap : OpenedSnapshot N} {orders : Orders N}
  {edge : N × N} {target : N}

/-- The counts of an edge. -/
def countsOf (additions : List (Addition N)) (edge : N × N) : PerSymbol N :=
  accumulate (fun addition ↦ addition.2.1) (fun _ ↦ (0, 0))
    (fun addition counts ↦ (counts.1 + addition.2.2.1, counts.2 + addition.2.2.2))
    (additions.filter fun addition ↦ addition.1 = edge)

theorem mem_importAcc {key : Reference N × BindingKind} :
    key ∈ snap.importAcc.map Prod.fst ↔ key ∈ snap.imports := by
  rw [OpenedSnapshot.importAcc, mem_keys_accumulate, List.map_id, OpenedSnapshot.imports]

theorem mem_usageAcc {ref : Reference N} :
    ref ∈ snap.usageAcc.map Prod.fst ↔ ref ∈ snap.usages.filterMap snap.usageKey := by
  rw [OpenedSnapshot.usageAcc, mem_keys_accumulate, List.map_id]

/-- The symbols that are added to. -/
theorem mem_additions (orders : Orders N) (edge : N × N) (symbol : N × Option String) :
    (∃ addition ∈ snap.additions orders, addition.1 = edge ∧ addition.2.1 = symbol) ↔
      (∃ kind, ((edge.1, edge.2, symbol.1), kind) ∈ snap.imports ∧
        symbol.2 = some (bindingKindLabel kind)) ∨
      symbol.2 = none ∧ (edge.1, edge.2, symbol.1) ∈ snap.usages.filterMap snap.usageKey := by
  simp only [OpenedSnapshot.additions, List.mem_append, List.mem_map,
    (orders.imports_perm _).mem_iff, (orders.usages_perm _).mem_iff]
  constructor
  · rintro ⟨addition, ⟨⟨⟨⟨c, p, t⟩, kind⟩, n⟩, hmem, rfl⟩ | ⟨⟨⟨c, p, t⟩, n⟩, hmem, rfl⟩, rfl, rfl⟩
    · exact .inl ⟨kind, mem_importAcc.1 (List.mem_map_of_mem hmem), rfl⟩
    · exact .inr ⟨rfl, mem_usageAcc.1 (List.mem_map_of_mem hmem)⟩
  · obtain ⟨t, label⟩ := symbol
    rintro (⟨kind, hmem, rfl⟩ | ⟨rfl, hmem⟩)
    · obtain ⟨⟨_, n⟩, hentry, rfl⟩ := List.mem_map.1 (mem_importAcc.2 hmem)
      exact ⟨_, .inl ⟨_, hentry, rfl⟩, rfl, rfl⟩
    · obtain ⟨⟨_, n⟩, hentry, rfl⟩ := List.mem_map.1 (mem_usageAcc.2 hmem)
      exact ⟨_, .inr ⟨_, hentry, rfl⟩, rfl, rfl⟩

/-- The symbols of an edge, with each kind of binding apart. -/
theorem mem_countsOf (orders : Orders N) {edge : N × N} (symbol : N × Option String) :
    symbol ∈ (countsOf (snap.additions orders) edge).map Prod.fst ↔
      (∃ kind, ((edge.1, edge.2, symbol.1), kind) ∈ snap.imports ∧
        symbol.2 = some (bindingKindLabel kind)) ∨
      symbol.2 = none ∧ (edge.1, edge.2, symbol.1) ∈ snap.usages.filterMap snap.usageKey := by
  rw [countsOf, mem_keys_accumulate, ← mem_additions orders, List.mem_map]
  constructor
  · rintro ⟨addition, hmem, rfl⟩
    obtain ⟨hmem, hedge⟩ := List.mem_filter.1 hmem
    exact ⟨addition, hmem, of_decide_eq_true hedge, rfl⟩
  · rintro ⟨addition, hmem, hedge, rfl⟩
    exact ⟨addition, List.mem_filter.2 ⟨hmem, decide_eq_true hedge⟩, rfl⟩

/-- **The edges are those that are crossed**, each with its counts. -/
theorem perEdge_perm : (perEdge (snap.additions orders)).Perm
    (snap.crossed.map fun edge ↦ (edge, countsOf (snap.additions orders) edge)) := by
  refine accumulate_perm (List.nodup_dedup _) fun edge ↦ ?_
  rw [snap.mem_crossed]
  constructor
  · rintro ⟨target, hmem⟩
    rcases snap.mem_references.1 hmem with ⟨kind, hmem⟩ | hmem
    · obtain ⟨addition, hadd, rfl, -⟩ := (mem_additions orders edge
        (target, some (bindingKindLabel kind))).2 (.inl ⟨kind, hmem, rfl⟩)
      exact List.mem_map_of_mem hadd
    · obtain ⟨addition, hadd, rfl, -⟩ := (mem_additions orders edge
        (target, none)).2 (.inr ⟨rfl, hmem⟩)
      exact List.mem_map_of_mem hadd
  · intro hmem
    obtain ⟨addition, hadd, rfl⟩ := List.mem_map.1 hmem
    refine ⟨addition.2.1.1, snap.mem_references.2 ?_⟩
    rcases (mem_additions orders _ _).1 ⟨addition, hadd, rfl, rfl⟩ with
      ⟨kind, hkind, -⟩ | ⟨-, hkind⟩
    · exact .inl ⟨kind, hkind⟩
    · exact .inr hkind

/-- What an addition means for a target. -/
def addedTo (pick : ℕ × ℕ → ℕ) (edge : N × N) (target : N) (addition : Addition N) : ℕ :=
  if addition.1 = edge then if addition.2.1.1 = target then pick addition.2.2 else 0 else 0

/-- A sum over the counts of an edge, from what was added to them. -/
theorem sum_countsOf {p : ℕ × ℕ → ℕ} (hzero : p (0, 0) = 0)
    (hadd : ∀ m n, p (m.1 + n.1, m.2 + n.2) = p m + p n) (additions : List (Addition N)) :
    (((countsOf additions edge).filter fun entry ↦ entry.1.1 = target).map
        fun entry ↦ p entry.2).sum =
      (additions.map (addedTo p edge target)).sum := by
  have hsum : ((countsOf additions edge).map fun entry ↦
        if entry.1.1 = target then p entry.2 else 0).sum =
      ((additions.filter fun addition ↦ addition.1 = edge).map fun addition ↦
        if addition.2.1.1 = target then p addition.2.2 else 0).sum := by
    refine sum_accumulate
      (f := fun (symbol : N × Option String) counts ↦ if symbol.1 = target then p counts else 0)
      (fun symbol ↦ ?_) (fun addition counts ↦ ?_)
    · simp only [hzero, ite_self]
    · rw [hadd]
      split <;> rfl
  rw [sum_map_filter] at hsum ⊢
  simp only [decide_eq_true_eq] at hsum ⊢
  exact hsum

theorem sum_additions_eq {κ : Type} {pick : ℕ × ℕ → ℕ} {make : κ × ℕ → Addition N}
    (entries : List (κ × ℕ)) (hnone : ∀ entry, pick (make entry).2.2 = 0) :
    ((entries.map make).map (addedTo pick edge target)).sum = 0 := by
  refine List.sum_eq_zero fun n hn ↦ ?_
  obtain ⟨addition, hadd, rfl⟩ := List.mem_map.1 hn
  obtain ⟨entry, -, rfl⟩ := List.mem_map.1 hadd
  rw [addedTo, hnone, ite_self, ite_self]

/-- An import adds to its own target, and a usage adds no import. -/
theorem sum_imports (orders : Orders N) :
    ((snap.additions orders).map (addedTo Prod.fst edge target)).sum =
      snap.importCount (edge.1, edge.2, target) := by
  have hkey : ∀ entry : (Reference N × BindingKind) × ℕ,
      addedTo Prod.fst edge target (importAddition entry) =
        if decide (entry.1.1 = (edge.1, edge.2, target)) then entry.2 else 0 := by
    rintro ⟨⟨⟨c, p, t⟩, kind⟩, n⟩
    obtain ⟨c', p'⟩ := edge
    show (if (c, p) = (c', p') then if t = target then n else 0 else 0) = _
    simp only [Prod.mk.injEq, decide_eq_true_eq]
    rw [← ite_and]
    exact if_congr and_assoc rfl rfl
  rw [OpenedSnapshot.additions, List.map_append, List.sum_append,
    sum_additions_eq (orders.usages snap.usageAcc) fun ⟨⟨_, _, _⟩, _⟩ ↦ rfl, Nat.add_zero,
    List.map_map, ((orders.imports_perm _).map _).sum_eq, snap.importCount_eq]
  refine Eq.trans (congrArg List.sum (List.map_congr_left fun entry _ ↦ hkey entry)) ?_
  exact sum_counts (fun key ↦ decide (key.1 = (edge.1, edge.2, target))) snap.imports

/-- A usage adds to its own target, and an import adds no usage. -/
theorem sum_usages (orders : Orders N) :
    ((snap.additions orders).map (addedTo Prod.snd edge target)).sum =
      snap.usageCount (edge.1, edge.2, target) := by
  have hkey : ∀ entry : Reference N × ℕ,
      addedTo Prod.snd edge target (usageAddition entry) =
        if decide (entry.1 = (edge.1, edge.2, target)) then entry.2 else 0 := by
    rintro ⟨⟨c, p, t⟩, n⟩
    obtain ⟨c', p'⟩ := edge
    show (if (c, p) = (c', p') then if t = target then n else 0 else 0) = _
    simp only [Prod.mk.injEq, decide_eq_true_eq]
    rw [← ite_and]
    exact if_congr and_assoc rfl rfl
  rw [OpenedSnapshot.additions, List.map_append, List.sum_append,
    sum_additions_eq (orders.imports snap.importAcc) fun ⟨⟨⟨_, _, _⟩, _⟩, _⟩ ↦ rfl, Nat.zero_add,
    List.map_map, ((orders.usages_perm _).map _).sum_eq, snap.usageCount_eq]
  refine Eq.trans (congrArg List.sum (List.map_congr_left fun entry _ ↦ hkey entry)) ?_
  exact sum_counts (fun ref ↦ decide (ref = (edge.1, edge.2, target))) _

end Counting

/-! ### Rows -/

section Rows

variable {N : Type} [LinearOrder N] {snap : OpenedSnapshot N} {orders orders' : Orders N}
  {edge : N × N} {target : N} {perSymbol perSymbol' : PerSymbol N} {label : String}

/-- The kind of binding that a target keeps: the first that comes. -/
def kindIn (perSymbol : PerSymbol N) (target : N) : Option String :=
  (perSymbol.filter fun entry ↦ entry.1.1 = target).findSome? fun entry ↦ entry.1.2

omit [LinearOrder N] in
theorem foldl_collapse (perSymbol : PerSymbol N) (symbol : EdgeSymbol) :
    perSymbol.foldl (fun symbol entry ↦ symbol.collapse entry) symbol =
      { symbol with
        bindingKind := symbol.bindingKind.or (perSymbol.findSome? fun entry ↦ entry.1.2)
        importCount := symbol.importCount + (perSymbol.map fun entry ↦ entry.2.1).sum
        usageCount := symbol.usageCount + (perSymbol.map fun entry ↦ entry.2.2).sum } := by
  induction perSymbol generalizing symbol with
  | nil =>
    obtain ⟨name, kind, bindingKind, imports, usages⟩ := symbol
    cases bindingKind <;> rfl
  | cons entry perSymbol ih =>
    obtain ⟨⟨target, label⟩, imports, usages⟩ := entry
    obtain ⟨name, kind, bindingKind, imports', usages'⟩ := symbol
    rw [List.foldl_cons, ih]
    cases bindingKind <;> cases label <;> simp [EdgeSymbol.collapse, Nat.add_assoc]

/-- **The symbols of an edge** have all that refers to them. -/
theorem byTarget_perm (h : perSymbol.Perm (countsOf (snap.additions orders) edge)) :
    (snap.byTarget perSymbol).Perm ((snap.targetsOf edge).map fun target ↦
      (target, snap.symbolOf (edge.1, edge.2, target) (kindIn perSymbol target))) := by
  have hkeys : ∀ target, target ∈ snap.targetsOf edge ↔
      target ∈ perSymbol.map fun entry ↦ entry.1.1 := by
    intro target
    rw [snap.mem_targetsOf, snap.mem_references, (h.map _).mem_iff]
    constructor
    · rintro (⟨kind, hmem⟩ | hmem)
      · obtain ⟨entry, hentry, heq⟩ := List.mem_map.1 ((mem_countsOf orders
          (target, some (bindingKindLabel kind))).2 (.inl ⟨kind, hmem, rfl⟩))
        exact List.mem_map.2 ⟨entry, hentry, congrArg Prod.fst heq⟩
      · obtain ⟨entry, hentry, heq⟩ := List.mem_map.1
          ((mem_countsOf orders (target, none)).2 (.inr ⟨rfl, hmem⟩))
        exact List.mem_map.2 ⟨entry, hentry, congrArg Prod.fst heq⟩
    · intro hmem
      obtain ⟨entry, hentry, rfl⟩ := List.mem_map.1 hmem
      rcases (mem_countsOf _ _).1 (List.mem_map_of_mem hentry) with ⟨kind, hkind, -⟩ | ⟨-, hkind⟩
      · exact .inl ⟨kind, hkind⟩
      · exact .inr hkind
  refine (accumulate_perm (snap.nodup_targetsOf edge) hkeys).trans (.of_eq ?_)
  refine List.map_congr_left fun target _ ↦ Prod.ext rfl ?_
  have himports : ((perSymbol.filter fun entry ↦ entry.1.1 = target).map
      fun entry ↦ entry.2.1).sum = snap.importCount (edge.1, edge.2, target) := by
    rw [((h.filter _).map _).sum_eq, ← sum_imports orders]
    exact sum_countsOf (p := Prod.fst) rfl (fun _ _ ↦ rfl) _
  have husages : ((perSymbol.filter fun entry ↦ entry.1.1 = target).map
      fun entry ↦ entry.2.2).sum = snap.usageCount (edge.1, edge.2, target) := by
    rw [((h.filter _).map _).sum_eq, ← sum_usages orders]
    exact sum_countsOf (p := Prod.snd) rfl (fun _ _ ↦ rfl) _
  show (perSymbol.filter fun entry ↦ entry.1.1 = target).foldl
    (fun symbol entry ↦ symbol.collapse entry) (snap.newSymbol target) = _
  rw [foldl_collapse, himports, husages]
  simp only [OpenedSnapshot.newSymbol, Option.none_or, Nat.zero_add]
  rfl

theorem mem_of_kindIn (h : kindIn perSymbol target = some label) :
    (target, some label) ∈ perSymbol.map Prod.fst := by
  obtain ⟨entry, hmem, heq⟩ := List.exists_of_findSome?_eq_some h
  obtain ⟨hmem, htarget⟩ := List.mem_filter.1 hmem
  refine List.mem_map.2 ⟨entry, hmem, Prod.ext ?_ heq⟩
  exact of_decide_eq_true htarget

theorem not_mem_of_kindIn (h : kindIn perSymbol target = none) :
    (target, some label) ∉ perSymbol.map Prod.fst := by
  intro hmem
  obtain ⟨entry, hmem, heq⟩ := List.mem_map.1 hmem
  have hnone := List.findSome?_eq_none_iff.1 h entry
    (List.mem_filter.2 ⟨hmem, decide_eq_true (congrArg Prod.fst heq)⟩)
  rw [heq] at hnone
  exact absurd hnone (Option.some_ne_none label)

/-- The row of an edge in a report. -/
def rowOf (snap : OpenedSnapshot N) (orders : Orders N) (edge : N × N) : CrateEdge :=
  snap.edgeOf edge
    (snap.byTarget (orders.symbols edge (countsOf (snap.additions orders) edge)))

theorem rows_perm : ((orders.edges (perEdge (snap.additions orders))).map fun entry ↦
      snap.edgeOf entry.1 (snap.byTarget (orders.symbols entry.1 entry.2))).Perm
    (snap.crossed.map (rowOf snap orders)) := by
  refine (((orders.edges_perm _).trans perEdge_perm).map _).trans (.of_eq ?_)
  rw [List.map_map]
  rfl

theorem crateEdges_perm :
    (snap.crateEdges orders).Perm (snap.crossed.map (rowOf snap orders)) :=
  (rankBy_perm _ _).trans rows_perm

theorem symbols_perm : (rowOf snap orders edge).symbols.Perm
    ((snap.targetsOf edge).map fun target ↦ snap.symbolOf (edge.1, edge.2, target)
      (kindIn (orders.symbols edge (countsOf (snap.additions orders) edge)) target)) := by
  refine (rankBy_perm _ _).trans (((rankBy_perm _ _).map _).trans ?_)
  refine ((byTarget_perm (orders.symbols_perm _ _)).map _).trans (.of_eq ?_)
  rw [List.map_map]
  rfl

end Rows

/-! ### Conservation -/

section Conservation

variable {N : Type} [LinearOrder N] {snap : OpenedSnapshot N} {orders : Orders N}

/-- What a report counts for a target across an edge. -/
structure Count where
  consumerCrate : Name
  producerCrate : Name
  targetQualified : Name
  targetKind : String
  importCount : ℕ
  usageCount : ℕ

/-- What a row counts, target by target. -/
def CrateEdge.counts (edge : CrateEdge) : List Count :=
  edge.symbols.map fun symbol ↦
    ⟨edge.consumerCrate, edge.producerCrate, symbol.targetQualified, symbol.targetKind,
      symbol.importCount, symbol.usageCount⟩

/-- What there is to count. -/
def OpenedSnapshot.countOf (snap : OpenedSnapshot N) (ref : Reference N) : Count where
  consumerCrate := (snap.targetLabels ref.1).getD []
  producerCrate := (snap.targetLabels ref.2.1).getD []
  targetQualified := snap.nodeQual ref.2.2
  targetKind := snap.nodeKind ref.2.2
  importCount := snap.importCount ref
  usageCount := snap.usageCount ref

/-- Every reference across crates is counted once, under its own crates and target. -/
structure Conserved (snap : OpenedSnapshot N) (report : List CrateEdge) : Prop where
  counts : ∃ refs : List (Reference N), refs.Nodup ∧
    (∀ ref, ref ∈ refs ↔ 0 < snap.importCount ref ∨ 0 < snap.usageCount ref) ∧
    (report.flatMap CrateEdge.counts).Perm (refs.map snap.countOf)
  imports : (report.map CrateEdge.totalRefsViaImports).sum = snap.bindings.countP fun binding ↦
    binding.kind ≠ .declared ∧ (snap.crossing binding.fromModule binding.target).isSome
  usages : (report.map CrateEdge.totalRefsViaUsages).sum = snap.usages.countP fun usage ↦
    (snap.crossing usage.consumerModule usage.target).isSome
  totals : ∀ edge ∈ report,
    edge.totalRefsViaImports = (edge.symbols.map EdgeSymbol.importCount).sum ∧
      edge.totalRefsViaUsages = (edge.symbols.map EdgeSymbol.usageCount).sum ∧
      edge.uniqueSymbols = edge.symbols.length

/-- A reference is one that is imported or used at least once. -/
theorem mem_references_iff (ref : Reference N) : ref ∈ snap.references ↔
    0 < snap.importCount ref ∨ 0 < snap.usageCount ref := by
  rw [snap.mem_references, snap.importCount_eq, snap.usageCount_eq, List.length_pos_iff_exists_mem,
    List.length_pos_iff_exists_mem]
  simp only [List.mem_filter, decide_eq_true_eq]
  constructor
  · rintro (⟨kind, hmem⟩ | hmem)
    · exact .inl ⟨_, hmem, rfl⟩
    · exact .inr ⟨_, hmem, rfl⟩
  · rintro (⟨⟨ref, kind⟩, hmem, rfl⟩ | ⟨ref, hmem, rfl⟩)
    · exact .inl ⟨kind, hmem⟩
    · exact .inr hmem

open scoped List in
/-- What a report counts is what there is to count. -/
theorem counts_perm : ((snap.crateEdges orders).flatMap CrateEdge.counts).Perm
    (snap.references.map snap.countOf) := by
  have hrow : ∀ edge, (rowOf snap orders edge).counts.Perm
      ((snap.references.filter fun ref ↦ (ref.1, ref.2.1) = edge).map snap.countOf) := by
    intro edge
    refine (symbols_perm.map _).trans (.of_eq ?_)
    rw [OpenedSnapshot.targetsOf, List.map_map, List.map_map]
    refine List.map_congr_left fun ref href ↦ ?_
    obtain rfl : (ref.1, ref.2.1) = edge := of_decide_eq_true (List.mem_filter.1 href).2
    rfl
  calc (snap.crateEdges orders).flatMap CrateEdge.counts
    _ ~ (snap.crossed.map (rowOf snap orders)).flatMap CrateEdge.counts :=
        crateEdges_perm.flatMap_right _
    _ = snap.crossed.flatMap fun edge ↦ (rowOf snap orders edge).counts := List.flatMap_map _ _ _
    _ ~ snap.crossed.flatMap fun edge ↦
          (snap.references.filter fun ref ↦ (ref.1, ref.2.1) = edge).map snap.countOf :=
        .flatMap_left _ fun edge _ ↦ hrow edge
    _ = (snap.crossed.flatMap fun edge ↦
          snap.references.filter fun ref ↦ (ref.1, ref.2.1) = edge).map snap.countOf :=
        List.map_flatMap.symm
    _ ~ snap.references.map snap.countOf :=
        (flatMap_filter_perm (List.nodup_dedup _) fun ref href ↦
          List.mem_dedup.2 (List.mem_map_of_mem href)).map _

theorem totals_of_mem {edge : CrateEdge} (h : edge ∈ snap.crateEdges orders) :
    edge.totalRefsViaImports = (edge.symbols.map EdgeSymbol.importCount).sum ∧
      edge.totalRefsViaUsages = (edge.symbols.map EdgeSymbol.usageCount).sum ∧
      edge.uniqueSymbols = edge.symbols.length := by
  obtain ⟨_, -, rfl⟩ := List.mem_map.1 (crateEdges_perm.mem_iff.1 h)
  exact ⟨rfl, rfl, rfl⟩

theorem sum_totals {total : CrateEdge → ℕ} {c : Count → ℕ}
    (h : ∀ edge ∈ snap.crateEdges orders, total edge = (edge.counts.map c).sum) :
    ((snap.crateEdges orders).map total).sum =
      (snap.references.map fun ref ↦ c (snap.countOf ref)).sum := by
  have hrefs := (@counts_perm N _ snap orders).map c
  rw [List.map_map] at hrefs
  rw [List.map_congr_left h, ← sum_flatMap, ← List.map_flatMap]
  exact hrefs.sum_eq

/-- **No reference is lost or counted twice**, in whatever order the maps are iterated. -/
theorem conserved_crateEdges : Conserved snap (snap.crateEdges orders) where
  counts := ⟨snap.references, snap.nodup_references, mem_references_iff, counts_perm⟩
  imports := by
    have hlength := (flatMap_filter_perm snap.nodup_references (l := snap.imports)
      fun key hkey ↦ snap.mem_references.2 (.inl ⟨key.2, hkey⟩)).length_eq
    rw [List.length_flatMap] at hlength
    rw [sum_totals (c := Count.importCount) fun edge hedge ↦ ?_]
    · show (snap.references.map snap.importCount).sum = _
      rw [List.map_congr_left fun ref _ ↦ snap.importCount_eq ref, hlength,
        OpenedSnapshot.imports, List.length_filterMap_eq_countP]
      refine List.countP_congr fun binding _ ↦ ?_
      rw [OpenedSnapshot.importKey]
      by_cases hkind : binding.kind = .declared <;> simp [hkind]
    · rw [(totals_of_mem hedge).1, CrateEdge.counts, List.map_map]
      rfl
  usages := by
    have hlength := (flatMap_filter_perm snap.nodup_references
      (l := snap.usages.filterMap snap.usageKey)
      fun ref href ↦ snap.mem_references.2 (.inr href)).length_eq
    rw [List.length_flatMap] at hlength
    rw [sum_totals (c := Count.usageCount) fun edge hedge ↦ ?_]
    · show (snap.references.map snap.usageCount).sum = _
      rw [List.map_congr_left fun ref _ ↦ snap.usageCount_eq ref]
      refine hlength.trans ?_
      rw [List.length_filterMap_eq_countP]
      rfl
    · rw [(totals_of_mem hedge).2.1, CrateEdge.counts, List.map_map]
      rfl
  totals _ := totals_of_mem

end Conservation

end RustCodeMcp.CrateEdges
