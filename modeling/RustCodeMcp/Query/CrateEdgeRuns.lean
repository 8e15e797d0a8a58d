import RustCodeMcp.Query.CrateEdges

/-!
# Runs of the report on crate edges

A row keeps one kind of binding, the first that the hash map hands out, and edges with the same two
labels keep the order of the hash map. So the report is the same on every run exactly when there is
nothing to choose (`crateEdges_iff`).

Both conditions are needed, and neither implies the other. One kind to keep (`OneKind`) is about the
bindings behind one row; edges that are alike (`Alike`) are about crates that share a label. To show
that they are necessary an order is made that brings about what is left open: a given entry first,
or the edges in a given arrangement.
-/

namespace RustCodeMcp.CrateEdges

open Grouping Ranking
open Navigation

/-! ### What there is to choose -/

section Reproducibility

variable {N : Type} [LinearOrder N] {snap : OpenedSnapshot N} {orders : Orders N}
  {edge : N × N} {target : N} {kind kind' : BindingKind}

/-- What is imported across an edge is imported by one kind of binding. -/
def OneKind (snap : OpenedSnapshot N) : Prop :=
  ∀ ref kind kind', (ref, kind) ∈ snap.imports → (ref, kind') ∈ snap.imports → kind = kind'

namespace OpenedSnapshot

variable (snap : OpenedSnapshot N)

/-- The first kind of binding in the order of the bindings' ids. -/
def kindOf (ref : Reference N) : Option String :=
  (snap.imports.find? fun key ↦ key.1 = ref).map fun key ↦ bindingKindLabel key.2

/-- The symbols of an edge with their targets. -/
def targetSymbols (edge : N × N) : List (N × EdgeSymbol) :=
  (snap.targetsOf edge).map fun target ↦
    (target, snap.symbolOf (edge.1, edge.2, target) (snap.kindOf (edge.1, edge.2, target)))

/-- The symbols of an edge, in their order. -/
def symbols (edge : N × N) : List EdgeSymbol :=
  rankBy EdgeSymbol.rank (intoValues (snap.targetSymbols edge))

/-- The labels of the two crates of an edge. -/
def labels (edge : N × N) : Name × Name :=
  ((snap.targetLabels edge.1).getD [], (snap.targetLabels edge.2).getD [])

end OpenedSnapshot

/-- Edges whose crates have the same labels have the same symbols. -/
def Alike (snap : OpenedSnapshot N) : Prop :=
  ∀ edge ∈ snap.crossed, ∀ edge' ∈ snap.crossed,
    snap.labels edge = snap.labels edge' → snap.symbols edge = snap.symbols edge'

theorem intoValues_eq {byTarget byTarget' : List (N × EdgeSymbol)} (h : byTarget.Perm byTarget')
    (hnodup : (byTarget'.map Prod.fst).Nodup) : intoValues byTarget = intoValues byTarget' := by
  rw [intoValues, intoValues, rankBy_eq_of_perm h fun x hx y hy heq ↦ ?_]
  exact List.inj_on_of_nodup_map hnodup (h.mem_iff.1 hx) (h.mem_iff.1 hy)
    (OrderDual.toDual.injective heq)

/-- **Where there is one kind to keep**, every order keeps it. -/
theorem kindIn_eq (hone : OneKind snap) :
    kindIn (orders.symbols edge (countsOf (snap.additions orders) edge)) target =
      snap.kindOf (edge.1, edge.2, target) := by
  have hkeys : ∀ label, (target, some label) ∈
      (orders.symbols edge (countsOf (snap.additions orders) edge)).map Prod.fst ↔
      ∃ kind, ((edge.1, edge.2, target), kind) ∈ snap.imports ∧ label = bindingKindLabel kind := by
    intro label
    rw [((orders.symbols_perm _ _).map _).mem_iff, mem_countsOf]
    simp
  rw [OpenedSnapshot.kindOf]
  rcases hfind : snap.imports.find? fun key ↦ key.1 = (edge.1, edge.2, target) with - | key
  · rw [hfind]
    rcases hkind : kindIn _ target with - | label
    · rfl
    · obtain ⟨kind, hmem, -⟩ := (hkeys label).1 (mem_of_kindIn hkind)
      exact absurd (decide_eq_true rfl) (List.find?_eq_none.1 hfind _ hmem)
  · rw [hfind]
    have hmem := List.mem_of_find?_eq_some hfind
    have hkey : key.1 = (edge.1, edge.2, target) := by
      simpa using List.find?_some hfind
    obtain ⟨ref, kind⟩ := key
    obtain rfl : ref = (edge.1, edge.2, target) := hkey
    rcases hkind : kindIn _ target with - | label
    · exact absurd ((hkeys _).2 ⟨kind, hmem, rfl⟩) (not_mem_of_kindIn hkind)
    · obtain ⟨kind', hmem', rfl⟩ := (hkeys label).1 (mem_of_kindIn hkind)
      rw [hone _ _ _ hmem hmem']
      rfl

/-- Where there is one kind to keep, a row does not depend on the orders. -/
theorem rowOf_eq (hone : OneKind snap) (orders : Orders N) (edge : N × N) :
    rowOf snap orders edge = snap.edgeOf edge (snap.targetSymbols edge) := by
  have hperm : (snap.byTarget (orders.symbols edge (countsOf (snap.additions orders) edge))).Perm
      (snap.targetSymbols edge) := by
    refine (byTarget_perm (orders.symbols_perm _ _)).trans (.of_eq ?_)
    exact List.map_congr_left fun target _ ↦ by rw [kindIn_eq hone]
  have hnodup : ((snap.targetSymbols edge).map Prod.fst).Nodup := by
    rw [OpenedSnapshot.targetSymbols, List.map_map]
    exact (List.map_id _).symm ▸ snap.nodup_targetsOf edge
  rw [rowOf, OpenedSnapshot.edgeOf, intoValues_eq hperm hnodup, OpenedSnapshot.edgeOf]

theorem edgeOf_eq (edge : N × N) : snap.edgeOf edge (snap.targetSymbols edge) =
    { consumerCrate := (snap.labels edge).1
      producerCrate := (snap.labels edge).2
      uniqueSymbols := (snap.symbols edge).length
      totalRefsViaImports := ((snap.symbols edge).map EdgeSymbol.importCount).sum
      totalRefsViaUsages := ((snap.symbols edge).map EdgeSymbol.usageCount).sum
      symbols := snap.symbols edge } :=
  rfl

/-! ### Orders that tell -/

/-- The entries of one edge begin with the one that is given. -/
def Orders.first (edge : N × N) (symbol : N × Option String) : Orders N where
  imports := id
  usages := id
  edges := id
  symbols edge' l :=
    if edge' = edge then
      l.filter (fun entry ↦ entry.1 = symbol) ++ l.filter fun entry ↦ !decide (entry.1 = symbol)
    else l
  imports_perm _ := .refl _
  usages_perm _ := .refl _
  edges_perm _ := .refl _
  symbols_perm edge' l := by
    split
    · exact List.filter_append_perm _ l
    · exact .refl _

/-- The edges come in an order that is given. -/
def Orders.arranged [DecidableEq (List ((N × N) × PerSymbol N))]
    {entries entries' : List ((N × N) × PerSymbol N)} (h : entries'.Perm entries) : Orders N where
  imports := id
  usages := id
  edges l := if l = entries then entries' else l
  symbols _ := id
  imports_perm _ := .refl _
  usages_perm _ := .refl _
  edges_perm l := by
    split
    · rename_i heq
      exact heq ▸ h
    · exact .refl _
  symbols_perm _ _ := .refl _

theorem kindIn_append (l l' : PerSymbol N) :
    kindIn (l ++ l') target = (kindIn l target).or (kindIn l' target) := by
  rw [kindIn, List.filter_append, List.findSome?_append]
  rfl

theorem symbols_first (symbol : N × Option String) (l : PerSymbol N) :
    (Orders.first edge symbol).symbols edge l =
      l.filter (fun entry ↦ entry.1 = symbol) ++ l.filter fun entry ↦ !decide (entry.1 = symbol) :=
  if_pos rfl

/-- A target keeps the kind of the symbol that comes first. -/
theorem kindIn_first {l : PerSymbol N} {label : String}
    (hmem : (target, some label) ∈ l.map Prod.fst) :
    kindIn ((Orders.first edge (target, some label)).symbols edge l) target = some label := by
  obtain ⟨entry, hentry, hsymbol⟩ := List.mem_map.1 hmem
  have hentry : entry ∈ l.filter fun entry ↦ entry.1 = (target, some label) :=
    List.mem_filter.2 ⟨hentry, decide_eq_true hsymbol⟩
  have hall : ∀ entry ∈ l.filter (fun entry ↦ entry.1 = (target, some label)),
      entry.1 = (target, some label) := fun _ h ↦ of_decide_eq_true (List.mem_filter.1 h).2
  rw [symbols_first, kindIn_append]
  revert hentry hall
  generalize l.filter (fun entry ↦ entry.1 = (target, some label)) = first
  intro hentry hall
  rcases first with - | ⟨⟨symbol, counts⟩, first⟩
  · exact absurd hentry List.not_mem_nil
  · obtain rfl : symbol = (target, some label) := hall _ List.mem_cons_self
    have hkind : kindIn (((target, some label), counts) :: first) target = some label := by
      simp [kindIn]
    rw [hkind]
    rfl

theorem kindIn_first_of_ne {symbol : N × Option String} (l : PerSymbol N)
    (hne : target ≠ symbol.1) :
    kindIn ((Orders.first edge symbol).symbols edge l) target = kindIn l target := by
  have hnone : (l.filter fun entry ↦ entry.1 = symbol).filter (fun entry ↦ entry.1.1 = target) =
      [] := by
    refine List.filter_eq_nil_iff.2 fun entry hentry htarget ↦ hne ?_
    rw [← of_decide_eq_true htarget, of_decide_eq_true (List.mem_filter.1 hentry).2]
  have hrest : (l.filter fun entry ↦ !decide (entry.1 = symbol)).filter
      (fun entry ↦ entry.1.1 = target) = l.filter fun entry ↦ entry.1.1 = target := by
    rw [List.filter_filter]
    refine List.filter_congr fun entry _ ↦ ?_
    by_cases h : entry.1.1 = target
    · have hother : entry.1 ≠ symbol := fun heq ↦ hne (by rw [← h, heq])
      simp [h, hother]
    · simp [h]
  rw [symbols_first, kindIn, List.filter_append, hnone, hrest]
  rfl

/-- Reports that are the same on every run have one kind to keep. -/
theorem oneKind_of_reproducible
    (h : ∀ orders orders', snap.crateEdges orders = snap.crateEdges orders') : OneKind snap := by
  rintro ⟨c, p, t⟩ kind kind' hkind hkind'
  have href : (c, p, t) ∈ snap.references := snap.mem_references.2 (.inl ⟨kind, hkind⟩)
  let o := fun kind ↦ Orders.first (c, p) (t, some (bindingKindLabel kind))
  have hcounts : ∀ edge kind, countsOf (snap.additions (o kind)) edge =
      countsOf (snap.additions (o .declared)) edge := fun _ _ ↦ rfl
  -- Only the row of this edge may differ.
  have hrow : rowOf snap (o kind) (c, p) = rowOf snap (o kind') (c, p) := by
    refine eq_of_map_perm (List.nodup_dedup _) (snap.mem_crossed.2 ⟨t, href⟩) ?_
      (crateEdges_perm.symm.trans ((List.Perm.of_eq (h _ _)).trans crateEdges_perm))
    intro edge _ hne
    have hsymbols : ∀ kind l, (o kind).symbols edge l = l := fun kind l ↦ if_neg hne
    rw [rowOf, rowOf, hsymbols, hsymbols]
    rfl
  -- In it, only the symbol of this target may differ.
  have hsymbol := eq_of_map_perm (snap.nodup_targetsOf (c, p)) (snap.mem_targetsOf.2 href)
    (fun target _ hne ↦ ?_) (symbols_perm.symm.trans
      ((List.Perm.of_eq (congrArg CrateEdge.symbols hrow)).trans symbols_perm))
  · have hkept : ∀ kind, ((c, p, t), kind) ∈ snap.imports →
        kindIn ((o kind).symbols (c, p) (countsOf (snap.additions (o kind)) (c, p))) t =
          some (bindingKindLabel kind) := fun kind hmem ↦
      kindIn_first ((mem_countsOf (o kind) _).2 (.inl ⟨kind, hmem, rfl⟩))
    have hlabel := congrArg EdgeSymbol.bindingKind hsymbol
    rw [OpenedSnapshot.symbolOf, OpenedSnapshot.symbolOf, hkept kind hkind, hkept kind' hkind']
      at hlabel
    exact bindingKindLabel_injective (Option.some.inj hlabel)
  · rw [kindIn_first_of_ne _ hne, kindIn_first_of_ne _ hne]
    rfl

/-- Any order of the rows is one of a run. -/
theorem exists_run (hone : OneKind snap) {l : List CrateEdge} (h : l.Perm
    (snap.crossed.map fun edge ↦ snap.edgeOf edge (snap.targetSymbols edge))) :
    ∃ orders, snap.crateEdges orders = rankBy CrateEdge.rank l := by
  classical
  let entries := perEdge (snap.importAcc.map importAddition ++ snap.usageAcc.map usageAddition)
  let render := fun entry : (N × N) × PerSymbol N ↦ snap.edgeOf entry.1 (snap.byTarget entry.2)
  have hrows : (entries.map render).Perm
      (snap.crossed.map fun edge ↦ snap.edgeOf edge (snap.targetSymbols edge)) := by
    let orders : Orders N := .arranged (.refl entries)
    have hedges : orders.edges (perEdge (snap.additions orders)) = entries := ite_self _
    have hperm := @rows_perm N _ snap orders
    rw [hedges, List.map_congr_left fun edge _ ↦ rowOf_eq hone _ edge] at hperm
    exact hperm
  have hcomp : Relation.Comp (fun l l' ↦ l = l'.map render) List.Perm l entries := by
    rw [List.eq_map_comp_perm]
    exact h.trans hrows.symm
  obtain ⟨entries', rfl, hentries'⟩ := hcomp
  refine ⟨.arranged hentries', ?_⟩
  show rankBy CrateEdge.rank ((if entries = entries then entries' else entries).map render) = _
  rw [if_pos rfl]

theorem alike_of_reproducible (hone : OneKind snap)
    (h : ∀ orders orders', snap.crateEdges orders = snap.crateEdges orders') : Alike snap := by
  intro edge hedge edge' hedge' hlabels
  let rows := snap.crossed.map fun edge ↦ snap.edgeOf edge (snap.targetSymbols edge)
  have hties : ∀ x ∈ rows, ∀ y ∈ rows, x.rank = y.rank → x = y := by
    rw [← rankBy_eq_iff]
    intro l l' hl hl'
    obtain ⟨orders, heq⟩ := exists_run hone hl
    obtain ⟨orders', heq'⟩ := exists_run hone hl'
    rw [← heq, ← heq', h orders orders']
  have hsame := hties _ (List.mem_map_of_mem hedge) _ (List.mem_map_of_mem hedge')
    (congrArg (fun labels ↦ OrderDual.toDual (toLex labels)) hlabels)
  exact congrArg CrateEdge.symbols hsame

/-- **The report is the same on every run exactly when there is nothing to choose:** no target is
imported across an edge by two kinds of bindings, and edges with the same labels have the same
symbols. What it counts is right in every run. -/
theorem crateEdges_iff (snap : OpenedSnapshot N) :
    ((∀ orders, Conserved snap (snap.crateEdges orders)) ∧
        ∀ orders orders', snap.crateEdges orders = snap.crateEdges orders') ↔
      OneKind snap ∧ Alike snap := by
  constructor
  · rintro ⟨-, h⟩
    have hone := oneKind_of_reproducible h
    exact ⟨hone, alike_of_reproducible hone h⟩
  · rintro ⟨hone, halike⟩
    refine ⟨fun _ ↦ conserved_crateEdges, fun orders orders' ↦ ?_⟩
    refine rankBy_eq_of_perm (rows_perm.trans ((List.Perm.of_eq ?_).trans rows_perm.symm)) ?_
    · exact List.map_congr_left fun edge _ ↦ (rowOf_eq hone _ _).trans (rowOf_eq hone _ _).symm
    · intro x hx y hy hrank
      obtain ⟨edge, hedge, rfl⟩ := List.mem_map.1 (rows_perm.mem_iff.1 hx)
      obtain ⟨edge', hedge', rfl⟩ := List.mem_map.1 (rows_perm.mem_iff.1 hy)
      rw [rowOf_eq hone, rowOf_eq hone] at hrank ⊢
      have hlabels : snap.labels edge = snap.labels edge' :=
        toLex.injective (OrderDual.toDual.injective hrank)
      have hsymbols : snap.symbols edge = snap.symbols edge' := halike _ hedge _ hedge' hlabels
      rw [edgeOf_eq, edgeOf_eq, hlabels, hsymbols]

end Reproducibility

/-! ### An item that is imported in two ways -/

/-- One module names an item of another crate, and one has it by a glob. -/
def mixed : OpenedSnapshot ℕ where
  nodes := [⟨0, .crate, ['a'], ['a'], some 0, none, none, none⟩,
    ⟨1, .crate, ['b'], ['b'], some 1, none, none, none⟩,
    ⟨2, .module, ['m'], ['a', ':', ':', 'm'], some 0, none, none, none⟩,
    ⟨3, .module, ['n'], ['a', ':', ':', 'n'], some 0, none, none, none⟩,
    ⟨4, .item, ['T'], ['b', ':', ':', 'T'], some 1, some .struct, none, none⟩]
  nodup := by decide
  bindings := [⟨2, .type, ['T'], 4, .namedImport⟩, ⟨3, .type, ['T'], 4, .globImport⟩]
  usages := []

/-- Which kind the report has depends on the run. -/
theorem mixed_differs : ¬ ((∀ orders, Conserved mixed (mixed.crateEdges orders)) ∧
    ∀ orders orders', mixed.crateEdges orders = mixed.crateEdges orders') := by
  rintro ⟨-, h⟩
  have hkind := oneKind_of_reproducible h (0, 1, 4) .namedImport .globImport (by decide) (by decide)
  exact absurd hkind (by decide)

end RustCodeMcp.CrateEdges
