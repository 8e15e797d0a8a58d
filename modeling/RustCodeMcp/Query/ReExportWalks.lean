import RustCodeMcp.Query.ReExports

/-!
# Walks along re-exports

Two bindings can share a module and a name, and a module can be met on a longer way first. Where no
two bindings share them, the walk is a depth-first descent (`run_descend`), so a chain is complete
exactly when that is so and the first way to each module is a shortest one (`reExportChain_iff`).

Whether a walk is complete is a matter of the targets seen and no longer of the bindings, once no
two of these share a key: visiting the bindings of a target is then the same as seeing the target
(`Walked`). The rest is a fact of the library about descents with a limited depth: they find
everything at its least depth exactly when they expand everything on its shortest ways (`Expands`).

The two halves meet in `reExportChain_iff`: `run_descend` says that the walk of a target is the
descent from it, as far as hops are left, and the library says when a descent meets everything at
its least depth.
-/

namespace RustCodeMcp.ReExports

open DirectedGraph Ranking
open Navigation (Name Node)
open Navigation.OpenedSnapshot (MAX_REEXPORT_HOPS)

/-! ### One target -/

section Pops

variable {N : Type} [DecidableEq N] {snap : OpenedSnapshot N} {target v w : N} {d n : ℕ}
  {rest : List (N × ℕ)} {visited : Finset (N × Name)} {links : List (ReExportLink N)}

@[simp] theorem run_nil : snap.run ⟨[], visited, links⟩ = ⟨[], visited, links⟩ := by
  rw [OpenedSnapshot.run]

theorem run_cons : snap.run ⟨(v, d) :: rest, visited, links⟩ =
    snap.run (snap.pop v d ⟨rest, visited, links⟩) := by
  rw [OpenedSnapshot.run]

theorem visit_of_mem {walk : Walk N} {binding : Binding N} (h : binding.key ∈ walk.visited) :
    snap.visit d walk binding = walk := by
  rw [OpenedSnapshot.visit, if_pos h, ite_self]

/-- A target whose bindings were all visited. -/
theorem pop_of_mem {walk : Walk N} (h : ∀ binding ∈ snap.pubUses v, binding.key ∈ walk.visited) :
    snap.pop v d walk = walk := by
  rw [OpenedSnapshot.pop]
  split
  · rfl
  · rw [OpenedSnapshot.pubUses] at h
    generalize snap.bindingsForTarget v = l at h
    induction l with
    | nil => rfl
    | cons binding l ih =>
      rw [List.foldl_cons]
      rcases hexplicit : binding.isExplicitPubUse with - | -
      · rw [OpenedSnapshot.visit, hexplicit]
        exact ih fun other hother ↦ h other (by rwa [List.filter_cons_of_neg (by simp [hexplicit])])
      · rw [List.filter_cons_of_pos hexplicit, List.forall_mem_cons] at h
        rw [visit_of_mem h.1]
        exact ih h.2

/-- What is pushed for a target. -/
def pushed (snap : OpenedSnapshot N) (v : N) (d : ℕ) : List (N × ℕ) :=
  if d < MAX_REEXPORT_HOPS then
    ((snap.pubUses v).map fun binding ↦ binding.fromModule).reverse.map fun module ↦ (module, d + 1)
  else []

/-- A target whose bindings are all new. -/
theorem pop_of_new (hd : d ≤ MAX_REEXPORT_HOPS) (hnodup : ((snap.pubUses v).map Binding.key).Nodup)
    (hnew : ∀ binding ∈ snap.pubUses v, binding.key ∉ visited) :
    snap.pop v d ⟨rest, visited, links⟩ =
      ⟨pushed snap v d ++ rest, visited ∪ ((snap.pubUses v).map Binding.key).toFinset,
        links ++ (snap.pubUses v).map (snap.linkOf d)⟩ := by
  rw [OpenedSnapshot.pop, if_neg (Nat.not_lt.2 hd), pushed]
  rw [OpenedSnapshot.pubUses] at hnodup hnew ⊢
  generalize snap.bindingsForTarget v = l at hnodup hnew ⊢
  induction l generalizing rest visited links with
  | nil => simp
  | cons binding l ih =>
    rw [List.foldl_cons]
    rcases hexplicit : binding.isExplicitPubUse with - | -
    · rw [List.filter_cons_of_neg (by simp [hexplicit])] at hnodup hnew ⊢
      rw [OpenedSnapshot.visit, hexplicit]
      exact ih hnodup hnew
    · rw [List.filter_cons_of_pos hexplicit] at hnodup hnew ⊢
      rw [List.forall_mem_cons] at hnew
      rw [List.map_cons, List.nodup_cons] at hnodup
      rw [OpenedSnapshot.visit, hexplicit, if_neg (by simp), if_neg hnew.1, ih hnodup.2 ?_]
      · split <;> simp [Finset.insert_union, Finset.union_insert]
      · intro other hother hmem
        rcases Finset.mem_insert.1 hmem with heq | hmem
        · exact hnodup.1 (heq ▸ List.mem_map_of_mem hother)
        · exact hnew.2 other hother hmem

end Pops

/-! ### The walk is a descent -/

section Descent

variable {N : Type} [DecidableEq N] {snap : OpenedSnapshot N} {target v w : N} {d n : ℕ}
  {rest : List (N × ℕ)} {visited : Finset (N × Name)} {links : List (ReExportLink N)}
  {seen : Finset N} {l : List N}

/-- The links of the places that were not pruned. -/
def reports (snap : OpenedSnapshot N) (d : ℕ) (places : List (Place N)) : List (ReExportLink N) :=
  (unpruned places).flatMap fun place ↦
    (place.path.getLast?.elim [] snap.pubUses).map (snap.linkOf (d + place.path.length - 1))

theorem reports_append (d : ℕ) (places places' : List (Place N)) :
    reports snap d (places ++ places') = reports snap d places ++ reports snap d places' := by
  rw [reports, unpruned, List.filter_append, List.flatMap_append]
  rfl

/-- The links of places below another target are one hop further. -/
theorem reports_under {places : List (Place N)} (h : ∀ place ∈ places, place.path ≠ []) (v : N) :
    reports snap d (places.map (Place.under v)) = reports snap (d + 1) places := by
  rw [reports, unpruned, List.filter_map, List.flatMap_map]
  refine List.flatMap_congr fun place hplace ↦ ?_
  have hlength : d + (place.under v).path.length - 1 = d + 1 + place.path.length - 1 := by
    show d + (place.path.length + 1) - 1 = _
    omega
  rw [getLast?_under (h place (List.mem_of_mem_filter hplace)), hlength]

/-- What was visited is what the seen targets expose. -/
structure Walked (snap : OpenedSnapshot N) (target : N) (seen : Finset N)
    (visited : Finset (N × Name)) : Prop where
  visited : ∀ key, key ∈ visited ↔ ∃ v ∈ seen, ∃ binding ∈ snap.pubUses v, binding.key = key
  seen : ∀ v ∈ seen, ∃ k < MAX_REEXPORT_HOPS, Steps (Exposes snap) k target v

/-- Where keys are distinct, the bindings of a new target are new. -/
theorem Walked.insert (h : Walked snap target seen visited) {k : ℕ} (hk : k < MAX_REEXPORT_HOPS)
    (hsteps : Steps (Exposes snap) k target v) :
    Walked snap target (insert v seen)
      (visited ∪ ((snap.pubUses v).map Binding.key).toFinset) where
  visited key := by
    rw [Finset.mem_union, h.visited, List.mem_toFinset, List.mem_map]
    simp only [Finset.mem_insert, exists_eq_or_imp]
    exact or_comm
  seen u hu := by
    rcases Finset.mem_insert.1 hu with rfl | hu
    · exact ⟨k, hk, hsteps⟩
    · exact h.seen u hu

theorem eq_of_key (hdistinct : Distinct snap target) {binding other : Binding N}
    (hbinding : binding ∈ reached snap target) (hother : other ∈ reached snap target)
    (hkey : binding.key = other.key) : binding = other :=
  List.inj_on_of_nodup_map hdistinct hbinding hother hkey

/-- The bindings of what is exposed in fewer hops are within the limit. -/
theorem mem_reached_of_steps {binding : Binding N} {k : ℕ} (hk : k < MAX_REEXPORT_HOPS)
    (hsteps : Steps (Exposes snap) k target v) (h : binding ∈ snap.pubUses v) :
    binding ∈ reached snap target := by
  obtain rfl := (mem_pubUses.1 h).2.1
  exact mem_reached.2 ⟨h, k, hk, hsteps⟩

/-- So the bindings of one target have different keys. -/
theorem nodup_keys (hdistinct : Distinct snap target) {k : ℕ} (hk : k < MAX_REEXPORT_HOPS)
    (hsteps : Steps (Exposes snap) k target v) : ((snap.pubUses v).map Binding.key).Nodup := by
  have hpubUses : snap.pubUses v = (reached snap target).filter fun binding ↦
      binding.target = v := by
    classical
    rw [reached, List.filter_filter, OpenedSnapshot.pubUses, OpenedSnapshot.bindingsForTarget,
      List.filter_filter]
    refine List.filter_congr fun binding hmem ↦ ?_
    rw [Bool.eq_iff_iff]
    simp only [Bool.and_eq_true, decide_eq_true_eq]
    rw [and_comm]
    refine and_congr_right fun htarget ↦ ⟨fun hexplicit ↦ ?_, ?_⟩
    · refine ⟨k + 1, hk, reaches_iff.2 ⟨k, rfl, htarget ▸ hsteps, ?_⟩⟩
      exact mem_pubUses.2 ⟨hmem, rfl, hexplicit⟩
    · rintro ⟨n, -, hreaches⟩
      obtain ⟨-, -, -, hmem⟩ := reaches_iff.1 hreaches
      exact (mem_pubUses.1 hmem).2.2
  rw [hpubUses]
  exact hdistinct.sublist (List.filter_sublist.map _)

theorem pop_of_seen (h : Walked snap target seen visited) (hv : v ∈ seen) :
    snap.pop v d ⟨rest, visited, links⟩ = ⟨rest, visited, links⟩ :=
  pop_of_mem fun binding hbinding ↦ (h.visited _).2 ⟨v, hv, binding, hbinding, rfl⟩

/-- Of a new target nothing was visited. -/
theorem not_visited (hdistinct : Distinct snap target) (h : Walked snap target seen visited)
    (hv : v ∉ seen) {k : ℕ} (hk : k < MAX_REEXPORT_HOPS) (hsteps : Steps (Exposes snap) k target v)
    {binding : Binding N} (hbinding : binding ∈ snap.pubUses v) : binding.key ∉ visited := by
  intro hmem
  obtain ⟨u, hu, other, hother, hkey⟩ := (h.visited _).1 hmem
  obtain ⟨k', hk', hsteps'⟩ := h.seen u hu
  have heq := eq_of_key hdistinct (mem_reached_of_steps hk' hsteps' hother)
    (mem_reached_of_steps hk hsteps hbinding) hkey
  rw [← (mem_pubUses.1 hother).2.1, heq, (mem_pubUses.1 hbinding).2.1] at hu
  exact hv hu

theorem path_ne_nil {place : Place N} (h : place ∈ (descendAll snap.reExporters n l seen).1) :
    place.path ≠ [] := by
  induction l generalizing seen with
  | nil => exact absurd h List.not_mem_nil
  | cons v l ih =>
    rcases List.mem_append.1 h with h | h
    · exact ((forest_descend (nodup_reExporters snap) n v seen).way _ h).1.ne_nil
    · exact ih h

/-- The frontier of one target after another, those without bindings left out. -/
theorem run_all (rest : List (N × ℕ)) (links : List (ReExportLink N))
    (ih : ∀ {v} rest links {visited seen}, Steps (Exposes snap) d target v →
      Walked snap target seen visited → ∃ visited',
        snap.run ⟨(v, d + 1) :: rest, visited, links⟩ = snap.run ⟨rest, visited',
          links ++ reports snap (d + 1) (descend snap.reExporters n v seen).1⟩ ∧
        Walked snap target (descend snap.reExporters n v seen).2 visited')
    (hl : ∀ v ∈ l, Steps (Exposes snap) d target v) (h : Walked snap target seen visited) :
    ∃ visited', snap.run ⟨(l.map fun v ↦ (v, d + 1)) ++ rest, visited, links⟩ =
      snap.run ⟨rest, visited', links ++ reports snap (d + 1)
        (descendAll snap.reExporters n (l.filter fun v ↦ !(snap.pubUses v).isEmpty) seen).1⟩ ∧
      Walked snap target
        (descendAll snap.reExporters n (l.filter fun v ↦ !(snap.pubUses v).isEmpty) seen).2
        visited' := by
  induction l generalizing visited links seen with
  | nil => exact ⟨visited, by rw [List.filter_nil, descendAll, reports, unpruned]; simp, h⟩
  | cons v l ihl =>
    obtain ⟨hv, hl⟩ := List.forall_mem_cons.1 hl
    rw [List.map_cons, List.cons_append]
    by_cases hempty : snap.pubUses v = []
    · rw [List.filter_cons_of_neg (by simp [hempty]), run_cons,
        pop_of_mem fun binding hbinding ↦ absurd (hempty ▸ hbinding) List.not_mem_nil]
      exact ihl links hl h
    · obtain ⟨visited', hrun, h'⟩ := ih ((l.map fun v ↦ (v, d + 1)) ++ rest) links hv h
      obtain ⟨visited'', hrun', h''⟩ := ihl _ hl h'
      rw [List.filter_cons_of_pos (by simp [hempty]), descendAll]
      refine ⟨visited'', ?_, h''⟩
      rw [hrun, hrun', reports_append, List.append_assoc]

theorem reports_singleton (v : N) : reports snap (d + 1) [⟨[v], false⟩] =
    (snap.pubUses v).map (snap.linkOf (d + 1)) := by
  simp [reports, unpruned]

theorem reports_pruned (v : N) : reports snap d [⟨[v], true⟩] = [] := by
  simp [reports, unpruned]

/-- A new target is popped. -/
theorem run_of_new (hdistinct : Distinct snap target) (hd : d < MAX_REEXPORT_HOPS)
    (hv : Steps (Exposes snap) d target v) (h : Walked snap target seen visited) (hnew : v ∉ seen) :
    snap.run ⟨(v, d + 1) :: rest, visited, links⟩ =
      snap.run ⟨pushed snap v (d + 1) ++ rest,
        visited ∪ ((snap.pubUses v).map Binding.key).toFinset,
        links ++ (snap.pubUses v).map (snap.linkOf (d + 1))⟩ := by
  rw [run_cons, pop_of_new hd (nodup_keys hdistinct hd hv)
    fun _ hbinding ↦ not_visited hdistinct h hnew hd hv hbinding]

/-- **The walk of a target is the descent** from it, as far as hops are left. -/
theorem run_descend (rest : List (N × ℕ)) (links : List (ReExportLink N))
    (hdistinct : Distinct snap target) (hd : d + n + 1 = MAX_REEXPORT_HOPS)
    (hv : Steps (Exposes snap) d target v) (h : Walked snap target seen visited) :
    ∃ visited', snap.run ⟨(v, d + 1) :: rest, visited, links⟩ = snap.run ⟨rest, visited',
        links ++ reports snap (d + 1) (descend snap.reExporters n v seen).1⟩ ∧
      Walked snap target (descend snap.reExporters n v seen).2 visited' := by
  have hk : d < MAX_REEXPORT_HOPS := by omega
  induction n generalizing d v rest visited links seen with
  | zero =>
    by_cases hmem : v ∈ seen
    · rw [descend_of_mem hmem, reports_pruned, List.append_nil]
      exact ⟨visited, by rw [run_cons, pop_of_seen h hmem], h⟩
    · rw [descend, if_neg hmem, reports_singleton]
      refine ⟨visited ∪ ((snap.pubUses v).map Binding.key).toFinset, ?_, h.insert hk hv⟩
      rw [run_of_new hdistinct hk hv h hmem, pushed, if_neg (by omega)]
      rfl
  | succ n ih =>
    by_cases hmem : v ∈ seen
    · rw [descend_of_mem hmem, reports_pruned, List.append_nil]
      exact ⟨visited, by rw [run_cons, pop_of_seen h hmem], h⟩
    · have hmodules : ∀ w ∈ ((snap.pubUses v).map fun binding ↦ binding.fromModule).reverse,
          Steps (Exposes snap) (d + 1) target w := by
        intro w hw
        obtain ⟨binding, hbinding, rfl⟩ := List.mem_map.1 (List.mem_reverse.1 hw)
        exact hv.snoc ⟨binding, hbinding, rfl⟩
      obtain ⟨visited', hrun, h'⟩ := run_all rest
        (links ++ (snap.pubUses v).map (snap.linkOf (d + 1)))
        (fun rest links _ _ hsteps h ↦ ih rest links (d := d + 1) (by omega) hsteps h (by omega))
        hmodules (h.insert hk hv)
      obtain ⟨hplaces, hseen⟩ := descendAll_eraseDups snap.reExporters n
        (((snap.pubUses v).map fun binding ↦ binding.fromModule).reverse.filter fun module ↦
          !(snap.pubUses module).isEmpty) (insert v seen)
      rw [descend_succ hmem]
      refine ⟨visited', ?_, ?_⟩
      · rw [run_of_new hdistinct hk hv h hmem, pushed, if_pos (by omega), hrun,
          ← List.singleton_append, reports_append, reports_singleton,
          reports_under (fun _ ↦ path_ne_nil), List.append_assoc]
        rw [reports, ← hplaces]
        rfl
      · rw [OpenedSnapshot.reExporters, hseen]
        exact h'

end Descent

/-! ### Chains -/

section Chains

variable {N : Type} [DecidableEq N] {snap : OpenedSnapshot N} {target : N}

/-- The links have the keys that were visited, each once. -/
structure Keyed (walk : Walk N) : Prop where
  nodup : (walk.links.map ReExportLink.key).Nodup
  visited : ∀ link ∈ walk.links, link.key ∈ walk.visited

/-- A visit adds one link with its key. -/
theorem Keyed.visit {walk : Walk N} (h : Keyed walk) (d : ℕ) (binding : Binding N) :
    Keyed (snap.visit d walk binding) := by
  rw [OpenedSnapshot.visit]
  split
  · exact h
  split
  · exact h
  · rename_i hnew
    constructor
    · rw [List.map_append, List.nodup_append]
      refine ⟨h.nodup, List.nodup_singleton _, fun key hkey key' hkey' heq ↦ hnew ?_⟩
      obtain ⟨link, hlink, rfl⟩ := List.mem_map.1 hkey
      rw [List.map_singleton, List.mem_singleton] at hkey'
      have hvisited := h.visited link hlink
      rw [heq, hkey'] at hvisited
      exact hvisited
    · intro link hlink
      rcases List.mem_append.1 hlink with hlink | hlink
      · exact Finset.mem_insert_of_mem (h.visited link hlink)
      · rw [List.mem_singleton.1 hlink]
        exact Finset.mem_insert_self _ _

theorem Keyed.run {walk : Walk N} (h : Keyed walk) : Keyed (snap.run walk) := by
  induction walk using OpenedSnapshot.run.induct snap with
  | case1 walk hfrontier =>
    rw [OpenedSnapshot.run]
    split
    · exact h
    · rename_i heq
      rw [hfrontier] at heq
      cases heq
  | case2 walk v d rest hfrontier ih =>
    have hpop : ∀ walk : Walk N, Keyed walk → Keyed (snap.pop v d walk) := by
      intro walk h
      rw [OpenedSnapshot.pop]
      split
      · exact h
      · generalize snap.bindingsForTarget v = l
        induction l generalizing walk with
        | nil => exact h
        | cons binding l ihl => exact ihl _ (h.visit d binding)
    obtain ⟨frontier, visited, links⟩ := walk
    obtain rfl : frontier = (v, d) :: rest := hfrontier
    rw [run_cons]
    exact ih (hpop _ ⟨h.nodup, h.visited⟩)

/-- The links of the places of a descent. -/
theorem mem_reports {places : List (Place N)} {link : ReExportLink N} :
    link ∈ reports snap 1 places ↔ ∃ p, ⟨p, false⟩ ∈ places ∧ ∃ v, p.getLast? = some v ∧
      ∃ binding ∈ snap.pubUses v, snap.linkOf p.length binding = link := by
  rw [reports, List.mem_flatMap]
  constructor
  · rintro ⟨⟨p, pruned⟩, hp, hlink⟩
    obtain ⟨hp, hpruned⟩ := List.mem_filter.1 hp
    obtain rfl : pruned = false := by simpa using hpruned
    obtain ⟨binding, hbinding, rfl⟩ := List.mem_map.1 hlink
    rcases hlast : p.getLast? with - | v
    · rw [hlast] at hbinding
      exact absurd hbinding List.not_mem_nil
    · rw [hlast] at hbinding
      exact ⟨p, hp, v, hlast, binding, hbinding, by rw [Nat.add_sub_cancel_left]⟩
  · rintro ⟨p, hp, v, hlast, binding, hbinding, rfl⟩
    refine ⟨⟨p, false⟩, List.mem_filter.2 ⟨hp, rfl⟩, List.mem_map.2 ⟨binding, ?_, ?_⟩⟩
    · rw [hlast]
      exact hbinding
    · rw [Nat.add_sub_cancel_left]

/-- The chain, where keys are distinct. -/
theorem mem_links (hdistinct : Distinct snap target) {link : ReExportLink N} :
    link ∈ (snap.reExportChain target).links ↔
      ∃ p, ⟨p, false⟩ ∈ (descend snap.reExporters (MAX_REEXPORT_HOPS - 1) target ∅).1 ∧
        ∃ v, p.getLast? = some v ∧ ∃ binding ∈ snap.pubUses v,
          snap.linkOf p.length binding = link := by
  have hempty : Walked snap target ∅ ∅ :=
    ⟨fun key ↦ by simp, fun v hv ↦ absurd hv (Finset.notMem_empty v)⟩
  obtain ⟨visited, hrun, -⟩ := run_descend (d := 0) (n := MAX_REEXPORT_HOPS - 1) [] [] hdistinct
    rfl rfl hempty
  rw [OpenedSnapshot.reExportChain, (rankBy_perm _ _).mem_iff, hrun, run_nil, ← mem_reports]
  rfl

/-- No two links of a chain have one key. -/
theorem nodup_links : ((snap.reExportChain target).links.map ReExportLink.key).Nodup := by
  rw [OpenedSnapshot.reExportChain, ((rankBy_perm _ _).map _).nodup_iff]
  have hstart : Keyed (⟨[(target, 1)], ∅, []⟩ : Walk N) :=
    ⟨List.nodup_nil, fun _ h ↦ absurd h List.not_mem_nil⟩
  exact hstart.run.nodup

/-- In a complete chain no two bindings share a key. -/
theorem distinct_of_complete (h : Complete snap target (snap.reExportChain target).links) :
    Distinct snap target := by
  obtain ⟨depth, -, hperm⟩ := h
  have hnodup := (hperm.map ReExportLink.key).nodup_iff.1 nodup_links
  rw [List.map_map] at hnodup
  exact hnodup

/-- The end of a way within the hop limit is exposed, if anything exposes it, by bindings within the
limit. -/
theorem reaches_of_isWay {p : List N} {v : N} {binding : Binding N}
    (h : IsWay snap.reExporters [target] p) (hlast : p.getLast? = some v)
    (hbinding : binding ∈ snap.pubUses v) : Reaches snap target p.length binding := by
  obtain ⟨k, hlength, hsteps, -⟩ := steps_of_isWay h hlast
  obtain rfl := (mem_pubUses.1 hbinding).2.1
  exact reaches_iff.2 ⟨k, hlength, hsteps, hbinding⟩

/-- What is reached within the limit is within the limit. -/
theorem mem_reached_of_reaches {n : ℕ} {binding : Binding N}
    (h : Reaches snap target n binding) (hn : n ≤ MAX_REEXPORT_HOPS) :
    binding ∈ reached snap target := by
  obtain ⟨k, rfl, hsteps, hmem⟩ := reaches_iff.1 h
  exact mem_reached.2 ⟨hmem, k, hn, hsteps⟩

/-- A binding that is reached in some number of hops has a way of that length to its target. -/
theorem exists_isWay_of_reaches {n : ℕ} {binding : Binding N} (h : Reaches snap target n binding) :
    ∃ p, IsWay snap.reExporters [target] p ∧ p.length = n ∧
      p.getLast? = some binding.target := by
  obtain ⟨k, rfl, hsteps, hmem⟩ := reaches_iff.1 h
  exact exists_isWay hsteps (List.ne_nil_of_mem hmem)

/-- A complete chain is that of a descent that expands its shortest ways. -/
theorem expands_of_complete (hcomplete : Complete snap target (snap.reExportChain target).links) :
    Expands (descend snap.reExporters (MAX_REEXPORT_HOPS - 1) target ∅).1 := by
  have hdistinct := distinct_of_complete hcomplete
  obtain ⟨depth, hleast, hperm⟩ := hcomplete
  have hforest := forest_descend (nodup_reExporters snap) (MAX_REEXPORT_HOPS - 1) target ∅
  intro q hq _
  obtain ⟨hway, hlength⟩ := hforest.way q hq
  obtain ⟨v, hlast⟩ := hway.exists_last
  rcases hempty : snap.pubUses v with - | ⟨binding, more⟩
  · -- Only the target itself may have nothing that exposes it.
    obtain ⟨k, hk, -, hv⟩ := steps_of_isWay hway hlast
    obtain rfl := hv.resolve_right fun hne ↦ hne hempty
    obtain ⟨p, hp, hplast, hone, -⟩ := hforest.exists_unpruned_root
    exact ⟨_, hp, rfl, hplast.trans hlast.symm, by rw [hone, hk]; omega⟩
  · have hbinding : binding ∈ snap.pubUses v := hempty ▸ List.mem_cons_self
    have hreaches := reaches_of_isWay hway hlast hbinding
    have hmem : snap.linkOf (depth binding) binding ∈ (snap.reExportChain target).links :=
      hperm.mem_iff.2 (List.mem_map_of_mem (mem_reached_of_reaches hreaches hlength))
    obtain ⟨p, hp, u, hplast, other, hother, hlink⟩ := (mem_links hdistinct).1 hmem
    have hdepth : p.length = depth binding := congrArg ReExportLink.depth hlink
    -- The link is the binding's own.
    have heq : other = binding := eq_of_key hdistinct
      (mem_reached_of_reaches (reaches_of_isWay (hforest.way _ hp).1 hplast hother)
        (hforest.way _ hp).2)
      (mem_reached_of_reaches hreaches hlength) (congrArg ReExportLink.key hlink)
    obtain rfl : u = v := by
      rw [← (mem_pubUses.1 hother).2.1, heq, (mem_pubUses.1 hbinding).2.1]
    refine ⟨_, hp, rfl, hplast.trans hlast.symm, ?_⟩
    show p.length ≤ q.path.length
    rw [hdepth]
    exact (hleast binding _ hreaches).2

/-- And the other way round, where keys are distinct. -/
theorem complete_of_expands (hdistinct : Distinct snap target)
    (hexpands : Expands (descend snap.reExporters (MAX_REEXPORT_HOPS - 1) target ∅).1) :
    Complete snap target (snap.reExportChain target).links := by
  classical
  have hforest := forest_descend (nodup_reExporters snap) (MAX_REEXPORT_HOPS - 1) target ∅
  let depth : Binding N → ℕ := fun binding ↦
    if h : ∃ n, Reaches snap target n binding then Nat.find h else 0
  have hleast : ∀ binding n, Reaches snap target n binding →
      Reaches snap target (depth binding) binding ∧ depth binding ≤ n := by
    intro binding n h
    have hdepth : depth binding = Nat.find ⟨n, h⟩ := dif_pos ⟨n, h⟩
    rw [hdepth]
    exact ⟨Nat.find_spec (⟨n, h⟩ : ∃ n, Reaches snap target n binding), Nat.find_min' _ h⟩
  -- What is not pruned is at the least depth.
  have hshort : ∀ p v binding, ⟨p, false⟩ ∈ (descend snap.reExporters (MAX_REEXPORT_HOPS - 1)
      target ∅).1 → p.getLast? = some v → binding ∈ snap.pubUses v →
      binding ∈ reached snap target ∧ p.length = depth binding := by
    intro p v binding hp hlast hbinding
    have hreaches := reaches_of_isWay (hforest.way _ hp).1 hlast hbinding
    refine ⟨mem_reached_of_reaches hreaches (hforest.way _ hp).2, Nat.le_antisymm ?_
      (hleast binding _ hreaches).2⟩
    obtain ⟨w, hw, hlength, hwlast⟩ := exists_isWay_of_reaches (hleast binding _ hreaches).1
    rw [← hlength]
    refine hforest.length_le_of_expands hexpands hp hw (hwlast.trans ?_)
    rw [hlast, (mem_pubUses.1 hbinding).2.1]
  refine ⟨depth, hleast, (List.perm_ext_iff_of_nodup (nodup_links.of_map _) ?_).2 fun link ↦ ?_⟩
  · refine List.Nodup.of_map ReExportLink.key ?_
    rw [List.map_map]
    exact hdistinct
  · rw [mem_links hdistinct, List.mem_map]
    constructor
    · rintro ⟨p, hp, v, hlast, binding, hbinding, rfl⟩
      obtain ⟨hmem, hlength⟩ := hshort p v binding hp hlast hbinding
      exact ⟨binding, hmem, by rw [hlength]⟩
    · rintro ⟨binding, hmem, rfl⟩
      obtain ⟨hbinding, k, hk, hsteps⟩ := mem_reached.1 hmem
      obtain ⟨w, hw, hlength, hwlast⟩ := exists_isWay hsteps (List.ne_nil_of_mem hbinding)
      obtain ⟨p, hp, hlast, -⟩ := hforest.exists_shallow hexpands hw (by omega)
      refine ⟨p, hp, binding.target, hlast.trans hwlast, binding, hbinding, ?_⟩
      rw [(hshort p _ binding hp (hlast.trans hwlast) hbinding).2]

/-- **A chain is complete exactly when no two bindings share a key and the first way to each target
is a shortest one.** -/
theorem reExportChain_iff (snap : OpenedSnapshot N) (target : N) :
    Complete snap target (snap.reExportChain target).links ↔
      Distinct snap target ∧ ShortestFirst snap.reExporters (MAX_REEXPORT_HOPS - 1) target := by
  rw [← (forest_descend (nodup_reExporters snap) (MAX_REEXPORT_HOPS - 1) target ∅).expands_iff]
  constructor
  · exact fun h ↦ ⟨distinct_of_complete h, expands_of_complete h⟩
  · exact fun ⟨hdistinct, hexpands⟩ ↦ complete_of_expands hdistinct hexpands

end Chains

/-! ### Two items under one name -/

/-- A function in module `2`, which `3` exposes beside the function. -/
def twice : OpenedSnapshot ℕ where
  nodes := [⟨1, .item, ['r'], ['a', ':', ':', 'r'], none, some .function, none, none⟩,
    ⟨2, .module, ['r'], ['b', ':', ':', 'r'], none, none, none, none⟩,
    ⟨3, .module, ['c'], ['b', ':', ':', 'c'], none, none, none, none⟩]
  nodup := by decide
  bindings := [⟨⟨2, .value, ['r'], 1, .namedImport⟩, true⟩,
    ⟨⟨3, .value, ['r'], 1, .namedImport⟩, true⟩, ⟨⟨3, .type, ['r'], 2, .namedImport⟩, true⟩]

/-- The module `2` has no link. -/
theorem twice_incomplete : ¬ Complete twice 1 (twice.reExportChain 1).links := by
  intro h
  have hfirst : Reaches twice 1 1 ⟨⟨2, .value, ['r'], 1, .namedImport⟩, true⟩ :=
    .direct (by decide)
  have hsecond : Reaches twice 1 1 ⟨⟨3, .value, ['r'], 1, .namedImport⟩, true⟩ :=
    .direct (by decide)
  have hthird : Reaches twice 1 2 ⟨⟨3, .type, ['r'], 2, .namedImport⟩, true⟩ :=
    .hop hfirst (by decide)
  have heq := eq_of_key (distinct_of_complete h) (mem_reached_of_reaches hsecond (by decide))
    (mem_reached_of_reaches hthird (by decide)) rfl
  exact absurd heq (by decide)

end RustCodeMcp.ReExports
