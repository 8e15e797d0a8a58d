import RustCodeMcp.Query.ForbiddenEdges

/-!
# Dependencies of a module

The imports of a module and its other references are summed up by the modules that they lead to: the
one an item is declared in, or else a module, a crate or an external symbol itself. A row says all
that leads to its module (`summarised_moduleDependencies`), and the rows of the modules of a crate
say together what the report on crate edges says (`moduleDependencies_agree`).

**What something leads to** is found by going up from the target: an item leads to what it is
declared in, and so on until a module, a crate or an external symbol. Declarations of items in items
are finite, and the walk is bounded by how many items there are, so the fuel that it is given is
enough.

The two reports agree where the nodes are placed as an extraction places them (`WellPlaced`): an
item is declared in a node of its own crate, and is not within too many others. This is assumed of
the snapshot here; nothing is said of how it came to be.
-/

namespace RustCodeMcp.ModuleGraph

open Grouping Ranking
open Navigation
open CrateEdges (Reference)

/-- A snapshot with what else its nodes say. -/
structure OpenedSnapshot (N : Type) extends toReferences : CrateEdges.OpenedSnapshot N where
  parentId : N → Option N
  declarationModule : N → Option N

/-- A target of a row, with how often it is referred to. -/
structure ModuleDependencySymbol where
  targetQualified : Name
  targetKind : String
  importCount : ℕ
  usageCount : ℕ
  bindingKinds : List String
  deriving DecidableEq

/-- A row: what is depended on, and by which symbols. -/
structure ModuleDependency where
  targetModule : Name
  targetKind : String
  targetCrate : Option Name
  importCount : ℕ
  usageCount : ℕ
  symbols : List ModuleDependencySymbol
  deriving DecidableEq

/-- A row as it is summed up. -/
structure ModuleDependencyAccumulator (N : Type) where
  targetModule : Name
  targetKind : String
  targetCrate : Option Name
  importCount : ℕ
  usageCount : ℕ
  symbols : List (N × ModuleDependencySymbol)

/-- A reference from a module: what it leads to, what it names, and the kind of an import. -/
structure Lead (N : Type) where
  dependency : N
  target : N
  kind : Option BindingKind

section Model

variable {N : Type} [LinearOrder N]

/-- The values of a map that is iterated by the order of its keys. -/
def values {α : Type} (entries : List (N × α)) : List α :=
  (rankBy (fun entry ↦ OrderDual.toDual entry.1) entries).map Prod.snd

/-- One reference more. -/
def ModuleDependencySymbol.add (kind : Option BindingKind) (symbol : ModuleDependencySymbol) :
    ModuleDependencySymbol :=
  match kind with
  | some kind => { symbol with
      importCount := symbol.importCount + 1
      bindingKinds := symbol.bindingKinds.insert (bindingKindLabel kind) }
  | none => { symbol with usageCount := symbol.usageCount + 1 }

/-- The kinds in the order of a `BTreeSet`. -/
def ModuleDependencySymbol.intoSymbol (symbol : ModuleDependencySymbol) :
    ModuleDependencySymbol :=
  { symbol with
    bindingKinds := rankBy (fun kind ↦ OrderDual.toDual kind.toList) symbol.bindingKinds }

/-- The row, with its symbols in their order. -/
def ModuleDependencyAccumulator.intoDependency (acc : ModuleDependencyAccumulator N) :
    ModuleDependency where
  targetModule := acc.targetModule
  targetKind := acc.targetKind
  targetCrate := acc.targetCrate
  importCount := acc.importCount
  usageCount := acc.usageCount
  symbols := rankBy (fun symbol ↦ OrderDual.toDual symbol.targetQualified)
    ((values acc.symbols).map ModuleDependencySymbol.intoSymbol)

/-- By crate, and then by name. -/
def ModuleDependency.rank (row : ModuleDependency) : (Name ×ₗ Name)ᵒᵈ :=
  OrderDual.toDual (toLex (row.targetModule, row.targetKind.toList))

namespace OpenedSnapshot

variable (snap : OpenedSnapshot N)

/-- What an item is declared in, or else its parent. -/
def owner (id : N) : Option N :=
  (snap.declarationModule id).or (snap.parentId id)

/-- A node that is depended on, or else what an item is declared in. -/
def dependencyStep (current : N) : Option (Node N ⊕ N) := do
  let node ← snap.get current
  match node.kind with
  | .module | .crate | .externalSymbol => some (.inl node)
  | .workspace => none
  | .item => (snap.owner current).map .inr

/-- The fuel is how many items may still be left for what they are declared in. -/
def dependencyNodeFor : ℕ → N → Option (Node N)
  | 0, current => (snap.dependencyStep current).bind (Sum.elim some fun _ ↦ none)
  | fuel + 1, current => (snap.dependencyStep current).bind (Sum.elim some (dependencyNodeFor fuel))

/-- What a target leads to. -/
def dependencyOf (target : N) : Option N :=
  (snap.dependencyNodeFor 32 target).map Node.id

/-- The label of a node's crate. -/
def crateLabel (id : N) : Option Name :=
  (snap.nodeToCrate id).bind snap.targetLabels

variable (hex : N → Name) (module : N)

/-- A reference from the module to something else. -/
def lead (target : N) (kind : Option BindingKind) : Option (Lead N) := do
  let dependency ← snap.dependencyOf target
  if dependency = module then none else some ⟨dependency, target, kind⟩

/-- The lead of a binding that is no declaration. -/
def importLead (binding : Binding N) : Option (Lead N) :=
  if binding.fromModule = module ∧ binding.kind ≠ .declared then
    snap.lead module binding.target (some binding.kind)
  else none

/-- The lead of a usage. -/
def usageLead (usage : Ownership.Usage N) : Option (Lead N) :=
  if usage.consumerModule = module then snap.lead module usage.target none else none

/-- All leads of a module, imports first. -/
def leads : List (Lead N) :=
  snap.bindings.filterMap (snap.importLead module) ++
    snap.usages.filterMap (snap.usageLead module)

/-- A symbol without references. -/
def newSymbol (target : N) : ModuleDependencySymbol where
  targetQualified := ((snap.get target).map Node.qualifiedName).getD (hex target)
  targetKind := ((snap.get target).map fun node ↦ nodeKindLabel node itemKindShortLabel).getD
    "Unknown"
  importCount := 0
  usageCount := 0
  bindingKinds := []

/-- A row without references. -/
def newDependency (id : N) : ModuleDependencyAccumulator N where
  targetModule := snap.nodeQual id
  targetKind := snap.nodeKind id
  targetCrate := snap.crateLabel id
  importCount := 0
  usageCount := 0
  symbols := []

/-- One lead more, to its row. -/
def addLead (l : Lead N) (acc : ModuleDependencyAccumulator N) : ModuleDependencyAccumulator N :=
  { acc with
    importCount := acc.importCount + l.kind.isSome.toNat
    usageCount := acc.usageCount + l.kind.isNone.toNat
    symbols := upsert l.target (snap.newSymbol hex l.target) (ModuleDependencySymbol.add l.kind)
      acc.symbols }

/-- The rows of a module as they are summed up. -/
def dependencyMap : List (N × ModuleDependencyAccumulator N) :=
  accumulate Lead.dependency snap.newDependency (snap.addLead hex) (snap.leads module)

/-- The report. -/
def moduleDependencies : List ModuleDependency :=
  rankBy ModuleDependency.rank ((values (snap.dependencyMap hex module)).map
    ModuleDependencyAccumulator.intoDependency)

end OpenedSnapshot

end Model

/-! ### What the rows are about -/

section Summary

variable {N : Type} [LinearOrder N] {snap : OpenedSnapshot N} {hex : N → Name} {module : N}
  {id target : N} {imported : Bool}

/-- What a row counts: imports, or other references. -/
def ModuleDependency.count (imported : Bool) (row : ModuleDependency) : ℕ :=
  if imported then row.importCount else row.usageCount

/-- What a symbol counts: imports, or other references. -/
def ModuleDependencySymbol.count (imported : Bool) (symbol : ModuleDependencySymbol) : ℕ :=
  if imported then symbol.importCount else symbol.usageCount

/-- The same for a row that is summed up. -/
def ModuleDependencyAccumulator.count (imported : Bool) (acc : ModuleDependencyAccumulator N) : ℕ :=
  if imported then acc.importCount else acc.usageCount

namespace OpenedSnapshot

variable (snap : OpenedSnapshot N)

/-- The imports, or else the other references: the module that has one, and what it names. -/
def refs (imported : Bool) : List (N × N) :=
  if imported then
    (snap.bindings.filter fun binding ↦ binding.kind ≠ .declared).map
      fun binding ↦ (binding.fromModule, binding.target)
  else snap.usages.map fun usage ↦ (usage.consumerModule, usage.target)

/-- A reference of the module leads to that. -/
def Leads (module id : N) (ref : N × N) : Prop :=
  ref.1 = module ∧ snap.dependencyOf ref.2 = some id

instance (module id : N) : DecidablePred (snap.Leads module id) :=
  fun _ ↦ inferInstanceAs (Decidable (_ ∧ _))

/-- How many references of the module lead to that. -/
def countTo (imported : Bool) (module id : N) : ℕ :=
  (snap.refs imported).countP fun ref ↦ snap.Leads module id ref

/-- How many references of the module name that. -/
def countNaming (imported : Bool) (module target : N) : ℕ :=
  (snap.refs imported).countP fun ref ↦ ref = (module, target)

end OpenedSnapshot

/-- What a symbol of a row says. -/
structure Tells (snap : OpenedSnapshot N) (module target : N) (symbol : ModuleDependencySymbol) :
    Prop where
  qualified : symbol.targetQualified = snap.nodeQual target
  kind : symbol.targetKind = snap.nodeKind target
  counts : ∀ imported, symbol.count imported = snap.countNaming imported module target
  bindingKinds : ∀ label, label ∈ symbol.bindingKinds ↔ ∃ binding ∈ snap.bindings,
    binding.kind ≠ .declared ∧ binding.fromModule = module ∧ binding.target = target ∧
      label = bindingKindLabel binding.kind

/-- What a row says, and what its symbols do: each target that a reference of the module names is
there once, if it leads to the row. -/
structure Sums (snap : OpenedSnapshot N) (module id : N) (row : ModuleDependency) : Prop where
  name : row.targetModule = snap.nodeQual id
  kind : row.targetKind = snap.nodeKind id
  crate : row.targetCrate = snap.crateLabel id
  counts : ∀ imported, row.count imported = snap.countTo imported module id
  sorted : row.symbols.Pairwise fun a b ↦ a.targetQualified ≤ b.targetQualified
  symbols : ∃ symbols : List (N × ModuleDependencySymbol),
    (symbols.map Prod.snd).Perm row.symbols ∧ (symbols.map Prod.fst).Nodup ∧
    (∀ target, target ∈ symbols.map Prod.fst ↔ snap.dependencyOf target = some id ∧
      ∃ imported, 0 < snap.countNaming imported module target) ∧
    ∀ entry ∈ symbols, Tells snap module entry.1 entry.2

/-- The report says all that the references of the module lead to, each once. -/
structure Summarised (snap : OpenedSnapshot N) (module : N) (report : List ModuleDependency) :
    Prop where
  sorted : report.Pairwise fun a b ↦ b.rank ≤ a.rank
  rows : ∃ rows : List (N × ModuleDependency), (rows.map Prod.snd).Perm report ∧
    (rows.map Prod.fst).Nodup ∧
    (∀ id, id ∈ rows.map Prod.fst ↔ id ≠ module ∧ ∃ imported, 0 < snap.countTo imported module id) ∧
    ∀ entry ∈ rows, Sums snap module entry.1 entry.2

/-! ### Leads -/

theorem values_perm {α : Type} (entries : List (N × α)) :
    (values entries).Perm (entries.map Prod.snd) :=
  (rankBy_perm _ _).map _

theorem dependencyNodeFor_get {fuel : ℕ} {current : N} {node : Node N}
    (h : snap.dependencyNodeFor fuel current = some node) : (snap.get current).isSome := by
  have hstep : ∃ step, snap.dependencyStep current = some step := by
    cases fuel <;>
    · obtain ⟨step, hstep, -⟩ := Option.bind_eq_some_iff.1 h
      exact ⟨step, hstep⟩
  obtain ⟨step, hstep⟩ := hstep
  obtain ⟨node, hnode, -⟩ := Option.bind_eq_some_iff.1 hstep
  exact Option.isSome_iff_exists.2 ⟨node, hnode⟩

theorem lead_eq_some {kind : Option BindingKind} {l : Lead N} :
    snap.lead module target kind = some l ↔
      snap.dependencyOf target = some l.dependency ∧ l.dependency ≠ module ∧ l.target = target ∧
        l.kind = kind := by
  rw [OpenedSnapshot.lead]
  cases hdependency : snap.dependencyOf target with
  | none => simp
  | some dependency =>
    obtain ⟨dependency', target', kind'⟩ := l
    by_cases hmodule : dependency = module
    · simp only [Option.bind_eq_bind, Option.bind_some, if_pos hmodule, reduceCtorEq,
        Option.some.injEq, false_iff, not_and]
      rintro rfl hne
      exact absurd hmodule hne
    · simp only [Option.bind_eq_bind, Option.bind_some, if_neg hmodule, Option.some.injEq,
        Lead.mk.injEq]
      constructor
      · rintro ⟨rfl, rfl, rfl⟩
        exact ⟨rfl, hmodule, rfl, rfl⟩
      · rintro ⟨rfl, -, rfl, rfl⟩
        exact ⟨rfl, rfl, rfl⟩

theorem importLead_eq_some {binding : Binding N} {l : Lead N} :
    snap.importLead module binding = some l ↔
      (binding.fromModule = module ∧ binding.kind ≠ .declared) ∧
        snap.lead module binding.target (some binding.kind) = some l := by
  rw [OpenedSnapshot.importLead]
  split <;> simp [*]

theorem usageLead_eq_some {usage : Ownership.Usage N} {l : Lead N} :
    snap.usageLead module usage = some l ↔
      usage.consumerModule = module ∧ snap.lead module usage.target none = some l := by
  rw [OpenedSnapshot.usageLead]
  split <;> simp [*]

/-- What is wanted of a lead, asked of a reference. -/
def asked (snap : OpenedSnapshot N) (module : N) (p : N → N → Bool) (ref : N × N) : Bool :=
  decide (ref.1 = module) &&
    (snap.dependencyOf ref.2).any fun id ↦ decide (id ≠ module) && p id ref.2

/-- The leads of one kind are the references of that kind that lead elsewhere. -/
theorem countP_leads (p : N → N → Bool) (imported : Bool) :
    ((snap.leads module).countP fun l ↦ p l.dependency l.target && l.kind.isSome == imported) =
      (snap.refs imported).countP (asked snap module p) := by
  have hlead : ∀ target kind, ((snap.lead module target kind).map
      fun l ↦ p l.dependency l.target && l.kind.isSome == imported).getD false =
        ((kind.isSome == imported) && asked snap module p (module, target)) := by
    intro target kind
    rw [OpenedSnapshot.lead, asked]
    rcases snap.dependencyOf target with - | dependency
    · simp
    · by_cases hmodule : dependency = module
      · simp [hmodule]
      · simp [hmodule, Bool.and_comm]
  -- What another module refers to counts for nothing.
  have hother : ∀ m target, m ≠ module → asked snap module p (m, target) = false := by
    intro m target hne
    simp [asked, hne]
  -- An import counts unless its binding is a declaration, which leads nowhere.
  have himport : ∀ binding : Binding N, ((snap.importLead module binding).map
      fun l ↦ p l.dependency l.target && l.kind.isSome == imported).getD false =
        (imported && (asked snap module p (binding.fromModule, binding.target) &&
          decide (binding.kind ≠ .declared))) := by
    intro binding
    rw [OpenedSnapshot.importLead]
    split
    · rename_i h
      obtain ⟨rfl, hkind⟩ := h
      rw [hlead]
      cases imported <;> simp [hkind]
    · rename_i h
      by_cases hmodule : binding.fromModule = module
      · have hkind : binding.kind = .declared := by
          by_contra hkind
          exact h ⟨hmodule, hkind⟩
        simp [hkind]
      · rw [hother _ _ hmodule]
        simp
  have husage : ∀ usage : Ownership.Usage N, ((snap.usageLead module usage).map
      fun l ↦ p l.dependency l.target && l.kind.isSome == imported).getD false =
        (!imported && asked snap module p (usage.consumerModule, usage.target)) := by
    intro usage
    rw [OpenedSnapshot.usageLead]
    split
    · rename_i h
      subst h
      rw [hlead]
      cases imported <;> rfl
    · rename_i h
      rw [hother _ _ h, Bool.and_false]
      rfl
  rw [OpenedSnapshot.leads, List.countP_append, List.countP_filterMap, List.countP_filterMap]
  simp only [himport, husage]
  cases imported with
  | true =>
    rw [OpenedSnapshot.refs, if_pos rfl, List.countP_map, List.countP_filter]
    simp
  | false =>
    rw [OpenedSnapshot.refs, if_neg Bool.false_ne_true, List.countP_map]
    simp
    rfl

theorem exists_lead_iff (p : N → N → Bool) :
    (∃ l ∈ snap.leads module, p l.dependency l.target = true) ↔
      ∃ imported, 0 < (snap.refs imported).countP (asked snap module p) := by
  simp only [← countP_leads, List.countP_pos_iff, Bool.and_eq_true, beq_iff_eq]
  constructor
  · rintro ⟨l, hl, hp⟩
    exact ⟨l.kind.isSome, l, hl, hp, rfl⟩
  · rintro ⟨-, l, hl, hp, -⟩
    exact ⟨l, hl, hp⟩

/-- What leads to a row. -/
theorem asked_dependency (hid : id ≠ module) (ref : N × N) :
    asked snap module (fun dependency _ ↦ dependency = id) ref =
      decide (snap.Leads module id ref) := by
  rw [Bool.eq_iff_iff, decide_eq_true_iff, asked, OpenedSnapshot.Leads]
  rcases snap.dependencyOf ref.2 with - | dependency
  · simp
  · by_cases hdependency : dependency = id
    · simp [hdependency, hid]
    · simp [hdependency]

/-- What names a target of a row. -/
theorem asked_target (hid : id ≠ module) (hdependency : snap.dependencyOf target = some id)
    (ref : N × N) :
    asked snap module (fun dependency t ↦ dependency = id && t = target) ref =
      decide (ref = (module, target)) := by
  obtain ⟨m, t⟩ := ref
  by_cases ht : t = target
  · subst ht
    simp [asked, hdependency, hid]
  · have hne : (m, t) ≠ (module, target) := fun h ↦ ht (Prod.mk.inj h).2
    rw [decide_eq_false hne, asked]
    rcases snap.dependencyOf t with - | dependency <;> simp [ht]

/-! ### Sums -/

theorem foldl_addLead (leads : List (Lead N)) (acc : ModuleDependencyAccumulator N) :
    leads.foldl (fun acc l ↦ snap.addLead hex l acc) acc =
      { acc with
        importCount := acc.importCount + leads.countP fun l ↦ l.kind.isSome == true
        usageCount := acc.usageCount + leads.countP fun l ↦ l.kind.isSome == false
        symbols := leads.foldl (fun symbols l ↦ upsert l.target (snap.newSymbol hex l.target)
          (ModuleDependencySymbol.add l.kind) symbols) acc.symbols } := by
  induction leads generalizing acc with
  | nil => rfl
  | cons l leads ih =>
    rw [List.foldl_cons, ih, List.foldl_cons, List.countP_cons, List.countP_cons]
    obtain ⟨dependency, target, kind⟩ := l
    cases kind <;> simp [OpenedSnapshot.addLead] <;> omega

omit [LinearOrder N] in
theorem foldl_add (leads : List (Lead N)) (symbol : ModuleDependencySymbol) :
    let sum := leads.foldl (fun symbol l ↦ symbol.add l.kind) symbol
    sum.targetQualified = symbol.targetQualified ∧ sum.targetKind = symbol.targetKind ∧
      (∀ imported, sum.count imported = symbol.count imported +
        leads.countP fun l ↦ l.kind.isSome == imported) ∧
      ∀ label, label ∈ sum.bindingKinds ↔ label ∈ symbol.bindingKinds ∨
        ∃ l ∈ leads, ∃ kind, l.kind = some kind ∧ label = bindingKindLabel kind := by
  induction leads generalizing symbol with
  | nil => simp
  | cons l leads ih =>
    obtain ⟨hqualified, hkind, hcount, hkinds⟩ := ih (symbol.add l.kind)
    obtain ⟨dependency, target, kind⟩ := l
    refine ⟨hqualified.trans ?_, hkind.trans ?_, fun imported ↦ (hcount imported).trans ?_,
      fun label ↦ (hkinds label).trans ?_⟩
    · cases kind <;> rfl
    · cases kind <;> rfl
    · rw [List.countP_cons]
      cases kind <;> cases imported <;>
        simp [ModuleDependencySymbol.add, ModuleDependencySymbol.count] <;> omega
    · cases kind with
      | none => simp [ModuleDependencySymbol.add]
      | some kind =>
        simp only [ModuleDependencySymbol.add, List.mem_insert_iff, List.mem_cons]
        grind

theorem count_foldl_addLead (leads : List (Lead N)) (acc : ModuleDependencyAccumulator N)
    (imported : Bool) :
    (leads.foldl (fun acc l ↦ snap.addLead hex l acc) acc).count imported =
      acc.count imported + leads.countP fun l ↦ l.kind.isSome == imported := by
  rw [foldl_addLead]
  cases imported <;> rfl

/-- The leads of a group of leads. -/
theorem countP_filter_leads (p : N → N → Bool) (imported : Bool) :
    ((snap.leads module).filter fun l ↦ p l.dependency l.target).countP
      (fun l ↦ l.kind.isSome == imported) = (snap.refs imported).countP (asked snap module p) := by
  rw [← countP_leads, List.countP_filter]
  exact List.countP_congr fun l _ ↦ by rw [Bool.and_comm]

theorem mem_importLeads {label : String} (hid : id ≠ module)
    (hdependency : snap.dependencyOf target = some id) :
    (∃ l ∈ (snap.leads module).filter fun l ↦ l.dependency = id && l.target = target,
        ∃ kind, l.kind = some kind ∧ label = bindingKindLabel kind) ↔
      ∃ binding ∈ snap.bindings, binding.kind ≠ .declared ∧ binding.fromModule = module ∧
        binding.target = target ∧ label = bindingKindLabel binding.kind := by
  constructor
  · rintro ⟨l, hl, kind, hkind, rfl⟩
    obtain ⟨hmem, htarget⟩ := List.mem_filter.1 hl
    obtain ⟨-, rfl⟩ : l.dependency = id ∧ l.target = target := by simpa using htarget
    rcases List.mem_append.1 hmem with hmem | hmem
    · obtain ⟨binding, hbinding, hlead⟩ := List.mem_filterMap.1 hmem
      obtain ⟨⟨hmodule, hdeclared⟩, hlead⟩ := importLead_eq_some.1 hlead
      obtain ⟨-, -, htarget, hkind'⟩ := lead_eq_some.1 hlead
      obtain rfl := Option.some.inj (hkind'.symm.trans hkind)
      exact ⟨binding, hbinding, hdeclared, hmodule, htarget.symm, rfl⟩
    · obtain ⟨usage, -, hlead⟩ := List.mem_filterMap.1 hmem
      obtain ⟨-, -, -, hkind'⟩ := lead_eq_some.1 (usageLead_eq_some.1 hlead).2
      exact absurd (hkind'.symm.trans hkind) (by simp)
  · rintro ⟨binding, hbinding, hdeclared, rfl, rfl, rfl⟩
    refine ⟨⟨id, binding.target, some binding.kind⟩, List.mem_filter.2 ⟨?_, by simp⟩, _, rfl, rfl⟩
    refine List.mem_append_left _ (List.mem_filterMap.2 ⟨binding, hbinding, ?_⟩)
    exact importLead_eq_some.2 ⟨⟨rfl, hdeclared⟩, lead_eq_some.2 ⟨hdependency, hid, rfl, rfl⟩⟩

/-- A target that leads somewhere has a node, and a name. -/
theorem isSome_get (h : snap.dependencyOf target = some id) : (snap.get target).isSome := by
  obtain ⟨node, hnode, -⟩ := Option.map_eq_some_iff.1 h
  exact dependencyNodeFor_get hnode

theorem dependency_of_mem_leads {l : Lead N} (h : l ∈ snap.leads module) :
    snap.dependencyOf l.target = some l.dependency ∧ l.dependency ≠ module := by
  have hlead : ∃ t kind, snap.lead module t kind = some l := by
    rcases List.mem_append.1 h with h | h
    · obtain ⟨binding, -, hlead⟩ := List.mem_filterMap.1 h
      exact ⟨_, _, (importLead_eq_some.1 hlead).2⟩
    · obtain ⟨usage, -, hlead⟩ := List.mem_filterMap.1 h
      exact ⟨_, _, (usageLead_eq_some.1 hlead).2⟩
  obtain ⟨t, kind, hlead⟩ := hlead
  obtain ⟨hdependency, hne, rfl, -⟩ := lead_eq_some.1 hlead
  exact ⟨hdependency, hne⟩

/-- The symbols of a row, as they are summed up. -/
def symbolsTo (snap : OpenedSnapshot N) (hex : N → Name) (module id : N) :
    List (N × ModuleDependencySymbol) :=
  accumulate Lead.target (snap.newSymbol hex) (fun l ↦ ModuleDependencySymbol.add l.kind)
    ((snap.leads module).filter fun l ↦ l.dependency = id)

/-- A row has a symbol for each target that is named and leads to it. -/
theorem mem_symbolsTo (hid : id ≠ module) : target ∈ (symbolsTo snap hex module id).map Prod.fst ↔
    snap.dependencyOf target = some id ∧
      ∃ imported, 0 < snap.countNaming imported module target := by
  rw [symbolsTo, mem_keys_accumulate, List.mem_map]
  constructor
  · rintro ⟨l, hl, rfl⟩
    obtain ⟨hmem, hl⟩ := List.mem_filter.1 hl
    obtain rfl := of_decide_eq_true hl
    have hdependency := (dependency_of_mem_leads hmem).1
    refine ⟨hdependency, ?_⟩
    obtain ⟨imported, hpos⟩ := (exists_lead_iff fun dependency t ↦
      decide (dependency = l.dependency) && decide (t = l.target)).1 ⟨l, hmem, by simp⟩
    refine ⟨imported, hpos.trans_eq (List.countP_congr fun ref _ ↦ ?_)⟩
    rw [asked_target hid hdependency]
  · rintro ⟨hdependency, imported, hpos⟩
    obtain ⟨l, hl, hlead⟩ := (exists_lead_iff fun dependency t ↦
      decide (dependency = id) && decide (t = target)).2 ⟨imported, hpos.trans_eq
        (List.countP_congr fun ref _ ↦ by rw [asked_target hid hdependency])⟩
    obtain ⟨hid', htarget⟩ : l.dependency = id ∧ l.target = target := by simpa using hlead
    exact ⟨l, List.mem_filter.2 ⟨hl, decide_eq_true hid'⟩, htarget⟩

theorem tells_of_mem (hid : id ≠ module) {symbol : ModuleDependencySymbol}
    (h : (target, symbol) ∈ symbolsTo snap hex module id) :
    Tells snap module target symbol.intoSymbol := by
  obtain ⟨hdependency, -⟩ := (mem_symbolsTo hid).1 (List.mem_map_of_mem h)
  have hvalue := value_of_mem_accumulate h
  rw [List.filter_filter] at hvalue
  simp only [Bool.and_comm] at hvalue
  obtain ⟨hqualified, hkind, hcount, hkinds⟩ := foldl_add ((snap.leads module).filter fun l ↦
    decide (l.dependency = id) && decide (l.target = target)) (snap.newSymbol hex target)
  rw [← hvalue] at hqualified hkind hcount hkinds
  obtain ⟨node, hnode⟩ := Option.isSome_iff_exists.1 (isSome_get hdependency)
  refine ⟨hqualified.trans ?_, hkind.trans ?_, fun imported ↦ ?_, fun label ↦ ?_⟩
  · simp [OpenedSnapshot.newSymbol, CrateEdges.OpenedSnapshot.nodeQual, hnode]
  · simp [OpenedSnapshot.newSymbol, CrateEdges.OpenedSnapshot.nodeKind, hnode]
  · have hsum := (hcount imported).trans (congrArg _ (countP_filter_leads
      (fun dependency t ↦ decide (dependency = id) && decide (t = target)) imported))
    have hzero : (snap.newSymbol hex target).count imported = 0 := by cases imported <;> rfl
    rw [hzero, Nat.zero_add] at hsum
    have hself : symbol.intoSymbol.count imported = symbol.count imported := by
      cases imported <;> rfl
    rw [hself, hsum]
    exact List.countP_congr fun ref _ ↦ by rw [asked_target hid hdependency]
  · refine (rankBy_perm _ _).mem_iff.trans ((hkinds label).trans ?_)
    rw [← mem_importLeads hid hdependency]
    exact or_iff_right List.not_mem_nil

/-! ### Rows -/

theorem symbols_of_mem {acc : ModuleDependencyAccumulator N}
    (h : (id, acc) ∈ snap.dependencyMap hex module) :
    acc = (((snap.leads module).filter fun l ↦ l.dependency = id).foldl
      (fun acc l ↦ snap.addLead hex l acc) (snap.newDependency id)) ∧
        acc.symbols = symbolsTo snap hex module id := by
  have hvalue := value_of_mem_accumulate h
  refine ⟨hvalue, ?_⟩
  rw [hvalue, foldl_addLead]
  rfl

theorem mem_dependencyMap : id ∈ (snap.dependencyMap hex module).map Prod.fst ↔
    id ≠ module ∧ ∃ imported, 0 < snap.countTo imported module id := by
  rw [OpenedSnapshot.dependencyMap, mem_keys_accumulate, List.mem_map]
  constructor
  · rintro ⟨l, hl, rfl⟩
    have hne := (dependency_of_mem_leads hl).2
    obtain ⟨imported, hpos⟩ := (exists_lead_iff fun dependency _ ↦
      decide (dependency = l.dependency)).1 ⟨l, hl, by simp⟩
    exact ⟨hne, imported, hpos.trans_eq (List.countP_congr fun ref _ ↦ by
      rw [asked_dependency hne])⟩
  · rintro ⟨hne, imported, hpos⟩
    obtain ⟨l, hl, hlead⟩ := (exists_lead_iff fun dependency _ ↦ decide (dependency = id)).2
      ⟨imported, hpos.trans_eq (List.countP_congr fun ref _ ↦ by rw [asked_dependency hne])⟩
    exact ⟨l, hl, of_decide_eq_true hlead⟩

theorem sums_of_mem {acc : ModuleDependencyAccumulator N}
    (h : (id, acc) ∈ snap.dependencyMap hex module) : Sums snap module id acc.intoDependency := by
  obtain ⟨hid, -⟩ := mem_dependencyMap.1 (List.mem_map_of_mem h)
  obtain ⟨hvalue, hsymbols⟩ := symbols_of_mem h
  have hcounts : ∀ imported, acc.count imported = snap.countTo imported module id := by
    intro imported
    have hzero : (snap.newDependency id).count imported = 0 := by cases imported <;> rfl
    rw [hvalue, count_foldl_addLead, hzero, Nat.zero_add]
    refine (countP_filter_leads (fun dependency _ ↦ decide (dependency = id)) imported).trans ?_
    exact List.countP_congr fun ref _ ↦ by rw [asked_dependency hid]
  rw [foldl_addLead] at hvalue
  refine ⟨?_, ?_, ?_, fun imported ↦ ?_, ?_, ?_⟩
  · rw [hvalue]
    rfl
  · rw [hvalue]
    rfl
  · rw [hvalue]
    rfl
  · rw [← hcounts imported]
    cases imported <;> rfl
  · exact pairwise_rankBy
      (fun symbol : ModuleDependencySymbol ↦ OrderDual.toDual symbol.targetQualified) _
  · refine ⟨(symbolsTo snap hex module id).map fun entry ↦ (entry.1, entry.2.intoSymbol),
      ?_, ?_, ?_, ?_⟩
    · rw [List.map_map]
      refine List.Perm.trans ?_ (rankBy_perm _ _).symm
      rw [hsymbols]
      refine List.Perm.trans (.of_eq ?_) ((values_perm _).map _).symm
      rw [List.map_map]
      rfl
    · rw [List.map_map]
      exact nodup_keys_accumulate
    · intro target
      rw [List.map_map]
      exact mem_symbolsTo hid
    · intro entry hentry
      obtain ⟨⟨target, symbol⟩, hmem, rfl⟩ := List.mem_map.1 hentry
      exact tells_of_mem hid hmem

theorem exists_rows (snap : OpenedSnapshot N) (hex : N → Name) (module : N) :
    ∃ rows : List (N × ModuleDependency),
      (rows.map Prod.snd).Perm (snap.moduleDependencies hex module) ∧ (rows.map Prod.fst).Nodup ∧
      (∀ id, id ∈ rows.map Prod.fst ↔
        id ≠ module ∧ ∃ imported, 0 < snap.countTo imported module id) ∧
      ∀ entry ∈ rows, Sums snap module entry.1 entry.2 := by
  refine ⟨(snap.dependencyMap hex module).map fun entry ↦ (entry.1, entry.2.intoDependency),
    ?_, ?_, ?_, ?_⟩
  · rw [List.map_map]
    refine List.Perm.trans ?_ (rankBy_perm _ _).symm
    refine List.Perm.trans (.of_eq ?_) ((values_perm _).map _).symm
    rw [List.map_map]
    rfl
  · rw [List.map_map]
    exact nodup_keys_accumulate
  · intro id
    rw [List.map_map]
    exact mem_dependencyMap
  · intro entry hentry
    obtain ⟨⟨id, acc⟩, hmem, rfl⟩ := List.mem_map.1 hentry
    exact sums_of_mem hmem

/-- **The dependencies of a module** say all that its references lead to, each once. -/
theorem summarised_moduleDependencies (snap : OpenedSnapshot N) (hex : N → Name) (module : N) :
    Summarised snap module (snap.moduleDependencies hex module) :=
  ⟨pairwise_rankBy _ _, exists_rows snap hex module⟩

end Summary

/-! ### Agreement with the report on crate edges -/

section Agreement

variable {N : Type} [LinearOrder N] {snap : OpenedSnapshot N} {hex : N → Name}
  {orders : CrateEdges.Orders N} {imported : Bool} {L L' : Name}

/-- How an extraction places the nodes: an item is declared in a node of its own crate, or else it
is the child of one, no item lies within more than 32 others, and the workspace is in no crate. -/
structure WellPlaced (snap : OpenedSnapshot N) : Prop where
  workspace : ∀ node ∈ snap.nodes, node.kind = .workspace → node.crateId = none
  owner : ∀ node ∈ snap.nodes, node.kind = .item → ∃ owner ∈ snap.nodes,
    snap.owner node.id = some owner.id ∧ owner.kind ≠ .workspace ∧ owner.crateId = node.crateId
  depth : ∃ depth : N → ℕ, (∀ id, depth id ≤ 32) ∧ ∀ node ∈ snap.nodes, node.kind = .item →
    ∀ owner ∈ snap.owner node.id, depth owner < depth node.id

/-- What a row on crates counts: imports, or other references. -/
def countOf (imported : Bool) (edge : CrateEdges.CrateEdge) : ℕ :=
  if imported then edge.totalRefsViaImports else edge.totalRefsViaUsages

namespace OpenedSnapshot

variable (snap : OpenedSnapshot N)

/-- The modules, and other nodes, of the crates with that label. -/
def nodesOf (L : Name) : List N :=
  (snap.nodes.map Node.id).filter fun id ↦ snap.crateLabel id = some L

/-- How many references there are from the crates with one label in those with the other. -/
def countBetween (imported : Bool) (L L' : Name) : ℕ :=
  (snap.refs imported).countP fun ref ↦
    snap.crateLabel ref.1 = some L && decide (snap.crateLabel ref.2 = some L')

end OpenedSnapshot

open scoped List in
/-- The rows of a module with that crate. -/
theorem sum_rows (snap : OpenedSnapshot N) (hex : N → Name) (module : N) (L' : Name)
    (imported : Bool) :
    (((snap.moduleDependencies hex module).filter fun row ↦ row.targetCrate = some L').map
        (ModuleDependency.count imported)).sum =
      (snap.refs imported).countP fun ref ↦ decide (ref.1 = module) &&
        (snap.dependencyOf ref.2).any fun id ↦
          decide (id ≠ module) && decide (snap.crateLabel id = some L') := by
  obtain ⟨rows, hperm, hnodup, hmem, hsums⟩ := exists_rows snap hex module
  obtain ⟨ids, hids'⟩ : ∃ ids, ids = (rows.map Prod.fst).filter fun id ↦
      snap.crateLabel id = some L' := ⟨_, rfl⟩
  have hreport : ((snap.moduleDependencies hex module).filter fun row ↦
      row.targetCrate = some L').map (ModuleDependency.count imported) ~
        ids.map (snap.countTo imported module) := by
    refine ((hperm.symm.filter _).map _).trans (.of_eq ?_)
    rw [hids', List.filter_map, List.map_map, List.filter_map, List.map_map]
    have hfilter : rows.filter ((fun row ↦ decide (row.targetCrate = some L')) ∘ Prod.snd) =
        rows.filter ((fun id ↦ decide (snap.crateLabel id = some L')) ∘ Prod.fst) :=
      List.filter_congr fun entry hentry ↦ by simp [(hsums entry hentry).crate]
    rw [hfilter]
    exact List.map_congr_left fun entry hentry ↦
      (hsums entry (List.mem_of_mem_filter hentry)).counts imported
  have hids : ∀ id, id ∈ ids ↔ (id ≠ module ∧ ∃ imported, 0 < snap.countTo imported module id) ∧
      snap.crateLabel id = some L' := by
    intro id
    rw [hids', List.mem_filter, hmem, decide_eq_true_iff]
  have hkeys : (ids.map some).Nodup := hids' ▸ (hnodup.filter _).map (Option.some_injective _)
  rw [hreport.sum_eq, ← sum_countP hkeys (fun ref ↦ snap.dependencyOf ref.2) fun ref href hp ↦ ?_,
    List.map_map]
  · refine congrArg List.sum (List.map_congr_left fun id hid ↦ ?_)
    obtain ⟨⟨hne, -⟩, hlabel⟩ := (hids id).1 hid
    refine List.countP_congr fun ref _ ↦ ?_
    rw [decide_eq_true_iff, OpenedSnapshot.Leads]
    by_cases hdependency : snap.dependencyOf ref.2 = some id <;> simp [hdependency, hne, hlabel]
  · obtain ⟨hmodule, hany⟩ := Bool.and_eq_true_iff.1 hp
    cases hdependency : snap.dependencyOf ref.2 with
    | none => exact absurd hany (by simp [hdependency])
    | some id =>
      obtain ⟨hne, hlabel⟩ : id ≠ module ∧ snap.crateLabel id = some L' := by
        simpa [hdependency] using hany
      refine List.mem_map_of_mem ((hids id).2 ⟨⟨hne, imported, ?_⟩, hlabel⟩)
      exact List.countP_pos_iff.2 ⟨ref, href,
        decide_eq_true ⟨of_decide_eq_true hmodule, hdependency⟩⟩

theorem get_eq_some_iff {id : N} {node : Node N} :
    snap.get id = some node ↔ node ∈ snap.nodes ∧ node.id = id :=
  find?_key_eq_some snap.nodup

/-- What is no item is depended on itself, unless it is the workspace. -/
theorem dependencyNodeFor_of_get {fuel : ℕ} {id : N} {node : Node N}
    (h : snap.get id = some node) (hkind : node.kind ≠ .item) :
    snap.dependencyNodeFor fuel id = if node.kind = .workspace then none else some node := by
  have hstep : snap.dependencyStep id =
      if node.kind = .workspace then none else some (.inl node) := by
    rw [OpenedSnapshot.dependencyStep, h]
    cases hkind' : node.kind <;> simp_all
  cases fuel <;> rw [OpenedSnapshot.dependencyNodeFor, hstep] <;> split <;> rfl

/-- What an item leads to is what its owner does. -/
theorem dependencyNodeFor_item {fuel : ℕ} {id owner : N} {node : Node N}
    (h : snap.get id = some node) (hkind : node.kind = .item)
    (howner : snap.owner id = some owner) :
    snap.dependencyNodeFor (fuel + 1) id = snap.dependencyNodeFor fuel owner := by
  have hstep : snap.dependencyStep id = some (.inr owner) := by
    rw [OpenedSnapshot.dependencyStep, h]
    simp [hkind, howner]
  rw [OpenedSnapshot.dependencyNodeFor, hstep]
  rfl

/-- By induction on the fuel: a node leads to one of its own crate. -/
theorem dependencyNodeFor_crate (h : WellPlaced snap) {depth : N → ℕ}
    (hdepth : ∀ node ∈ snap.nodes, node.kind = .item →
      ∀ owner ∈ snap.owner node.id, depth owner < depth node.id) {fuel : ℕ} {id : N}
    (hfuel : depth id ≤ fuel) {node : Node N} (hget : snap.get id = some node)
    (hkind : node.kind ≠ .workspace) :
    ∃ node' ∈ snap.nodes, snap.dependencyNodeFor fuel id = some node' ∧
      node'.crateId = node.crateId := by
  induction fuel generalizing id node with
  | zero =>
    obtain ⟨hmem, rfl⟩ := get_eq_some_iff.1 hget
    by_cases hitem : node.kind = .item
    · obtain ⟨owner, -, howner, -⟩ := h.owner node hmem hitem
      have := hdepth node hmem hitem owner.id howner
      omega
    · exact ⟨node, hmem, by rw [dependencyNodeFor_of_get hget hitem, if_neg hkind], rfl⟩
  | succ fuel ih =>
    obtain ⟨hmem, rfl⟩ := get_eq_some_iff.1 hget
    by_cases hitem : node.kind = .item
    · obtain ⟨owner, hmem', howner, hkind', hcrate⟩ := h.owner node hmem hitem
      have hlt := hdepth node hmem hitem owner.id howner
      obtain ⟨node', hnode', heq, hcrate'⟩ :=
        ih (by omega) (get_eq_some_iff.2 ⟨hmem', rfl⟩) hkind'
      exact ⟨node', hnode', (dependencyNodeFor_item hget hitem howner).trans heq,
        hcrate'.trans hcrate⟩
    · exact ⟨node, hmem, by rw [dependencyNodeFor_of_get hget hitem, if_neg hkind], rfl⟩

/-- What a module is told to depend on is in the crate of what it names, and something is told
wherever that has a crate. -/
theorem nodeToCrate_dependencyOf (h : WellPlaced snap) (target : N) :
    (∀ id, snap.dependencyOf target = some id → snap.nodeToCrate id = snap.nodeToCrate target) ∧
      ((snap.nodeToCrate target).isSome → (snap.dependencyOf target).isSome) := by
  obtain ⟨depth, hbound, hdepth⟩ := h.depth
  rw [OpenedSnapshot.dependencyOf, CrateEdges.OpenedSnapshot.nodeToCrate]
  cases hget : snap.get target with
  | none =>
    have hnone : snap.dependencyNodeFor 32 target = none :=
      Option.eq_none_iff_forall_not_mem.2 fun node hnode ↦ by
        simpa [hget] using dependencyNodeFor_get hnode
    simp [hnone]
  | some node =>
    by_cases hkind : node.kind = .workspace
    · have hcrate := h.workspace node (get_eq_some_iff.1 hget).1 hkind
      have hitem : node.kind ≠ .item := by simp [hkind]
      simp [dependencyNodeFor_of_get hget hitem, hkind, hcrate]
    · obtain ⟨node', hmem, heq, hcrate⟩ :=
        dependencyNodeFor_crate h hdepth (hbound target) hget hkind
      have hget' : snap.get node'.id = some node' := get_eq_some_iff.2 ⟨hmem, rfl⟩
      rw [heq]
      refine ⟨fun id hid ↦ ?_, fun _ ↦ rfl⟩
      obtain rfl : node'.id = id := by simpa using hid
      rw [CrateEdges.OpenedSnapshot.nodeToCrate, hget', Option.bind_some, Option.bind_some, hcrate]

/-- What the modules of some crates say of others, added up. -/
theorem sum_modules (h : WellPlaced snap) (hne : L ≠ L') :
    ((snap.nodesOf L).map fun module ↦
        (((snap.moduleDependencies hex module).filter fun row ↦ row.targetCrate = some L').map
          (ModuleDependency.count imported)).sum).sum = snap.countBetween imported L L' := by
  have hnodup : (snap.nodesOf L).Nodup := snap.nodup.filter _
  rw [OpenedSnapshot.countBetween, ← sum_countP hnodup Prod.fst fun ref _ hlabels ↦ ?_]
  · refine congrArg List.sum (List.map_congr_left fun module hmodule ↦ ?_)
    have hlabel : snap.crateLabel module = some L :=
      of_decide_eq_true (List.mem_filter.1 hmodule).2
    rw [sum_rows]
    refine List.countP_congr fun ref href ↦ ?_
    obtain ⟨hplaced, hled⟩ := nodeToCrate_dependencyOf h ref.2
    by_cases hfrom : ref.1 = module
    · cases hdependency : snap.dependencyOf ref.2 with
      | none =>
        have hnone : snap.nodeToCrate ref.2 = none := by
          by_contra hsome
          have := hled (Option.isSome_iff_ne_none.2 hsome)
          simp [hdependency] at this
        simp [OpenedSnapshot.crateLabel, hnone]
      | some id =>
        have hsame : snap.crateLabel id = snap.crateLabel ref.2 := by
          rw [OpenedSnapshot.crateLabel, hplaced id hdependency, OpenedSnapshot.crateLabel]
        have hid : snap.crateLabel ref.2 = some L' → id ≠ module := by
          rintro hlabel' rfl
          exact hne (Option.some.inj (hlabel.symm.trans (hsame.trans hlabel')))
        simp only [hfrom, hlabel, hsame, Option.any_some, decide_true, Bool.true_and,
          Bool.and_true, Bool.and_eq_true, decide_eq_true_iff]
        exact ⟨And.right, fun hlabel' ↦ ⟨hid hlabel', hlabel'⟩⟩
    · simp [hfrom]
  · obtain ⟨hlabel, -⟩ := Bool.and_eq_true_iff.1 hlabels
    have hlabel := of_decide_eq_true hlabel
    refine List.mem_filter.2 ⟨?_, decide_eq_true hlabel⟩
    obtain ⟨c, hc, -⟩ := Option.bind_eq_some_iff.1 hlabel
    obtain ⟨node, hnode, -⟩ := Option.bind_eq_some_iff.1 hc
    have hid : node.id = ref.1 := by simpa using List.find?_some hnode
    exact hid ▸ List.mem_map_of_mem (List.mem_of_find?_eq_some hnode)

/-- The crates that a reference crosses. -/
def crossed (snap : OpenedSnapshot N) (ref : N × N) : Option (N × N) :=
  (snap.crossing ref.1 ref.2).map fun ref ↦ (ref.1, ref.2.1)

/-- A reference crosses from the crate of its module to that of its target. -/
theorem crossed_eq_some (ref edge : N × N) : crossed snap ref = some edge ↔
    snap.nodeToCrate ref.1 = some edge.1 ∧ snap.nodeToCrate ref.2 = some edge.2 ∧
      edge.1 ≠ edge.2 := by
  obtain ⟨c, p⟩ := edge
  rw [crossed, CrateEdges.OpenedSnapshot.crossing]
  rcases snap.nodeToCrate ref.1 with - | consumer
  · simp
  · rcases snap.nodeToCrate ref.2 with - | producer
    · simp
    · by_cases hsame : consumer = producer
      · simp only [hsame]
        grind
      · simp only [Option.bind_eq_bind, Option.bind_some, if_neg hsame, Option.map_some,
          Option.some.injEq, Prod.mk.injEq]
        grind

/-- A row on crates counts the references that cross its edge. -/
theorem countP_crossed (snap : OpenedSnapshot N) (orders : CrateEdges.Orders N) (imported : Bool)
    (edge : N × N) : countOf imported (CrateEdges.rowOf snap.toReferences orders edge) =
      (snap.refs imported).countP fun ref ↦ crossed snap ref = some edge := by
  cases imported with
  | true =>
    refine (CrateEdges.imports_rowOf _ _ _).trans ((CrateEdges.countP_imports edge).trans ?_)
    rw [OpenedSnapshot.refs, if_pos rfl, List.countP_map, List.countP_filter]
    refine List.countP_congr fun binding _ ↦ ?_
    rw [decide_eq_true_iff, Bool.and_eq_true, and_comm, Function.comp_apply, decide_eq_true_iff,
      decide_eq_true_iff]
    rfl
  | false =>
    refine (CrateEdges.usages_rowOf _ _ _).trans ((CrateEdges.countP_usages edge).trans ?_)
    rw [OpenedSnapshot.refs, if_neg Bool.false_ne_true, List.countP_map]
    refine List.countP_congr fun usage _ ↦ ?_
    rw [decide_eq_true_iff, Function.comp_apply, decide_eq_true_iff]
    rfl

theorem mem_crossed (orders : CrateEdges.Orders N) {ref edge : N × N} (h : ref ∈ snap.refs imported)
    (hcrossed : crossed snap ref = some edge) : edge ∈ snap.toReferences.crossed := by
  have hpos : 0 < countOf imported (CrateEdges.rowOf snap.toReferences orders edge) := by
    rw [countP_crossed]
    exact List.countP_pos_iff.2 ⟨ref, h, decide_eq_true hcrossed⟩
  rw [CrateEdges.mem_crossed_iff, ← CrateEdges.refs_rowOf snap.toReferences orders]
  cases imported with
  | true => exact Nat.add_pos_left hpos _
  | false => exact Nat.add_pos_right _ hpos

open scoped List in
/-- What the rows on some crates say of others, added up. -/
theorem sum_edges (orders : CrateEdges.Orders N) (hne : L ≠ L') (hL : L ≠ []) (hL' : L' ≠ []) :
    (((snap.toReferences.crateEdges orders).filter fun edge ↦
        edge.consumerCrate = L && decide (edge.producerCrate = L')).map (countOf imported)).sum =
      snap.countBetween imported L L' := by
  let labelled := fun edge : N × N ↦
    decide (snap.labelOf edge.1 = L) && decide (snap.labelOf edge.2 = L')
  have hreport : ((snap.toReferences.crateEdges orders).filter fun edge ↦
      edge.consumerCrate = L && decide (edge.producerCrate = L')).map (countOf imported) ~
        (snap.toReferences.crossed.filter labelled).map fun edge ↦
          countOf imported (CrateEdges.rowOf snap.toReferences orders edge) := by
    refine ((CrateEdges.crateEdges_perm.filter _).map _).trans (.of_eq ?_)
    rw [List.filter_map, List.map_map]
    rfl
  have hsome : ∀ {id c : N} {L : Name}, L ≠ [] → snap.nodeToCrate id = some c →
      snap.labelOf c = L → snap.crateLabel id = some L := by
    intro id c L hL hc hlabel
    rw [OpenedSnapshot.crateLabel, hc, Option.bind_some]
    rw [CrateEdges.OpenedSnapshot.labelOf] at hlabel
    cases hlabels : snap.targetLabels c with
    | none => exact absurd (by simpa [hlabels] using hlabel.symm) hL
    | some label => simpa [hlabels] using hlabel
  have hkeys : ((snap.toReferences.crossed.filter labelled).map some).Nodup :=
    ((List.nodup_dedup _).filter _).map (Option.some_injective _)
  rw [hreport.sum_eq, OpenedSnapshot.countBetween,
    ← sum_countP hkeys (crossed snap) fun ref href hlabels ↦ ?_, List.map_map]
  · refine congrArg List.sum (List.map_congr_left fun edge hedge ↦ ?_)
    refine (countP_crossed _ _ _ _).trans (List.countP_congr fun ref _ ↦ ?_)
    rw [decide_eq_true_iff, Bool.and_eq_true, decide_eq_true_iff]
    refine ⟨fun hcrossed ↦ ⟨?_, hcrossed⟩, And.right⟩
    obtain ⟨hlabel, hlabel'⟩ := Bool.and_eq_true_iff.1 (List.mem_filter.1 hedge).2
    obtain ⟨hc, hp, -⟩ := (crossed_eq_some ref edge).1 hcrossed
    rw [hsome hL hc (of_decide_eq_true hlabel), hsome hL' hp (of_decide_eq_true hlabel')]
    simp
  · obtain ⟨hlabel, hlabel'⟩ : snap.crateLabel ref.1 = some L ∧
        snap.crateLabel ref.2 = some L' := by
      simpa using hlabels
    obtain ⟨c, hc, hc'⟩ := Option.bind_eq_some_iff.1 hlabel
    obtain ⟨p, hp, hp'⟩ := Option.bind_eq_some_iff.1 hlabel'
    have hcross : crossed snap ref = some (c, p) := by
      refine (crossed_eq_some ref (c, p)).2 ⟨hc, hp, ?_⟩
      intro hsame
      rw [show c = p from hsame, hp'] at hc'
      exact hne (Option.some.inj hc').symm
    rw [hcross]
    refine List.mem_map_of_mem (List.mem_filter.2 ⟨mem_crossed orders href hcross, ?_⟩)
    simp [labelled, CrateEdges.OpenedSnapshot.labelOf, hc', hp']

/-- **The two reports agree.** For every two labels of crates, the rows of the modules of the one on
the other say together what the rows on the two crates say. -/
theorem moduleDependencies_agree (h : WellPlaced snap) (orders : CrateEdges.Orders N)
    (hex : N → Name) (imported : Bool) (hne : L ≠ L') (hL : L ≠ []) (hL' : L' ≠ []) :
    ((snap.nodesOf L).map fun module ↦
        (((snap.moduleDependencies hex module).filter fun row ↦ row.targetCrate = some L').map
          (ModuleDependency.count imported)).sum).sum =
      (((snap.toReferences.crateEdges orders).filter fun edge ↦
        edge.consumerCrate = L && decide (edge.producerCrate = L')).map (countOf imported)).sum :=
  (sum_modules h hne).trans (sum_edges orders hne hL hL').symm

/-- Two modules of one crate import an enumeration of another, and a variant of it. -/
def shelf : OpenedSnapshot ℕ where
  nodes := [⟨0, .crate, ['a'], ['a'], some 0, none, none, none⟩,
    ⟨1, .crate, ['b'], ['b'], some 1, none, none, none⟩,
    ⟨2, .module, ['m'], ['a', ':', ':', 'm'], some 0, none, none, none⟩,
    ⟨3, .module, ['n'], ['a', ':', ':', 'n'], some 0, none, none, none⟩,
    ⟨4, .item, ['B'], ['b', ':', ':', 'B'], some 1, some .enum, none, none⟩,
    ⟨5, .item, ['V'], ['b', ':', ':', 'B', ':', ':', 'V'], some 1, some .enumVariant, none, none⟩,
    ⟨6, .workspace, [], [], none, none, none, none⟩]
  nodup := by decide
  bindings := [⟨2, .type, ['B'], 4, .namedImport⟩, ⟨3, .type, ['B'], 4, .globImport⟩,
    ⟨3, .value, ['V'], 5, .namedImport⟩]
  usages := []
  parentId id := if id = 5 then some 4 else if id = 4 then some 1 else none
  declarationModule id := if id = 4 then some 1 else none

theorem wellPlaced_shelf : WellPlaced shelf where
  workspace := by decide
  owner := by decide
  depth := ⟨fun id ↦ if id = 5 then 2 else if id = 4 then 1 else 0,
    fun id ↦ by dsimp only; split_ifs <;> decide, by decide⟩

theorem moduleDependencies_agree_shelf : ∃ orders : CrateEdges.Orders ℕ,
    shelf.countBetween true ['a'] ['b'] = 3 ∧
      ((shelf.nodesOf ['a']).map fun module ↦
        (((shelf.moduleDependencies (fun _ ↦ []) module).filter fun row ↦
          row.targetCrate = some ['b']).map (ModuleDependency.count true)).sum).sum =
        (((shelf.toReferences.crateEdges orders).filter fun edge ↦ edge.consumerCrate = ['a'] &&
          decide (edge.producerCrate = ['b'])).map (countOf true)).sum :=
  ⟨⟨id, id, id, fun _ ↦ id, fun _ ↦ .refl _, fun _ ↦ .refl _, fun _ ↦ .refl _,
    fun _ _ ↦ .refl _⟩, by decide,
    moduleDependencies_agree wellPlaced_shelf _ _ true (by decide) (by decide) (by decide)⟩

end Agreement

end RustCodeMcp.ModuleGraph
