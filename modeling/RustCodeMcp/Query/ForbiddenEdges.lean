import RustCodeMcp.Embeddings.VramBudget
import RustCodeMcp.Query.CrateEdges
import RustCodeMcp.Query.GlobMatch

/-!
# Forbidden dependencies between crates

The rules are checked against the rows of the report on crate edges, by the labels of the crates.
What comes out is judged by the references themselves: a rule is violated once for every two crates
between which there is a reference it forbids, with all their references counted
(`enforced_forbiddenDependencyCheck`).

A rule names what it forbids by patterns of crate labels, and may say which kinds of consumers it is
about; without that it is about libraries and binaries. The pattern matcher panics on no text
(`violates_eq`), so that the check always answers. Whether a rule is violated is decided by labels
and by nothing else of an edge; the counts and the sample are taken from its row.
-/

namespace RustCodeMcp.CrateEdges

open Glob Grouping Ranking
open Navigation
open Rules (globMatch globMatch_eq)

/-- A rule: which consumers may not refer to which producers. -/
structure ForbiddenDependencyRule where
  consumer : Name
  producer : Name
  consumerKinds : Option (List Name)
  except : Option Name
  severity : Option String
  message : Option String
  deriving DecidableEq

/-- A violation: the rule, the crates, and the references between them. -/
structure ForbiddenDependencyViolation where
  ruleIndex : ℕ
  consumerCrate : Name
  producerCrate : Name
  severity : Option String
  message : Option String
  sampleSymbol : Option Name
  uniqueSymbols : ℕ
  totalRefs : ℕ
  deriving DecidableEq

/-- A kind of target as it is compared: trimmed, in lower case, and one name for a build script. -/
def normalizeConsumerKind (kind : Name) : Name :=
  if trim kind = "custom-build".toList then "build".toList else (trim kind).map Char.toLower

/-- The kinds of consumers that a rule is about unless it says otherwise. -/
def matchesDefaultConsumerKind (consumerKind : Name) : Bool :=
  consumerKind = "lib".toList || consumerKind = "bin".toList

/-- Whether a rule is about consumers of a kind. -/
def ruleAllowsConsumerKind (rule : ForbiddenDependencyRule) (consumerKind : Name) : Bool :=
  match rule.consumerKinds.filter fun kinds ↦ !kinds.isEmpty with
  | some kinds => kinds.any fun kind ↦
      normalizeConsumerKind kind = ['*'] || normalizeConsumerKind kind = consumerKind
  | none => matchesDefaultConsumerKind consumerKind

section Model

variable {N : Type} [LinearOrder N] (snap : OpenedSnapshot N)

/-- Whether an edge violates a rule; `none` is a panic of the matcher. -/
def violates (rule : ForbiddenDependencyRule) (consumerKind : Name) (edge : CrateEdge) :
    Option Bool :=
  if !ruleAllowsConsumerKind rule consumerKind then some false
  else do
    let consumer ← globMatch rule.consumer edge.consumerCrate
    if !consumer then some false
    else
      let producer ← globMatch rule.producer edge.producerCrate
      if !producer then some false
      else
        match rule.except with
        | some except => (globMatch except edge.consumerCrate).map (!·)
        | none => some true

/-- The violation that an edge is. -/
def violation (edge : CrateEdge) (rule : ForbiddenDependencyRule) (ruleIndex : ℕ) :
    ForbiddenDependencyViolation where
  ruleIndex := ruleIndex
  consumerCrate := edge.consumerCrate
  producerCrate := edge.producerCrate
  severity := rule.severity
  message := rule.message
  sampleSymbol := edge.symbols.head?.map EdgeSymbol.targetQualified
  uniqueSymbols := edge.uniqueSymbols
  totalRefs := edge.totalRefsViaImports + edge.totalRefsViaUsages

/-- The violations of an edge, in the order of the rules. -/
def violations (consumerKind : Name) (edge : CrateEdge) :
    List (ForbiddenDependencyRule × ℕ) → Option (List ForbiddenDependencyViolation)
  | [] => some []
  | (rule, ruleIndex) :: rules => do
    let forbidden ← violates rule consumerKind edge
    let rest ← violations consumerKind edge rules
    some (if forbidden then violation edge rule ruleIndex :: rest else rest)

/-- By rule, and then by crates. -/
def ForbiddenDependencyViolation.rank (v : ForbiddenDependencyViolation) : (ℕ ×ₗ Name ×ₗ Name)ᵒᵈ :=
  OrderDual.toDual (toLex (v.ruleIndex, toLex (v.consumerCrate, v.producerCrate)))

namespace OpenedSnapshot

/-- The last of the crates with that label gives the kind. -/
def crateTargetKindByName (label : Name) : Option Name :=
  (snap.nodes.reverse.find? fun node ↦
    node.kind = .crate && snap.targetLabels node.id = some label).map
    fun node ↦ node.crateTargetKind.getD "lib".toList

/-- The kind of the crate with a label. -/
def consumerKind (label : Name) : Name :=
  (snap.crateTargetKindByName label).getD "lib".toList

/-- The check. -/
def forbiddenDependencyCheck (orders : Orders N) (rules : List ForbiddenDependencyRule) :
    Option (List ForbiddenDependencyViolation) := do
  let found ← (snap.crateEdges orders).mapM fun edge ↦
    violations (snap.consumerKind edge.consumerCrate) edge rules.zipIdx
  some (rankBy ForbiddenDependencyViolation.rank found.flatten)

end OpenedSnapshot

end Model

/-! ### What is forbidden -/

/-- A rule forbids an edge between crates of these labels. -/
structure ForbiddenDependencyRule.Forbids (rule : ForbiddenDependencyRule)
    (consumerKind consumer producer : Name) : Prop where
  allowed : ruleAllowsConsumerKind rule consumerKind = true
  consumerFits : Replaces '*' rule.consumer consumer
  producerFits : Replaces '*' rule.producer producer
  notExcepted : ∀ except, rule.except = some except → ¬Replaces '*' except consumer

variable {rule : ForbiddenDependencyRule} {consumerKind : Name} {edge : CrateEdge}

/-- No pattern makes the matcher panic, and a rule is violated by what it forbids. -/
theorem violates_eq (rule : ForbiddenDependencyRule) (consumerKind : Name) (edge : CrateEdge) :
    ∃ b, violates rule consumerKind edge = some b ∧
      (b = true ↔ rule.Forbids consumerKind edge.consumerCrate edge.producerCrate) := by
  obtain ⟨consumer, hconsumer, hconsumer'⟩ := globMatch_eq rule.consumer edge.consumerCrate
  obtain ⟨producer, hproducer, hproducer'⟩ := globMatch_eq rule.producer edge.producerCrate
  rw [violates, hconsumer, hproducer]
  cases hkind : ruleAllowsConsumerKind rule consumerKind with
  | false => exact ⟨false, rfl, by simp, fun h ↦ absurd (hkind.symm.trans h.allowed) (by simp)⟩
  | true =>
    cases consumer with
    | false => exact ⟨false, rfl, by simp, fun h ↦ absurd (hconsumer'.2 h.consumerFits) (by simp)⟩
    | true =>
      cases producer with
      | false => exact ⟨false, rfl, by simp, fun h ↦ absurd (hproducer'.2 h.producerFits) (by simp)⟩
      | true =>
        cases hexcept : rule.except with
        | none =>
          refine ⟨true, rfl, fun _ ↦ ⟨hkind, hconsumer'.1 rfl, hproducer'.1 rfl, ?_⟩, fun _ ↦ rfl⟩
          exact fun except h ↦ absurd (hexcept.symm.trans h) (by simp)
        | some except =>
          obtain ⟨excepted, hexcepted, hexcepted'⟩ := globMatch_eq except edge.consumerCrate
          refine ⟨!excepted, by simp [hexcepted], ?_⟩
          cases excepted with
          | true =>
            exact ⟨by simp, fun h ↦ absurd (hexcepted'.1 rfl) (h.notExcepted except hexcept)⟩
          | false =>
            refine ⟨fun _ ↦ ⟨hkind, hconsumer'.1 rfl, hproducer'.1 rfl, ?_⟩, fun _ ↦ rfl⟩
            rintro except' h hreplaces
            obtain rfl := Option.some.inj (hexcept.symm.trans h)
            exact absurd (hexcepted'.2 hreplaces) (by simp)

open Classical in
/-- An edge has a violation for each rule that forbids it. -/
theorem violations_eq (consumerKind : Name) (edge : CrateEdge)
    (rules : List (ForbiddenDependencyRule × ℕ)) :
    violations consumerKind edge rules = some ((rules.filter fun entry ↦
      entry.1.Forbids consumerKind edge.consumerCrate edge.producerCrate).map fun entry ↦
        violation edge entry.1 entry.2) := by
  induction rules with
  | nil => rfl
  | cons entry rules ih =>
    obtain ⟨rule, ruleIndex⟩ := entry
    obtain ⟨forbidden, hforbidden, hiff⟩ := violates_eq rule consumerKind edge
    rw [violations, hforbidden, ih]
    cases forbidden with
    | true => simp [hiff.1 rfl]
    | false =>
      have hnot : ¬rule.Forbids consumerKind edge.consumerCrate edge.producerCrate :=
        fun h ↦ absurd (hiff.2 h) (by simp)
      simp [hnot]

/-! ### What the check reports -/

section Enforcement

variable {N : Type} [LinearOrder N] {snap : OpenedSnapshot N} {orders : Orders N}
  {rules : List ForbiddenDependencyRule}

namespace OpenedSnapshot

variable (snap : OpenedSnapshot N)

/-- The label of a crate, or its name. -/
def labelOf (id : N) : Name :=
  (snap.targetLabels id).getD []

/-- How many imports and usages there are from the one crate in the other. -/
def refsAcross (edge : N × N) : ℕ :=
  (snap.bindings.countP fun binding ↦ binding.kind ≠ .declared ∧
      (snap.crossing binding.fromModule binding.target).map (fun ref ↦ (ref.1, ref.2.1)) =
        some edge) +
    snap.usages.countP fun usage ↦
      (snap.crossing usage.consumerModule usage.target).map (fun ref ↦ (ref.1, ref.2.1)) = some edge

end OpenedSnapshot

/-- A violation without its sample. -/
structure Verdict where
  ruleIndex : ℕ
  consumerCrate : Name
  producerCrate : Name
  severity : Option String
  message : Option String
  uniqueSymbols : ℕ
  totalRefs : ℕ

/-- The violation without its sample. -/
def ForbiddenDependencyViolation.verdict (v : ForbiddenDependencyViolation) : Verdict where
  ruleIndex := v.ruleIndex
  consumerCrate := v.consumerCrate
  producerCrate := v.producerCrate
  severity := v.severity
  message := v.message
  uniqueSymbols := v.uniqueSymbols
  totalRefs := v.totalRefs

/-- What is to be said of two crates and a rule. -/
def OpenedSnapshot.verdictOf (snap : OpenedSnapshot N)
    (entry : (N × N) × ForbiddenDependencyRule × ℕ) : Verdict where
  ruleIndex := entry.2.2
  consumerCrate := snap.labelOf entry.1.1
  producerCrate := snap.labelOf entry.1.2
  severity := entry.2.1.severity
  message := entry.2.1.message
  uniqueSymbols := (snap.targetsOf entry.1).length
  totalRefs := snap.refsAcross entry.1

/-- There is a reference from the one crate in the other, and the rule at that place forbids it. -/
def OpenedSnapshot.Violated (snap : OpenedSnapshot N) (rules : List ForbiddenDependencyRule)
    (entry : (N × N) × ForbiddenDependencyRule × ℕ) : Prop :=
  0 < snap.refsAcross entry.1 ∧ rules[entry.2.2]? = some entry.2.1 ∧
    entry.2.1.Forbids (snap.consumerKind (snap.labelOf entry.1.1)) (snap.labelOf entry.1.1)
      (snap.labelOf entry.1.2)

/-- Every rule is enforced on every two crates: a violation is reported once, with all the
references between the two, and nothing else is reported. -/
structure Enforced (snap : OpenedSnapshot N) (rules : List ForbiddenDependencyRule)
    (report : List ForbiddenDependencyViolation) : Prop where
  sorted : report.Pairwise fun v w ↦ w.rank ≤ v.rank
  exact : ∃ cases : List ((N × N) × ForbiddenDependencyRule × ℕ), cases.Nodup ∧
    (∀ entry, entry ∈ cases ↔ snap.Violated rules entry) ∧
    (report.map ForbiddenDependencyViolation.verdict).Perm (cases.map snap.verdictOf)

open Classical in
/-- The rules that forbid an edge, with their places. -/
noncomputable def OpenedSnapshot.forbidding (snap : OpenedSnapshot N)
    (rules : List ForbiddenDependencyRule) (edge : N × N) : List (ForbiddenDependencyRule × ℕ) :=
  rules.zipIdx.filter fun entry ↦ entry.1.Forbids (snap.consumerKind (snap.labelOf edge.1))
    (snap.labelOf edge.1) (snap.labelOf edge.2)

/-- The crates and the rules that are violated between them. -/
noncomputable def OpenedSnapshot.casesOf (snap : OpenedSnapshot N)
    (rules : List ForbiddenDependencyRule) : List ((N × N) × ForbiddenDependencyRule × ℕ) :=
  snap.crossed.flatMap fun edge ↦ (snap.forbidding rules edge).map (Prod.mk edge)

open Classical in
/-- The violations of an edge, without the matcher. -/
noncomputable def OpenedSnapshot.violationsOf (snap : OpenedSnapshot N)
    (rules : List ForbiddenDependencyRule) (edge : CrateEdge) :
    List ForbiddenDependencyViolation :=
  (rules.zipIdx.filter fun entry ↦ entry.1.Forbids (snap.consumerKind edge.consumerCrate)
    edge.consumerCrate edge.producerCrate).map fun entry ↦ violation edge entry.1 entry.2

theorem sum_targetsOf {α : Type} {l : List α} {ref : α → Reference N}
    (h : ∀ a ∈ l, ref a ∈ snap.references) (edge : N × N) :
    ((snap.targetsOf edge).map fun target ↦
      (l.filter fun a ↦ ref a = (edge.1, edge.2, target)).length).sum =
      l.countP fun a ↦ ((ref a).1, (ref a).2.1) = edge := by
  rw [← sum_countP (snap.nodup_targetsOf edge) (fun a ↦ (ref a).2.2) fun a ha hedge ↦ ?_]
  · refine congrArg List.sum (List.map_congr_left fun target _ ↦ ?_)
    rw [← List.countP_eq_length_filter]
    refine List.countP_congr fun a _ ↦ ?_
    obtain ⟨c, p, t⟩ := ref a
    obtain ⟨c', p'⟩ := edge
    simp [and_assoc]
  · obtain rfl := of_decide_eq_true hedge
    exact snap.mem_targetsOf.2 (h a ha)

theorem countP_imports (edge : N × N) :
    (snap.imports.countP fun key ↦ (key.1.1, key.1.2.1) = edge) =
      snap.bindings.countP fun binding ↦ binding.kind ≠ .declared ∧
        (snap.crossing binding.fromModule binding.target).map (fun ref ↦ (ref.1, ref.2.1)) =
          some edge := by
  rw [OpenedSnapshot.imports, List.countP_filterMap]
  refine List.countP_congr fun binding _ ↦ ?_
  rw [OpenedSnapshot.importKey]
  by_cases hkind : binding.kind = .declared
  · simp [hkind]
  · rcases snap.crossing binding.fromModule binding.target with - | ref <;> simp [hkind]

theorem countP_usages (edge : N × N) :
    ((snap.usages.filterMap snap.usageKey).countP fun ref ↦ (ref.1, ref.2.1) = edge) =
      snap.usages.countP fun usage ↦
        (snap.crossing usage.consumerModule usage.target).map (fun ref ↦ (ref.1, ref.2.1)) =
          some edge := by
  rw [List.countP_filterMap]
  refine List.countP_congr fun usage _ ↦ ?_
  rw [OpenedSnapshot.usageKey]
  rcases snap.crossing usage.consumerModule usage.target with - | ref <;> simp

theorem refsAcross_eq (edge : N × N) : snap.refsAcross edge =
    (snap.imports.countP fun key ↦ (key.1.1, key.1.2.1) = edge) +
      (snap.usages.filterMap snap.usageKey).countP fun ref ↦ (ref.1, ref.2.1) = edge := by
  rw [countP_imports, countP_usages, OpenedSnapshot.refsAcross]

theorem imports_rowOf (snap : OpenedSnapshot N) (orders : Orders N) (edge : N × N) :
    (rowOf snap orders edge).totalRefsViaImports =
      snap.imports.countP fun key ↦ (key.1.1, key.1.2.1) = edge := by
  have hsymbols := @symbols_perm N _ snap orders edge
  have hsum := (hsymbols.map EdgeSymbol.importCount).sum_eq
  rw [List.map_map] at hsum
  have hrefs : ∀ key ∈ snap.imports, key.1 ∈ snap.references := fun key hkey ↦
    snap.mem_references.2 (.inl ⟨key.2, hkey⟩)
  rw [← sum_targetsOf hrefs edge]
  refine hsum.trans (congrArg List.sum (List.map_congr_left fun target _ ↦ ?_))
  exact snap.importCount_eq _

theorem usages_rowOf (snap : OpenedSnapshot N) (orders : Orders N) (edge : N × N) :
    (rowOf snap orders edge).totalRefsViaUsages =
      (snap.usages.filterMap snap.usageKey).countP fun ref ↦ (ref.1, ref.2.1) = edge := by
  have hsymbols := @symbols_perm N _ snap orders edge
  have hsum := (hsymbols.map EdgeSymbol.usageCount).sum_eq
  rw [List.map_map] at hsum
  have hrefs : ∀ ref ∈ snap.usages.filterMap snap.usageKey, id ref ∈ snap.references :=
    fun ref href ↦ snap.mem_references.2 (.inr href)
  refine hsum.trans (Eq.trans (congrArg List.sum (List.map_congr_left fun target _ ↦ ?_))
    (sum_targetsOf hrefs edge))
  exact snap.usageCount_eq _

/-- The references of a row are those between its crates. -/
theorem refs_rowOf (snap : OpenedSnapshot N) (orders : Orders N) (edge : N × N) :
    (rowOf snap orders edge).totalRefsViaImports + (rowOf snap orders edge).totalRefsViaUsages =
      snap.refsAcross edge := by
  rw [refsAcross_eq, imports_rowOf, usages_rowOf]

theorem length_symbols_rowOf (snap : OpenedSnapshot N) (orders : Orders N) (edge : N × N) :
    (rowOf snap orders edge).uniqueSymbols = (snap.targetsOf edge).length := by
  have hlength := (@symbols_perm N _ snap orders edge).length_eq
  rwa [List.length_map] at hlength

theorem mem_crossed_iff {edge : N × N} : edge ∈ snap.crossed ↔ 0 < snap.refsAcross edge := by
  rw [refsAcross_eq, Nat.add_pos_iff_pos_or_pos, List.countP_pos_iff, List.countP_pos_iff,
    snap.mem_crossed]
  simp only [snap.mem_references, decide_eq_true_eq]
  constructor
  · rintro ⟨target, ⟨kind, hkind⟩ | husage⟩
    · exact .inl ⟨_, hkind, rfl⟩
    · exact .inr ⟨_, husage, rfl⟩
  · rintro (⟨⟨⟨c, p, target⟩, kind⟩, hkind, rfl⟩ | ⟨⟨c, p, target⟩, husage, rfl⟩)
    · exact ⟨target, .inl ⟨kind, hkind⟩⟩
    · exact ⟨target, .inr husage⟩

/-- The report, row by row. -/
theorem forbiddenDependencyCheck_eq (snap : OpenedSnapshot N) (orders : Orders N)
    (rules : List ForbiddenDependencyRule) : snap.forbiddenDependencyCheck orders rules =
      some (rankBy ForbiddenDependencyViolation.rank ((snap.crateEdges orders).flatMap
        (snap.violationsOf rules))) := by
  have hfound : ((snap.crateEdges orders).mapM fun edge ↦
      violations (snap.consumerKind edge.consumerCrate) edge rules.zipIdx) =
      some ((snap.crateEdges orders).map (snap.violationsOf rules)) := by
    simp only [violations_eq]
    exact List.mapM_pure
  rw [OpenedSnapshot.forbiddenDependencyCheck, hfound, List.flatMap_def]
  rfl

theorem nodup_cases : (snap.casesOf rules).Nodup := by
  have hplaces : rules.zipIdx.Nodup := by
    refine List.Nodup.of_map Prod.snd ?_
    rw [List.zipIdx_map_snd]
    exact List.nodup_range'
  refine List.nodup_flatMap.2 ⟨fun edge _ ↦ ?_, ?_⟩
  · exact (hplaces.filter _).map fun _ _ h ↦ (Prod.mk.inj h).2
  · refine List.Pairwise.imp (fun {edge edge'} hne ↦ ?_) (List.nodup_dedup _ : snap.crossed.Nodup)
    intro entry hentry hentry'
    obtain ⟨_, -, rfl⟩ := List.mem_map.1 hentry
    obtain ⟨_, -, heq⟩ := List.mem_map.1 hentry'
    exact hne (Prod.mk.inj heq).1.symm

open Classical in
theorem mem_cases {entry : (N × N) × ForbiddenDependencyRule × ℕ} :
    entry ∈ snap.casesOf rules ↔ snap.Violated rules entry := by
  rw [OpenedSnapshot.casesOf, List.mem_flatMap]
  constructor
  · rintro ⟨edge, hedge, hentry⟩
    obtain ⟨entry, hrule, rfl⟩ := List.mem_map.1 hentry
    obtain ⟨hplace, hforbids⟩ := List.mem_filter.1 hrule
    exact ⟨mem_crossed_iff.1 hedge, List.mem_zipIdx_iff_getElem?.1 hplace,
      of_decide_eq_true hforbids⟩
  · rintro ⟨hrefs, hplace, hforbids⟩
    refine ⟨entry.1, mem_crossed_iff.2 hrefs, List.mem_map.2 ⟨entry.2, ?_, rfl⟩⟩
    exact List.mem_filter.2 ⟨List.mem_zipIdx_iff_getElem?.2 hplace, decide_eq_true hforbids⟩

open scoped List in
/-- The report says so, but for the order. -/
theorem verdicts_perm : (((snap.crateEdges orders).flatMap (snap.violationsOf rules)).map
    ForbiddenDependencyViolation.verdict).Perm ((snap.casesOf rules).map snap.verdictOf) := by
  have hrow : ∀ edge, (snap.violationsOf rules (rowOf snap orders edge)).map
      ForbiddenDependencyViolation.verdict =
        ((snap.forbidding rules edge).map (Prod.mk edge)).map snap.verdictOf := by
    intro edge
    rw [OpenedSnapshot.violationsOf, List.map_map, List.map_map]
    refine List.map_congr_left fun entry _ ↦ ?_
    show Verdict.mk _ _ _ _ _ _ _ = Verdict.mk _ _ _ _ _ _ _
    rw [← length_symbols_rowOf snap orders, ← refs_rowOf snap orders]
    rfl
  calc ((snap.crateEdges orders).flatMap (snap.violationsOf rules)).map
        ForbiddenDependencyViolation.verdict
    _ ~ ((snap.crossed.map (rowOf snap orders)).flatMap (snap.violationsOf rules)).map
          ForbiddenDependencyViolation.verdict := (crateEdges_perm.flatMap_right _).map _
    _ = (snap.casesOf rules).map snap.verdictOf := by
        rw [List.flatMap_map, List.map_flatMap, OpenedSnapshot.casesOf, List.map_flatMap]
        exact List.flatMap_congr fun edge _ ↦ hrow edge

/-- **Every rule is enforced**, in whatever order the maps are iterated. -/
theorem enforced_forbiddenDependencyCheck (snap : OpenedSnapshot N) (orders : Orders N)
    (rules : List ForbiddenDependencyRule) :
    ∃ report, snap.forbiddenDependencyCheck orders rules = some report ∧
      Enforced snap rules report :=
  ⟨_, forbiddenDependencyCheck_eq snap orders rules, pairwise_rankBy _ _, snap.casesOf rules,
    nodup_cases, fun _ ↦ mem_cases, ((rankBy_perm _ _).map _).trans verdicts_perm⟩

end Enforcement

end RustCodeMcp.CrateEdges
