import RustCodeMcp.Graph.Names

/-!
# What a name denotes

`Denotes` says what a name may mean whatever the order of the ids: any node of the canonical name,
any member that fits, any re-export of what the prefix may mean. `Answers` keeps to what a lookup
may come to, `Reports` says where it meets two canonical nodes, and `Silent` where it drops a
meaning without an error.

**Ambiguity is spread over three notions because the lookup treats it in three ways.** Two canonical
nodes are an error, whichever comes first, unless one is a root module and the other its crate; two
members that fit count as none; of two re-exports the first is taken. Only the last loses a meaning
without a word, and so does a root module between two crates, where the order decides whether the
clash is seen. A name is silent when that happens at it or at a name it is looked up by.

All of it is said of the content of a snapshot, a set of nodes and bindings, so none of it can
depend on the order.
-/

namespace RustCodeMcp.Navigation

open Ownership (NodeKind Namespace)

variable {N : Type}

/-! ### The content of a snapshot -/

/-- The nodes and bindings without their order. -/
@[ext]
structure Content (N : Type) where
  nodes : Set (Node N)
  bindings : Set (Binding N)

/-- A crate and the root module that it shares its path with. -/
def Node.CrateOf (krate root : Node N) : Prop :=
  krate.kind = .crate ∧ root.kind = .module ∧ krate.crateId = root.crateId

theorem Node.CrateOf.not_module {x y : Node N} (h : x.CrateOf y) : x.kind ≠ .module := by
  rw [h.1]
  nofun

namespace Content

variable (c : Content N)

/-- The node is what the selector asks for. -/
def Selects (sel : Selector) (node : Node N) : Prop :=
  node.qualifiedName = sel.canonical ∧ ∀ kind ∈ sel.targetKind, ∃ krate ∈ c.nodes,
    node.crateId = some krate.id ∧ krate.crateTargetKind = some kind ∧
      ∀ root ∈ sel.targetRoot, krate.file = some root

/-- The node has the name, and is what the selector in it asks for. -/
def Named (name : Name) (x : Node N) : Prop :=
  x ∈ c.nodes ∧ c.Selects (selector name) x

/-- A crate gives way to its root module. -/
def Canonical (name : Name) (x : Node N) : Prop :=
  c.Named name x ∧ ∀ y, c.Named name y → ¬ x.CrateOf y

/-- Two canonical nodes that are not a crate and its root module. -/
def Clash (name : Name) : Prop :=
  ∃ x y, c.Canonical name x ∧ c.Canonical name y ∧ x ≠ y

/-- One root module beside two crates. -/
def Doubled (name : Name) : Prop :=
  ∃ x y root, c.Named name x ∧ c.Named name y ∧ c.Named name root ∧ x ≠ y ∧
    x.CrateOf root ∧ y.CrateOf root

section

variable {c} {name : Name} {x y root : Node N}

theorem canonical_of_crateOf (h : x.CrateOf root) (hroot : c.Named name root) :
    c.Canonical name root :=
  ⟨hroot, fun _ _ hof ↦ hof.not_module h.2.1⟩

/-- Of two nodes that do not go together, two are canonical, unless they are crates of one root. -/
theorem clash_or_doubled (hx : c.Named name x)
    (hy : c.Named name y) (hne : x ≠ y) (hxy : ¬ x.CrateOf y) (hyx : ¬ y.CrateOf x) :
    c.Clash name ∨ c.Doubled name := by
  by_cases hcx : c.Canonical name x
  · by_cases hcy : c.Canonical name y
    · exact .inl ⟨x, y, hcx, hcy, hne⟩
    · obtain ⟨root, hnamed, hof⟩ : ∃ root, c.Named name root ∧ y.CrateOf root := by
        simpa [Canonical, hy] using hcy
      exact .inl ⟨x, root, hcx, canonical_of_crateOf hof hnamed, fun h ↦ hyx (h ▸ hof)⟩
  obtain ⟨root, hnamed, hof⟩ : ∃ root, c.Named name root ∧ x.CrateOf root := by
    simpa [Canonical, hx] using hcx
  by_cases hcy : c.Canonical name y
  · exact .inl ⟨root, y, canonical_of_crateOf hof hnamed, hcy, fun h ↦ hxy (h ▸ hof)⟩
  obtain ⟨other, hother, hofy⟩ : ∃ root, c.Named name root ∧ y.CrateOf root := by
    simpa [Canonical, hy] using hcy
  by_cases heq : root = other
  · exact .inr ⟨x, y, root, hx, hy, hnamed, hne, hof, heq ▸ hofy⟩
  · exact .inl ⟨root, other, canonical_of_crateOf hof hnamed, canonical_of_crateOf hofy hother, heq⟩

/-- Where nothing clashes, a node of the name is the canonical one, or its crate. -/
theorem eq_or_crateOf (hclash : ¬ c.Clash name) (hroot : c.Canonical name root)
    (hx : c.Named name x) : x = root ∨ x.CrateOf root := by
  have hone : ∀ y, c.Canonical name y → y = root := by
    intro y hy
    by_contra hne
    exact hclash ⟨y, root, hy, hroot, hne⟩
  by_cases hcx : c.Canonical name x
  · exact .inl (hone x hcx)
  · obtain ⟨other, hother, hof⟩ : ∃ other, c.Named name other ∧ x.CrateOf other := by
      simpa [Canonical, hx] using hcx
    exact .inr (hone other (canonical_of_crateOf hof hother) ▸ hof)

end

variable [DecidableEq N]

/-- A member of the type, in an impl of the module. -/
def Member (root : Node N) (typeName memberName : Name) (x : Node N) : Prop :=
  root.kind = .module ∧ x ∈ c.nodes ∧
    isImplModuleItemAliasCandidate x root.crateId root.file typeName memberName

/-- What a re-export of the module by this name leads to. -/
def Reexport (before : Node N) (leaf : Name) (x : Node N) : Prop :=
  x ∈ c.nodes ∧ ∃ binding ∈ c.bindings, binding.fromModule = before.id ∧
    binding.visibleName = leaf ∧ binding.kind ≠ .declared ∧ binding.target = x.id

/-! ### Meanings -/

/-- The meanings of a name. -/
inductive Denotes : Name → Node N → Prop
  | canonical {name x} : c.Canonical name x → Denotes name x
  | member {name modulePrefix typeName memberName root x} :
      implModuleItemAliasParts name = some (modulePrefix, typeName, memberName) →
      Denotes modulePrefix root → c.Member root typeName memberName x → Denotes name x
  | reexport {name before leaf y x} : prefixAndLeaf name = some (before, leaf) →
      Denotes before y → c.Reexport y leaf x → Denotes name x

/-- What a lookup with so many hops may come to. A member counts where no other one fits. -/
inductive Answers : ℕ → Name → Node N → Prop
  | canonical {hops name x} : c.Canonical name x → Answers hops name x
  | member {hops name modulePrefix typeName memberName root x} :
      implModuleItemAliasParts name = some (modulePrefix, typeName, memberName) →
      Answers hops modulePrefix root → c.Member root typeName memberName x →
      (∀ y, c.Member root typeName memberName y → y = x) → Answers (hops + 1) name x
  | reexport {hops name before leaf y x} : prefixAndLeaf name = some (before, leaf) →
      Answers hops before y → c.Reexport y leaf x → Answers (hops + 1) name x

/-- The only member that fits a name. -/
def AnswersMember (hops : ℕ) (name : Name) (x : Node N) : Prop :=
  ∃ modulePrefix typeName memberName root,
    implModuleItemAliasParts name = some (modulePrefix, typeName, memberName) ∧
      c.Answers hops modulePrefix root ∧ c.Member root typeName memberName x ∧
      ∀ y, c.Member root typeName memberName y → y = x

/-- The lookup meets two canonical nodes, at the name or on its way. -/
inductive Reports : ℕ → Name → Prop
  | here {hops name} : c.Clash name → Reports hops name
  | module {hops name modulePrefix typeName memberName} : (∀ x, ¬ c.Canonical name x) →
      implModuleItemAliasParts name = some (modulePrefix, typeName, memberName) →
      Reports hops modulePrefix → Reports (hops + 1) name
  | before {hops name before leaf} : (∀ x, ¬ c.Canonical name x) →
      (∀ x, ¬ c.AnswersMember hops name x) → prefixAndLeaf name = some (before, leaf) →
      Reports hops before → Reports (hops + 1) name

/-- The names that a lookup with one hop more goes on to. -/
inductive LooksUp (hops : ℕ) (name : Name) : Name → Prop
  | module {modulePrefix typeName memberName} : (∀ x, ¬ c.Canonical name x) →
      implModuleItemAliasParts name = some (modulePrefix, typeName, memberName) →
      LooksUp hops name modulePrefix
  | before {before leaf} : (∀ x, ¬ c.Canonical name x) →
      (∀ modulePrefix typeName memberName,
        implModuleItemAliasParts name = some (modulePrefix, typeName, memberName) →
          ¬ c.Reports hops modulePrefix) →
      (∀ x, ¬ c.AnswersMember hops name x) → prefixAndLeaf name = some (before, leaf) →
      LooksUp hops name before

/-- A clash is told in one order of the ids only, or a meaning is dropped without an error. -/
def SilentHere (hops : ℕ) (name : Name) : Prop :=
  c.Doubled name ∧ ¬ c.Clash name ∨
    ¬ c.Reports hops name ∧ ∃ x y, c.Answers hops name x ∧ c.Denotes name y ∧ y ≠ x

/-- At the name or on the way. -/
inductive Silent : ℕ → Name → Prop
  | here {hops name} : c.SilentHere hops name → Silent hops name
  | onTheWay {hops name next} : c.LooksUp hops name next → Silent hops next →
      Silent (hops + 1) name

variable {c} {hops : ℕ} {name : Name} {x y : Node N}

theorem AnswersMember.answers (h : c.AnswersMember hops name x) : c.Answers (hops + 1) name x := by
  obtain ⟨_, _, _, _, hparts, hroot, hx, hone⟩ := h
  exact .member hparts hroot hx hone

theorem Answers.denotes (h : c.Answers hops name x) : c.Denotes name x := by
  induction h with
  | canonical hx => exact .canonical hx
  | member hparts _ hx _ ih => exact .member hparts ih hx
  | reexport hparts _ hx ih => exact .reexport hparts ih hx

/-- What a lookup of a name without a canonical node may come to. -/
theorem answers_succ (hnone : ∀ x, ¬ c.Canonical name x) : c.Answers (hops + 1) name x ↔
    c.AnswersMember hops name x ∨ ∃ before leaf y, prefixAndLeaf name = some (before, leaf) ∧
      c.Answers hops before y ∧ c.Reexport y leaf x := by
  constructor
  · intro h
    cases h with
    | canonical hx => exact absurd hx (hnone x)
    | member hparts hroot hx hone => exact .inl ⟨_, _, _, _, hparts, hroot, hx, hone⟩
    | reexport hparts hy hx => exact .inr ⟨_, _, _, hparts, hy, hx⟩
  · rintro (h | ⟨_, _, _, hparts, hy, hx⟩)
    · exact h.answers
    · exact .reexport hparts hy hx

theorem not_reports_succ (hnone : ∀ x, ¬ c.Canonical name x)
    (hmodule : ∀ modulePrefix typeName memberName,
      implModuleItemAliasParts name = some (modulePrefix, typeName, memberName) →
        ¬ c.Reports hops modulePrefix)
    (hbefore : (∀ x, ¬ c.AnswersMember hops name x) → ∀ before leaf,
      prefixAndLeaf name = some (before, leaf) → ¬ c.Reports hops before) :
    ¬ c.Reports (hops + 1) name := by
  intro h
  cases h with
  | here hclash =>
    obtain ⟨x, -, hx, -⟩ := hclash
    exact hnone x hx
  | module _ hparts hreports => exact hmodule _ _ _ hparts hreports
  | before _ hmember hparts hreports => exact hbefore hmember _ _ hparts hreports

theorem not_reports_of_canonical (hx : c.Canonical name x)
    (hone : ∀ y, c.Canonical name y → y = x) : ¬ c.Reports hops name := by
  intro h
  cases h with
  | here hclash =>
    obtain ⟨y, z, hy, hz, hne⟩ := hclash
    exact hne ((hone y hy).trans (hone z hz).symm)
  | module hnone => exact hnone x hx
  | before hnone => exact hnone x hx

theorem not_reports_zero (hnone : ∀ x, ¬ c.Canonical name x) : ¬ c.Reports 0 name := by
  rintro ⟨x, -, hx, -⟩
  exact hnone x hx

end Content

end RustCodeMcp.Navigation
