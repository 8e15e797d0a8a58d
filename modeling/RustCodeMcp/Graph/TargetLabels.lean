import RustCodeMcp.Graph.Lookup

/-!
# Labels of Cargo targets

A crate is labelled by its name, with its target kind and root file behind it where other crates
have that name too. The count is over the crates; the lookup that a label is then handed to goes
over all nodes, and reports a name that a stub, a module or an item has as well (`stub_and_item`).

Labels come back exactly where no other node of the target has the path of the root module or of a
module below it, and where the crates that share a name have a target kind and a root file
(`labelsResolve_iff`).

Two things may go wrong, and the conditions keep them apart. A label that cannot be taken apart
again leads nowhere: a crate name with a bracket in it, or a target without a root file where
several crates share the name (`Readable`). A label that can be may lead to too much: whatever else
has the path, in the target if that is given and anywhere if it is not (`Alone`). **The crate itself
never stands in the way of its root module**, with which it shares the path.
-/

namespace RustCodeMcp.Navigation

open Ownership (NodeKind Namespace)

namespace OpenedSnapshot

variable {N : Type} [DecidableEq N] (snap : OpenedSnapshot N)

/-! ### Labels -/

/-- The crates of the snapshot. -/
def crates : List (Node N) :=
  snap.nodes.filter fun node ↦ node.kind = .crate

/-- More than one crate has the name. -/
def Shared (name : Name) : Prop :=
  1 < snap.crates.countP fun node ↦ node.qualifiedName = name

instance (name : Name) : Decidable (snap.Shared name) :=
  inferInstanceAs (Decidable (1 < _))

/-- The name of a crate, with its target where others have that name too. -/
def targetLabel (node : Node N) : Name :=
  if snap.Shared node.qualifiedName then
    node.qualifiedName ++ '[' :: (node.crateTargetKind.getD "unknown".toList ++
      ']' :: '@' :: node.file.getD "unknown".toList)
  else node.qualifiedName

/-- The crates with their labels. -/
def targetLabels : List (N × Name) :=
  snap.crates.map fun node ↦ (node.id, snap.targetLabel node)

/-- The crate whose tree `module_tree` builds. -/
def moduleTreeCrate (crateName : Name) : Except (LookupError N) (Option N) := do
  let found ← snap.lookupByQualifiedName crateName
  return (found.filter fun node ↦ node.kind = .crate || node.kind = .module).bind Node.crateId

end OpenedSnapshot

/-! ### What is asked of the labels -/

/-- Nothing, or `::` and what follows. -/
def IsPath (path : Name) : Prop :=
  path = [] ∨ ∃ rest, path = ':' :: ':' :: rest

/-- A root module of the crate. -/
def Node.RootOf {N : Type} (root krate : Node N) : Prop :=
  root.kind = .module ∧ root.crateId = some krate.id ∧ root.qualifiedName = krate.qualifiedName

namespace OpenedSnapshot

variable {N : Type} [DecidableEq N] (snap : OpenedSnapshot N)

/-- A module of the crate at a path. -/
def ModuleAt (krate : Node N) (path : Name) (module : Node N) : Prop :=
  module ∈ snap.nodes ∧ module.kind = .module ∧ module.crateId = some krate.id ∧
    module.qualifiedName = krate.qualifiedName ++ path

/-- Labels are unique and resolve back. -/
structure LabelsResolve : Prop where
  distinct : (snap.targetLabels.map Prod.snd).Nodup
  krate : ∀ krate ∈ snap.crates, ∃ found,
    snap.lookupByQualifiedName (snap.targetLabel krate) = .ok (some found) ∧
      (found = krate ∨ found.RootOf krate)
  module : ∀ krate ∈ snap.crates, ∀ path module, snap.ModuleAt krate (':' :: ':' :: path) module →
    snap.lookupByQualifiedName (snap.targetLabel krate ++ ':' :: ':' :: path) = .ok (some module)
  tree : ∀ krate ∈ snap.crates,
    snap.moduleTreeCrate (snap.targetLabel krate) = .ok (some krate.id)

/-! ### When they resolve -/

/-- The label can be taken apart again. -/
structure Readable (krate : Node N) : Prop where
  name : '[' ∉ krate.qualifiedName
  shared : snap.Shared krate.qualifiedName → splitOnce krate.qualifiedName = none ∧
    ∃ kind file, krate.crateTargetKind = some kind ∧ krate.file = some file ∧ ']' ∉ kind ∧
      splitOnce (file ++ [':']) = none

/-- The node is of a crate with the target kind and root file of this one. -/
def InTarget (krate node : Node N) : Prop :=
  ∃ other ∈ snap.nodes, node.crateId = some other.id ∧
    other.crateTargetKind = krate.crateTargetKind ∧ other.file = krate.file

/-- No other node has the path of the module, in the target if the crate's name is shared; the crate
itself has that of its root module. -/
def Alone (krate module : Node N) : Prop :=
  ∀ node ∈ snap.nodes, node.qualifiedName = module.qualifiedName →
    (snap.Shared krate.qualifiedName → snap.InTarget krate node) → node = module ∨ node = krate

/-- Labels can be read, and nothing else has the paths they lead to. -/
structure Resolvable : Prop where
  readable : ∀ krate ∈ snap.crates, snap.Readable krate
  alone : ∀ krate ∈ snap.crates, ∀ path module, IsPath path → snap.ModuleAt krate path module →
    snap.Alone krate module

/-- Names, target kinds and root files as Cargo has them. -/
structure Plain : Prop where
  name : ∀ krate ∈ snap.crates, '[' ∉ krate.qualifiedName ∧ ':' ∉ krate.qualifiedName
  kind : ∀ krate ∈ snap.crates, ∀ kind ∈ krate.crateTargetKind, ']' ∉ kind ∧ ':' ∉ kind
  file : ∀ krate ∈ snap.crates, ∀ file ∈ krate.file, ':' ∉ file

end OpenedSnapshot

/-! ### Splits -/

/-- What has no separator in it comes before the split. -/
theorem splitOnceAt_append {sep : Char} {before : Name} (h : sep ∉ before) (rest : Name) :
    splitOnceAt sep (before ++ rest) =
      (splitOnceAt sep rest).map fun (first, after) ↦ (before ++ first, after) := by
  induction before with
  | nil => simp
  | cons c before ih =>
    rw [List.mem_cons, not_or] at h
    rw [List.cons_append, splitOnceAt, if_neg (Ne.symm h.1), ih h.2, Option.map_map]
    rfl

theorem splitOnceAt_append_cons {sep : Char} {before : Name} (h : sep ∉ before) (rest : Name) :
    splitOnceAt sep (before ++ sep :: rest) = some (before, rest) := by
  rw [splitOnceAt_append h, splitOnceAt, if_pos rfl, Option.map_some]
  dsimp only
  rw [List.append_nil]

theorem splitOnceAt_of_notMem {sep : Char} {text : Name} (h : sep ∉ text) :
    splitOnceAt sep text = none := by
  have happend := splitOnceAt_append h []
  rwa [List.append_nil] at happend

theorem splitOnce_cons {c : Char} {rest : Name} (h : c = ':' → rest.head? ≠ some ':') :
    splitOnce (c :: rest) =
      (splitOnce rest).map fun (before, after) ↦ (c :: before, after) := by
  rw [splitOnce]
  rintro after rfl rfl
  exact h rfl rfl

theorem splitOnce_append_sep {before : Name} (h : splitOnce (before ++ [':']) = none)
    (rest : Name) : splitOnce (before ++ ':' :: ':' :: rest) = some (before, rest) := by
  induction before with
  | nil => rfl
  | cons c before ih =>
    have hhead : (before ++ ':' :: ':' :: rest).head? = (before ++ [':']).head? := by
      cases before <;> rfl
    have hne : c = ':' → (before ++ [':']).head? ≠ some ':' := by
      rintro rfl hsep
      obtain ⟨after, hafter⟩ := List.head?_eq_some_iff.1 hsep
      rw [List.cons_append, hafter] at h
      nomatch h
    rw [List.cons_append, splitOnce_cons hne, Option.map_eq_none_iff] at h
    rw [List.cons_append, splitOnce_cons (hhead ▸ hne), ih h, Option.map_some]

/-- What is behind it does not matter. -/
theorem splitOnce_append_of_some {text before after : Name}
    (h : splitOnce text = some (before, after)) (rest : Name) :
    splitOnce (text ++ rest) = some (before, after ++ rest) := by
  induction text generalizing before with
  | nil => nomatch h
  | cons c text ih =>
    by_cases hsep : c = ':' ∧ text.head? = some ':'
    · obtain ⟨rfl, hhead⟩ := hsep
      obtain ⟨text, rfl⟩ := List.head?_eq_some_iff.1 hhead
      obtain ⟨rfl, rfl⟩ := Prod.mk.inj (Option.some.inj h)
      rfl
    · rw [splitOnce_cons fun hc hhead ↦ hsep ⟨hc, hhead⟩] at h
      obtain ⟨⟨before, after⟩, hsplit, heq⟩ := Option.map_eq_some_iff.1 h
      obtain ⟨rfl, rfl⟩ := Prod.mk.inj heq
      have hne : text ≠ [] := by
        rintro rfl
        nomatch hsplit
      have hhead : (text ++ rest).head? = text.head? := List.head?_append_of_ne_nil _ hne
      rw [List.cons_append, splitOnce_cons fun hc hrest ↦ hsep ⟨hc, hhead ▸ hrest⟩, ih hsplit,
        Option.map_some]

/-- Where there is a `::` there is a split. -/
theorem splitOnce_append_ne_none (before rest : Name) :
    splitOnce (before ++ ':' :: ':' :: rest) ≠ none := by
  induction before with
  | nil => nofun
  | cons c before ih =>
    by_cases hsep : c = ':' ∧ (before ++ ':' :: ':' :: rest).head? = some ':'
    · obtain ⟨rfl, hhead⟩ := hsep
      obtain ⟨text, htext⟩ := List.head?_eq_some_iff.1 hhead
      rw [List.cons_append, htext]
      nofun
    · rw [List.cons_append, splitOnce_cons fun hc hhead ↦ hsep ⟨hc, hhead⟩, Ne,
        Option.map_eq_none_iff]
      exact ih

/-- What has no colon in it has no split. -/
theorem splitOnce_append_of_notMem {text rest : Name} (h : ':' ∉ text)
    (hrest : splitOnce rest = none) : splitOnce (text ++ rest) = none := by
  induction text with
  | nil => exact hrest
  | cons c text ih =>
    rw [List.mem_cons, not_or] at h
    rw [List.cons_append, splitOnce_cons fun hc ↦ absurd hc.symm h.1, ih h.2, Option.map_none]

theorem splitOnce_of_notMem {text : Name} (h : ':' ∉ text) : splitOnce text = none := by
  have happend := splitOnce_append_of_notMem h (show splitOnce [] = none from rfl)
  rwa [List.append_nil] at happend

theorem rsplitOnce_of_notMem {text : Name} (h : ':' ∉ text) : rsplitOnce text = none := by
  induction text with
  | nil => rfl
  | cons c text ih =>
    rw [List.mem_cons, not_or] at h
    rw [rsplitOnce, ih h.2]
    exact fun _ hc _ ↦ h.1 hc.symm

/-! ### Reading labels -/

/-- A name without brackets, and a path. -/
theorem selector_append {name path : Name} (hname : '[' ∉ name) (hpath : IsPath path) :
    selector (name ++ path) = ⟨name ++ path, none, none⟩ := by
  have hnone : (splitOnceAt '[' (name ++ path)).filter
      (fun (before, _) ↦ (splitOnce before).isNone) = none := by
    obtain rfl | ⟨rest, rfl⟩ := hpath
    · rw [List.append_nil, splitOnceAt_of_notMem hname, Option.filter_none]
    · -- A bracket in the path has a `::` before it.
      rw [splitOnceAt_append hname, Option.filter_eq_none_iff]
      intro pair hpair hsome
      obtain ⟨⟨first, after⟩, hsplit, rfl⟩ := Option.map_eq_some_iff.1 hpair
      rw [splitOnceAt, if_neg (by decide), splitOnceAt, if_neg (by decide),
        Option.map_map] at hsplit
      obtain ⟨⟨before, _⟩, _, heq⟩ := Option.map_eq_some_iff.1 hsplit
      obtain ⟨rfl, _⟩ := Prod.mk.inj heq
      exact splitOnce_append_ne_none name before (Option.isNone_iff_eq_none.1 hsome)
  rw [selector, hnone]

/-- A label with a target kind and a root file is read as it was made. -/
theorem selector_target {name kind file path : Name} (hname : '[' ∉ name)
    (hsep : splitOnce name = none) (hkind : ']' ∉ kind) (hfile : splitOnce (file ++ [':']) = none)
    (hpath : IsPath path) :
    selector (name ++ '[' :: (kind ++ ']' :: '@' :: file) ++ path) =
      ⟨name ++ path, some kind, some file⟩ := by
  have hfilter : (splitOnceAt '[' (name ++ '[' :: (kind ++ ']' :: '@' :: file) ++ path)).filter
      (fun (before, _) ↦ (splitOnce before).isNone) =
        some (name, kind ++ ']' :: '@' :: (file ++ path)) := by
    rw [List.append_assoc, List.cons_append, List.append_assoc, List.cons_append, List.cons_append,
      splitOnceAt_append_cons hname, Option.filter_some]
    exact if_pos (Option.isNone_iff_eq_none.2 hsep)
  simp only [selector, hfilter, splitOnceAt_append_cons hkind]
  obtain rfl | ⟨rest, rfl⟩ := hpath
  · have hnone : splitOnce file = none := by
      by_contra hne
      obtain ⟨⟨before, after⟩, hsome⟩ := Option.ne_none_iff_exists'.1 hne
      rw [splitOnce_append_of_some hsome] at hfile
      nomatch hfile
    rw [List.append_nil, hnone, List.append_nil]
  · rw [splitOnce_append_sep hfile]

/-! ### What the lookup finds -/

namespace OpenedSnapshot

variable {N : Type} [DecidableEq N] {snap : OpenedSnapshot N} {krate module node found : Node N}
  {path name : Name}

theorem lookupByQualifiedName_of_scan {result : Option (Node N)}
    (h : snap.canonicalScan name = .ok result) (hsome : result.isSome) :
    snap.lookupByQualifiedName name = .ok result := by
  obtain ⟨found, rfl⟩ := Option.isSome_iff_exists.1 hsome
  show snap.lookupInner (7 + 1) name = _
  rw [lookupInner, h]
  rfl

theorem lookupByQualifiedName_of_error {e : LookupError N}
    (h : snap.canonicalScan name = .error e) : snap.lookupByQualifiedName name = .error e := by
  show snap.lookupInner (7 + 1) name = _
  rw [lookupInner, h]
  rfl

/-- A name without colons is looked for among the canonical names only. -/
theorem named_of_lookup (hcolon : ':' ∉ name)
    (h : snap.lookupByQualifiedName name = .ok (some found)) : snap.content.Named name found := by
  obtain ⟨hnone, -⟩ | ⟨x, hsome, hx, -⟩ | ⟨⟨e, herr⟩, -⟩ := snap.canonicalScan_cases name
  · have hparts : implModuleItemAliasParts name = none := by
      rw [implModuleItemAliasParts, rsplitOnce_of_notMem hcolon]
      rfl
    have hleaf : prefixAndLeaf name = none := by
      rw [prefixAndLeaf, rsplitOnce_of_notMem hcolon, Option.filter_none]
    have hlookup : snap.lookupByQualifiedName name = .ok none := by
      show snap.lookupInner (7 + 1) name = _
      simp only [lookupInner, hnone, lookupImplModuleItemAlias, hparts, hleaf, bind, Except.bind]
    rw [hlookup] at h
    cases h
  · rw [lookupByQualifiedName_of_scan hsome rfl] at h
    obtain rfl := Option.some.inj (Except.ok.inj h)
    exact hx.1
  · rw [lookupByQualifiedName_of_error herr] at h
    cases h

omit [DecidableEq N] in
theorem canonical_of_module (hkind : module.kind = .module)
    (hnamed : snap.content.Named name module) : snap.content.Canonical name module :=
  ⟨hnamed, fun _ _ hof ↦ hof.not_module hkind⟩

/-- Where the name is a module's, nothing else is found. -/
theorem eq_module_of_lookup (hkind : module.kind = .module)
    (hnamed : snap.content.Named name module)
    (h : snap.lookupByQualifiedName name = .ok (some found)) : found = module := by
  have hcanonical := canonical_of_module hkind hnamed
  obtain ⟨-, hno⟩ | ⟨x, hsome, -, hone⟩ | ⟨⟨e, herr⟩, -⟩ := snap.canonicalScan_cases name
  · exact absurd hcanonical (hno module)
  · rw [lookupByQualifiedName_of_scan hsome rfl] at h
    obtain rfl := Option.some.inj (Except.ok.inj h)
    exact (hone module hcanonical).symm
  · rw [lookupByQualifiedName_of_error herr] at h
    nomatch h

/-- The module is found where nothing else has the name but a crate of its. -/
theorem lookup_eq_module_iff (hkind : module.kind = .module)
    (hnamed : snap.content.Named name module)
    (hcrate : ∀ x y, snap.content.Named name x → snap.content.Named name y → x.CrateOf module →
      y.CrateOf module → x = y) :
    snap.lookupByQualifiedName name = .ok (some module) ↔
      ∀ node, snap.content.Named name node → node = module ∨ node.CrateOf module := by
  have hcanonical := canonical_of_module hkind hnamed
  obtain ⟨-, hno⟩ | ⟨x, hsome, hx, hone⟩ | ⟨⟨e, herr⟩, hclash⟩ := snap.canonicalScan_cases name
  · exact absurd hcanonical (hno module)
  · obtain rfl := hone module hcanonical
    refine iff_of_true (lookupByQualifiedName_of_scan hsome rfl) fun node hnode ↦
      Content.eq_or_crateOf ?_ hx hnode
    rintro ⟨y, z, hy, hz, hne⟩
    exact hne ((hone y hy).trans (hone z hz).symm)
  · refine iff_of_false ?_ fun hall ↦ ?_
    · rw [lookupByQualifiedName_of_error herr]
      nofun
    -- Of two canonical nodes each is the module; of two crates beside a module it is the module.
    have honly : ∀ y, snap.content.Canonical name y → y = module := fun y hy ↦
      (hall y hy.1).resolve_right (hy.2 module hnamed)
    obtain ⟨y, z, hy, hz, hne⟩ | ⟨y, z, root, hy, hz, hroot, hne, hyroot, hzroot⟩ := hclash
    · exact hne ((honly y hy).trans (honly z hz).symm)
    · obtain rfl := honly root (Content.canonical_of_crateOf hyroot hroot)
      exact hne (hcrate y z hy hz hyroot hzroot)

/-! ### Labels that can be read -/

omit [DecidableEq N] in
theorem mem_crates : krate ∈ snap.crates ↔ krate ∈ snap.nodes ∧ krate.kind = .crate := by
  rw [crates, List.mem_filter, decide_eq_true_eq]

omit [DecidableEq N] in
theorem eq_of_id (hnode : node ∈ snap.nodes) (hmodule : module ∈ snap.nodes)
    (h : node.id = module.id) : node = module :=
  List.inj_on_of_nodup_map snap.nodup hnode hmodule h

omit [DecidableEq N] in
/-- A name that is not shared is that of one crate. -/
theorem eq_of_not_shared {other : Node N} (hkrate : krate ∈ snap.crates)
    (hother : other ∈ snap.crates) (hname : krate.qualifiedName = other.qualifiedName)
    (h : ¬ snap.Shared krate.qualifiedName) : krate = other := by
  have hfilter : ∀ node ∈ [krate, other], node ∈ snap.crates.filter
      fun node ↦ node.qualifiedName = krate.qualifiedName := by
    simp [hkrate, hother, hname]
  rw [Shared, List.countP_eq_length_filter] at h
  by_contra hne
  exact h ((List.subperm_of_subset (by simpa using hne) hfilter).length_le)

omit [DecidableEq N] in
/-- How a readable label, with a path behind it, is read. -/
theorem selector_targetLabel (h : snap.Readable krate) (hpath : IsPath path) :
    selector (snap.targetLabel krate ++ path) = ⟨krate.qualifiedName ++ path,
      if snap.Shared krate.qualifiedName then krate.crateTargetKind else none,
      if snap.Shared krate.qualifiedName then krate.file else none⟩ := by
  unfold targetLabel
  split_ifs with hshared
  · obtain ⟨hsep, kind, file, hkind, hfile, hkind', hfile'⟩ := h.shared hshared
    rw [hkind, hfile]
    exact selector_target h.name hsep hkind' hfile' hpath
  · exact selector_append h.name hpath

omit [DecidableEq N] in
/-- What has the name that a label and a path make. -/
theorem named_targetLabel (h : snap.Readable krate) (hpath : IsPath path) :
    snap.content.Named (snap.targetLabel krate ++ path) node ↔ node ∈ snap.nodes ∧
      node.qualifiedName = krate.qualifiedName ++ path ∧
        (snap.Shared krate.qualifiedName → snap.InTarget krate node) := by
  rw [Content.Named, selector_targetLabel h hpath, Content.Selects]
  refine and_congr Iff.rfl (and_congr Iff.rfl ?_)
  by_cases hshared : snap.Shared krate.qualifiedName
  · obtain ⟨-, kind, file, hkind, hfile, -⟩ := h.shared hshared
    simp [hshared, InTarget, hkind, hfile, content]
  · simp [hshared]

omit [DecidableEq N] in
theorem ModuleAt.named (h : snap.ModuleAt krate path module) (hkrate : krate ∈ snap.crates)
    (hreadable : snap.Readable krate) (hpath : IsPath path) :
    snap.content.Named (snap.targetLabel krate ++ path) module := by
  obtain ⟨hmem, -, hid, hname⟩ := h
  exact (named_targetLabel hreadable hpath).2
    ⟨hmem, hname, fun _ ↦ ⟨krate, (mem_crates.1 hkrate).1, hid, rfl, rfl⟩⟩

/-- **A label with a path behind it comes back exactly where the module there is alone.** -/
theorem lookup_targetLabel_iff (hown : ∀ krate ∈ snap.crates, krate.crateId = some krate.id)
    (hkrate : krate ∈ snap.crates) (hreadable : snap.Readable krate) (hpath : IsPath path)
    (hmodule : snap.ModuleAt krate path module) :
    snap.lookupByQualifiedName (snap.targetLabel krate ++ path) = .ok (some module) ↔
      snap.Alone krate module := by
  obtain ⟨hmem, hkind, hid, hname⟩ := id hmodule
  have hcrate : ∀ node ∈ snap.nodes, node.CrateOf module ↔ node = krate := by
    intro node hnode
    constructor
    · rintro ⟨hnodeKind, -, hnodeId⟩
      rw [hown node (mem_crates.2 ⟨hnode, hnodeKind⟩), hid] at hnodeId
      exact eq_of_id hnode (mem_crates.1 hkrate).1 (Option.some.inj hnodeId)
    · rintro rfl
      exact ⟨(mem_crates.1 hkrate).2, hkind, (hown _ hkrate).trans hid.symm⟩
  rw [lookup_eq_module_iff hkind (hmodule.named hkrate hreadable hpath) fun x y hx hy hxof hyof ↦
    ((hcrate x hx.1).1 hxof).trans ((hcrate y hy.1).1 hyof).symm]
  simp only [named_targetLabel hreadable hpath, ← hname]
  constructor
  · intro hall node hnode hqualified htarget
    exact (hall node ⟨hnode, hqualified, htarget⟩).imp_right (hcrate node hnode).1
  · rintro halone node ⟨hnode, hqualified, htarget⟩
    exact (halone node hnode hqualified htarget).imp_right (hcrate node hnode).2

omit [DecidableEq N] in
/-- Labels that can be read are of one crate. -/
theorem targetLabel_inj {other : Node N} (hkrate : krate ∈ snap.crates)
    (hother : other ∈ snap.crates) (hreadable : ∀ krate ∈ snap.crates, snap.Readable krate)
    (htriples : (snap.crates.map fun krate ↦
      (krate.qualifiedName, krate.crateTargetKind, krate.file)).Nodup)
    (h : snap.targetLabel krate = snap.targetLabel other) : krate = other := by
  have hread : ∀ krate ∈ snap.crates, selector (snap.targetLabel krate) = ⟨krate.qualifiedName,
      if snap.Shared krate.qualifiedName then krate.crateTargetKind else none,
      if snap.Shared krate.qualifiedName then krate.file else none⟩ := fun krate hkrate ↦ by
    simpa using selector_targetLabel (hreadable krate hkrate) (.inl (Eq.refl []))
  have hselector := (hread krate hkrate).symm.trans
    ((congrArg selector h).trans (hread other hother))
  obtain ⟨hname, hkind, hfile⟩ := Selector.mk.inj hselector
  by_cases hshared : snap.Shared krate.qualifiedName
  · rw [if_pos hshared, if_pos (hname ▸ hshared)] at hkind hfile
    refine List.inj_on_of_nodup_map htriples hkrate hother ?_
    rw [hname, hkind, hfile]
  · exact eq_of_not_shared hkrate hother hname hshared

/-- A label that leads back to its crate has a target kind and a root file, if there is anything
behind the name. -/
theorem readable_of_lookup (hplain : snap.Plain) (hkrate : krate ∈ snap.crates)
    (hown : krate.crateId = some krate.id)
    (hlookup : snap.lookupByQualifiedName (snap.targetLabel krate) = .ok (some found))
    (hfound : found = krate ∨ found.RootOf krate) : snap.Readable krate := by
  obtain ⟨hname, hcolon⟩ := hplain.name krate hkrate
  have hsep := splitOnce_of_notMem hcolon
  refine ⟨hname, fun hshared ↦ ⟨hsep, ?_⟩⟩
  have hkind : ']' ∉ krate.crateTargetKind.getD "unknown".toList ∧
      ':' ∉ krate.crateTargetKind.getD "unknown".toList := by
    cases h : krate.crateTargetKind with
    | none => decide
    | some kind => exact hplain.kind krate hkrate kind h
  have hfile : ':' ∉ krate.file.getD "unknown".toList := by
    cases h : krate.file with
    | none => decide
    | some file => exact hplain.file krate hkrate file h
  have hlabel : snap.targetLabel krate = _ := if_pos hshared
  generalize krate.crateTargetKind.getD "unknown".toList = kind at hkind hlabel
  generalize krate.file.getD "unknown".toList = file at hfile hlabel
  have hfile' : splitOnce (file ++ [':']) = none := splitOnce_append_of_notMem hfile rfl
  have hselector := selector_target hname hsep hkind.1 hfile' (.inl rfl)
  rw [List.append_nil, List.append_nil, ← hlabel] at hselector
  have hlabelColon : ':' ∉ snap.targetLabel krate := by
    rw [hlabel]
    simp [hcolon, hkind.2, hfile]
  obtain ⟨-, hselects⟩ := named_of_lookup hlabelColon hlookup
  rw [hselector] at hselects
  -- The target kind and the root file that the label names are those of the crate that was found.
  obtain ⟨other, hother, hid, hkindEq, hfileEq⟩ := hselects.2 kind rfl
  have hfoundId : found.crateId = some krate.id := by
    obtain rfl | hroot := hfound
    · exact hown
    · exact hroot.2.1
  obtain rfl := eq_of_id hother (mem_crates.1 hkrate).1
    (Option.some.inj (hid.symm.trans hfoundId))
  exact ⟨kind, file, hkindEq, hfileEq file rfl, hkind.1, hfile'⟩

theorem moduleTreeCrate_of_lookup (hkrate : krate ∈ snap.crates)
    (hown : krate.crateId = some krate.id) (hfound : found = krate ∨ found.RootOf krate)
    (hlookup : snap.lookupByQualifiedName name = .ok (some found)) :
    snap.moduleTreeCrate name = .ok (some krate.id) := by
  have hkind : found.kind = .crate ∨ found.kind = .module := by
    obtain rfl | hroot := hfound
    · exact .inl (mem_crates.1 hkrate).2
    · exact .inr hroot.1
  have hid : found.crateId = some krate.id := by
    obtain rfl | hroot := hfound
    · exact hown
    · exact hroot.2.1
  rw [moduleTreeCrate, hlookup]
  show Except.ok ((Option.filter _ (some found)).bind Node.crateId) = _
  rw [Option.filter_some, if_pos (by simpa using hkind), Option.bind_some, hid]

/-- **When labels are unique and resolve back**: when they can be read and the modules of a target
are alone at their paths, and, with names, target kinds and root files as Cargo has them, only
then. -/
theorem labelsResolve_iff (hown : ∀ krate ∈ snap.crates, krate.crateId = some krate.id)
    (hroot : ∀ krate ∈ snap.crates, ∃ root ∈ snap.nodes, root.RootOf krate)
    (htriples : (snap.crates.map fun krate ↦
      (krate.qualifiedName, krate.crateTargetKind, krate.file)).Nodup) :
    (snap.Resolvable → snap.LabelsResolve) ∧
      (snap.Plain → snap.LabelsResolve → snap.Resolvable) := by
  have hrootAt : ∀ krate ∈ snap.crates, ∃ root, snap.ModuleAt krate [] root := by
    intro krate hkrate
    obtain ⟨root, hmem, hkind, hid, hname⟩ := hroot krate hkrate
    exact ⟨root, hmem, hkind, hid, hname.trans (List.append_nil _).symm⟩
  have hat : ∀ {krate root}, snap.ModuleAt krate [] root → root.RootOf krate :=
    fun h ↦ ⟨h.2.1, h.2.2.1, h.2.2.2.trans (List.append_nil _)⟩
  constructor
  · intro h
    have hfound : ∀ krate ∈ snap.crates, ∃ found,
        snap.lookupByQualifiedName (snap.targetLabel krate) = .ok (some found) ∧
          (found = krate ∨ found.RootOf krate) := by
      intro krate hkrate
      obtain ⟨root, hmodule⟩ := hrootAt krate hkrate
      have hlookup := (lookup_targetLabel_iff hown hkrate (h.readable krate hkrate) (.inl rfl)
        hmodule).2 (h.alone krate hkrate [] root (.inl rfl) hmodule)
      rw [List.append_nil] at hlookup
      exact ⟨root, hlookup, .inr (hat hmodule)⟩
    refine ⟨?_, hfound, fun krate hkrate path module hmodule ↦ ?_, fun krate hkrate ↦ ?_⟩
    · rw [targetLabels, List.map_map]
      exact ((List.Nodup.of_map _ snap.nodup).filter _).map_on fun krate hkrate other hother heq ↦
        targetLabel_inj hkrate hother h.readable htriples heq
    · exact (lookup_targetLabel_iff hown hkrate (h.readable krate hkrate) (.inr ⟨path, rfl⟩)
        hmodule).2 (h.alone krate hkrate _ module (.inr ⟨path, rfl⟩) hmodule)
    · obtain ⟨found, hlookup, hof⟩ := hfound krate hkrate
      exact moduleTreeCrate_of_lookup hkrate (hown krate hkrate) hof hlookup
  · intro hplain h
    have hreadable : ∀ krate ∈ snap.crates, snap.Readable krate := fun krate hkrate ↦ by
      obtain ⟨found, hlookup, hof⟩ := h.krate krate hkrate
      exact readable_of_lookup hplain hkrate (hown krate hkrate) hlookup hof
    refine ⟨hreadable, fun krate hkrate path module hpath hmodule ↦ ?_⟩
    rw [← lookup_targetLabel_iff hown hkrate (hreadable krate hkrate) hpath hmodule]
    have hpath' := hpath
    obtain rfl | ⟨rest, rfl⟩ := hpath'
    · obtain ⟨found, hlookup, -⟩ := h.krate krate hkrate
      have hnamed := hmodule.named hkrate (hreadable krate hkrate) hpath
      rw [List.append_nil] at hnamed ⊢
      rw [hlookup, eq_module_of_lookup hmodule.2.1 hnamed hlookup]
    · exact h.module krate hkrate rest module hmodule

/-! ### Two targets of one name -/

instance (root krate : Node N) : Decidable (root.RootOf krate) :=
  inferInstanceAs (Decidable (root.kind = .module ∧ root.crateId = some krate.id ∧
    root.qualifiedName = krate.qualifiedName))

instance (krate node : Node N) : Decidable (snap.InTarget krate node) :=
  inferInstanceAs (Decidable (∃ other ∈ snap.nodes, node.crateId = some other.id ∧
    other.crateTargetKind = krate.crateTargetKind ∧ other.file = krate.file))

instance (krate module : Node N) : Decidable (snap.Alone krate module) :=
  inferInstanceAs (Decidable (∀ node ∈ snap.nodes, node.qualifiedName = module.qualifiedName →
    (snap.Shared krate.qualifiedName → snap.InTarget krate node) → node = module ∨ node = krate))

end OpenedSnapshot

section Targets

/-- A node with the same name throughout. -/
private def targetNode (id : ℕ) (kind : NodeKind) (name : String) (crateId : Option ℕ) : Node ℕ :=
  ⟨id, kind, name.toList, name.toList, crateId, none, none, none⟩

/-- A crate of that name, of a kind of target. -/
private def targetCrate (id : ℕ) (kind file : String) : Node ℕ :=
  { targetNode id .crate "app" (some id) with
    file := some file.toList, crateTargetKind := some kind.toList }

/-- A library and a program of one name, a stub, and a module of the program. -/
def twoTargets : OpenedSnapshot ℕ where
  nodes := [targetCrate 0 "lib" "src/lib.rs", targetNode 1 .module "app" (some 0),
    targetCrate 2 "bin" "src/main.rs", targetNode 3 .module "app" (some 2),
    targetNode 4 .module "app::cli" (some 2), targetNode 5 .externalSymbol "app" none]
  nodup := by decide
  bindings := []

/-- Its labels are unique and resolve back. -/
theorem labelsResolve_iff_twoTargets :
    twoTargets.Resolvable ∧ (twoTargets.LabelsResolve ↔ twoTargets.Resolvable) := by
  have hcrates : twoTargets.crates =
      [targetCrate 0 "lib" "src/lib.rs", targetCrate 2 "bin" "src/main.rs"] := by decide +kernel
  have hreadable : ∀ kind file : String, ']' ∉ kind.toList →
      splitOnce (file.toList ++ [':']) = none →
        ∀ id, twoTargets.Readable (targetCrate id kind file) :=
    fun kind file hkind hfile _ ↦
      ⟨show '[' ∉ "app".toList by decide, fun _ ↦ ⟨show splitOnce "app".toList = none by decide,
        kind.toList, file.toList, rfl, rfl, hkind, hfile⟩⟩
  have halone : ∀ krate ∈ twoTargets.crates, ∀ module ∈ twoTargets.nodes, module.kind = .module →
      module.crateId = some krate.id → twoTargets.Alone krate module := by decide +kernel
  have hresolvable : twoTargets.Resolvable := by
    refine ⟨fun krate hkrate ↦ ?_, fun krate hkrate _ module _ hmodule ↦ ?_⟩
    · rw [hcrates] at hkrate
      obtain rfl | rfl := List.mem_pair.1 hkrate
      · exact hreadable _ _ (by decide) (by decide) _
      · exact hreadable _ _ (by decide) (by decide) _
    · exact halone krate hkrate module hmodule.1 hmodule.2.1 hmodule.2.2.1
  have hplain : twoTargets.Plain :=
    ⟨by decide +kernel, by decide +kernel, by decide +kernel⟩
  obtain ⟨henough, honly⟩ := twoTargets.labelsResolve_iff (by decide +kernel) (by decide +kernel)
    (by decide +kernel)
  exact ⟨hresolvable, honly hplain, henough⟩

/-- A library whose name a stub has as well. -/
def stubbed : OpenedSnapshot ℕ where
  nodes := [targetCrate 0 "lib" "src/lib.rs", targetNode 1 .module "app" (some 0),
    targetNode 2 .externalSymbol "app" none]
  nodup := by decide
  bindings := []

/-- A library with a module and a function of one path. -/
def overloaded : OpenedSnapshot ℕ where
  nodes := [targetCrate 0 "lib" "src/lib.rs", targetNode 1 .module "app" (some 0),
    targetNode 2 .module "app::cli" (some 0), targetNode 3 .item "app::cli" (some 0)]
  nodup := by decide
  bindings := []

/-- **Labels that do not resolve**: the label of a crate whose name a stub has as well is reported
as ambiguous, and so is the path of a module that an item shares. -/
theorem stub_and_item :
    (∀ snap ∈ [stubbed, overloaded], (∀ krate ∈ snap.crates, krate.crateId = some krate.id) ∧
      (∀ krate ∈ snap.crates, ∃ root ∈ snap.nodes, root.RootOf krate) ∧
      (snap.crates.map fun krate ↦
        (krate.qualifiedName, krate.crateTargetKind, krate.file)).Nodup) ∧
    stubbed.targetLabels = [(0, "app".toList)] ∧
    stubbed.moduleTreeCrate "app".toList = .error (.ambiguous "app".toList 1 2) ∧
    ¬ stubbed.LabelsResolve ∧
    overloaded.targetLabels = [(0, "app".toList)] ∧
    overloaded.lookupByQualifiedName "app::cli".toList =
      .error (.ambiguous "app::cli".toList 2 3) ∧
    ¬ overloaded.LabelsResolve := by
  have hstub : stubbed.moduleTreeCrate "app".toList = .error (.ambiguous "app".toList 1 2) := by
    decide +kernel
  have hitem : overloaded.lookupByQualifiedName "app::cli".toList =
      .error (.ambiguous "app::cli".toList 2 3) := by decide +kernel
  refine ⟨?_, by decide +kernel, hstub, fun h ↦ ?_, by decide +kernel, hitem, fun h ↦ ?_⟩
  · intro snap hsnap
    obtain rfl | rfl := List.mem_pair.1 hsnap <;>
      exact ⟨by decide +kernel, by decide +kernel, by decide +kernel⟩
  · have htree := h.tree (targetCrate 0 "lib" "src/lib.rs") (by decide +kernel)
    rw [show stubbed.targetLabel (targetCrate 0 "lib" "src/lib.rs") = "app".toList by
      decide +kernel, hstub] at htree
    nomatch htree
  · have hmodule := h.module (targetCrate 0 "lib" "src/lib.rs") (by decide +kernel) "cli".toList
      (targetNode 2 .module "app::cli" (some 0)) ⟨by decide +kernel, rfl, rfl, by decide +kernel⟩
    rw [show overloaded.targetLabel (targetCrate 0 "lib" "src/lib.rs") ++
      ':' :: ':' :: "cli".toList = "app::cli".toList by decide +kernel, hitem] at hmodule
    nomatch hmodule

end Targets

end RustCodeMcp.Navigation
