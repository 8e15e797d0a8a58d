import RustCodeMcp.Graph.Dirty

/-!
# An incremental build equals a full one

After every build the published snapshot is what a full build of the tree gives, as long as the
files that are read for a group change only where the build looks for it (`State.Covered`), and the
crates that name a stub agree on it (`Loader.Agrees`). A module file that was declared and missing,
and is created in a package that no other module file of the group lies in, goes unnoticed
(`stale_rows`).

Three things can go wrong when rows are reused, and each has a condition that excludes it. The files
that a group reads may change where the hashes do not see it (`Covered`). The crates that name a
stub may disagree on it, so that the one written last wins, which is not the same in a full build
and in an incremental one (`Agrees`). Cargo may list other targets and dependencies for the same
manifests (`Lawful`).

**The invariant says that every snapshot on disk is a full build of its own tree**, and the
published one of the tree as it was last built; a build that goes on from one compares inputs, not
trees.
-/

namespace RustCodeMcp.Graph

open Machine

variable {Name Stub Row Value Content : Type*} [DecidableEq Name]

/-- How cargo lists the crates: their targets and dependencies come with the manifests, the lock
file and the configuration, and with the files that the walk finds. -/
structure Loader.Lawful (x : Loader Name Stub Row Value Content) : Prop where
  ordered : ∀ tree, Ordered (x.crateGroups tree)
  stable : ∀ tree tree',
    (computeBuildInputs x.root tree).global = (computeBuildInputs x.root tree').global →
    (x.names tree).toFinset = (x.names tree').toFinset ∨
      computeBuildInputs x.root tree = computeBuildInputs x.root tree' →
    x.crateGroups tree' = x.crateGroups tree

/-- Whoever names a stub has the same node and records for it. -/
def Loader.Agrees (x : Loader Name Stub Row Value Content)
    (record : Tree Content → Stub → StubRecord Value) (tree : Tree Content) : Prop :=
  ∀ krate ∈ x.names tree, ∀ stub r, (stub, r) ∈ (x.extractAll tree krate).stubs →
    r = record (computeBuildInputs x.root tree).global stub

/-- Of the files that are read for a group, those that are not what they were are hashed, and lie in
a package that the snapshot records for the group. -/
def Snapshot.Covers (x : Loader Name Stub Row Value Content)
    (snapshot : Snapshot Name Stub Row Value Content) (tree : Tree Content) : Prop :=
  ∀ group ∈ x.crateGroups snapshot.tree, ∀ file ∈ x.moduleFiles snapshot.tree group,
    snapshot.tree.lookup file ≠ tree.lookup file → isHashed x.root file = true ∧
      packageOf snapshot.inputs.dirs file ∈ (snapshot.cratePackages.lookup group.name).getD ∅

instance [DecidableEq Content] (x : Loader Name Stub Row Value Content)
    (snapshot : Snapshot Name Stub Row Value Content) (tree : Tree Content) :
    Decidable (snapshot.Covers x tree) :=
  inferInstanceAs
    (Decidable (∀ group ∈ x.crateGroups snapshot.tree, ∀ file ∈ x.moduleFiles _ group, _ → _ ∧ _))

/-- What a full build puts into the manifest. -/
def Loader.fullPackages (x : Loader Name Stub Row Value Content) (tree : Tree Content) :
    Finmap fun _ : Name ↦ Finset Path :=
  x.recordPackages tree (x.names tree) ∅

namespace Loader

variable {x : Loader Name Stub Row Value Content} {tree tree' : Tree Content} {dirty : List Name}
  {base : Finmap fun _ : Name ↦ Finset Path} {krate : Name}

/-- What a loop of insertions leaves under a name. -/
theorem lookup_foldl_insert (base : Finmap fun _ : Name ↦ Finset Path) (l : List (CrateGroup Name))
    (f : CrateGroup Name → Finset Path) (hnodup : (l.map CrateGroup.name).Nodup) :
    (∀ group ∈ l, (l.foldl (fun packages group ↦ packages.insert group.name (f group)) base).lookup
      group.name = some (f group)) ∧
    ∀ krate, krate ∉ l.map CrateGroup.name →
      (l.foldl (fun packages group ↦ packages.insert group.name (f group)) base).lookup krate =
        base.lookup krate := by
  induction l generalizing base with
  | nil => exact ⟨nofun, fun _ _ ↦ rfl⟩
  | cons group l ih =>
    rw [List.map_cons, List.nodup_cons] at hnodup
    obtain ⟨hin, hout⟩ := ih (base.insert group.name (f group)) hnodup.2
    refine ⟨fun other hother ↦ ?_, fun krate hkrate ↦ ?_⟩
    · rcases List.mem_cons.1 hother with rfl | hother
      · rw [List.foldl_cons, hout _ hnodup.1, Finmap.lookup_insert]
      · exact hin other hother
    · rw [List.map_cons, List.mem_cons, not_or] at hkrate
      rw [List.foldl_cons, hout krate hkrate.2, Finmap.lookup_insert_of_ne _ hkrate.1]

theorem lookup_foldl_erase (l : List Name) (krate : Name) :
    (l.foldl (fun packages krate ↦ packages.erase krate) base).lookup krate =
      if krate ∈ l then none else base.lookup krate := by
  induction l generalizing base with
  | nil => exact (if_neg List.not_mem_nil).symm
  | cons other l ih =>
    rw [List.foldl_cons, ih]
    by_cases hmem : krate ∈ l
    · rw [if_pos hmem, if_pos (List.mem_cons_of_mem _ hmem)]
    · rw [if_neg hmem]
      by_cases heq : krate = other
      · subst heq
        rw [if_pos List.mem_cons_self, Finmap.lookup_erase]
      · rw [if_neg fun h ↦ (List.mem_cons.1 h).elim heq hmem, Finmap.lookup_erase_ne heq]

/-- The groups that were built. -/
theorem lookup_recordPackages (h : Ordered (x.crateGroups tree)) {group : CrateGroup Name}
    (hgroup : group ∈ x.crateGroups tree) :
    (x.recordPackages tree dirty base).lookup group.name =
      if group.name ∈ dirty then some (x.cratePackages tree group) else base.lookup group.name := by
  have hnodup :=
    ((List.filter_sublist (p := fun group ↦ group.name ∈ dirty)).map CrateGroup.name).nodup
    h.nodup
  obtain ⟨hin, hout⟩ := lookup_foldl_insert base _ (x.cratePackages tree) hnodup
  split_ifs with hdirty
  · exact hin group (List.mem_filter.2 ⟨hgroup, decide_eq_true hdirty⟩)
  · refine hout group.name fun hmem ↦ hdirty ?_
    obtain ⟨other, hother, heq⟩ := List.mem_map.1 hmem
    exact heq ▸ of_decide_eq_true (List.mem_filter.1 hother).2

theorem lookup_recordPackages_of_notMem (h : Ordered (x.crateGroups tree))
    (hkrate : krate ∉ x.names tree) :
    (x.recordPackages tree dirty base).lookup krate = base.lookup krate := by
  have hsub := (List.filter_sublist (l := x.crateGroups tree)
    (p := fun group ↦ group.name ∈ dirty)).map CrateGroup.name
  exact (lookup_foldl_insert base _ (x.cratePackages tree) (hsub.nodup h.nodup)).2 krate
    fun hmem ↦ hkrate (hsub.subset hmem)

theorem lookup_fullPackages (h : Ordered (x.crateGroups tree)) {group : CrateGroup Name}
    (hgroup : group ∈ x.crateGroups tree) :
    (x.fullPackages tree).lookup group.name = some (x.cratePackages tree group) :=
  (lookup_recordPackages h hgroup).trans (if_pos (List.mem_map_of_mem hgroup))

theorem lookup_fullPackages_of_notMem (h : Ordered (x.crateGroups tree))
    (hkrate : krate ∉ x.names tree) : (x.fullPackages tree).lookup krate = none :=
  (lookup_recordPackages_of_notMem h hkrate).trans (Finmap.lookup_empty _)

theorem fullPackages_ext {packages : Finmap fun _ : Name ↦ Finset Path}
    (h : Ordered (x.crateGroups tree)) (hin : ∀ group ∈ x.crateGroups tree,
      packages.lookup group.name = some (x.cratePackages tree group))
    (hout : ∀ krate, krate ∉ x.names tree → packages.lookup krate = none) :
    packages = x.fullPackages tree := by
  refine Finmap.ext_lookup fun krate ↦ ?_
  by_cases hmem : krate ∈ x.names tree
  · obtain ⟨group, hgroup, rfl⟩ := List.mem_map.1 hmem
    rw [hin group hgroup, lookup_fullPackages h hgroup]
  · rw [hout krate hmem, lookup_fullPackages_of_notMem h hmem]

theorem recordPackages_nil : x.recordPackages tree [] base = base := by
  have hnone : ((x.crateGroups tree).filter fun group ↦ group.name ∈ ([] : List Name)) = [] :=
    List.filter_eq_nil_iff.2 fun _ _ h ↦ List.not_mem_nil (of_decide_eq_true h)
  rw [recordPackages, hnone]
  rfl

/-- The entries are those of the local crates. -/
theorem mem_keys_fullPackages (h : Ordered (x.crateGroups tree)) :
    krate ∈ (x.fullPackages tree).keys ↔ krate ∈ x.names tree := by
  rw [Finmap.mem_keys, ← Finmap.lookup_isSome]
  by_cases hmem : krate ∈ x.names tree
  · obtain ⟨group, hgroup, rfl⟩ := List.mem_map.1 hmem
    rw [lookup_fullPackages h hgroup]
    exact iff_of_true rfl hmem
  · rw [lookup_fullPackages_of_notMem h hmem]
    exact iff_of_false Bool.false_ne_true hmem

end Loader

/-! ### A snapshot of a tree -/

variable [DecidableEq Stub] [DecidableEq Content]

/-- The snapshot is what a full build of the tree gives. -/
structure Snapshot.Matches (x : Loader Name Stub Row Value Content)
    (record : Tree Content → Stub → StubRecord Value)
    (snapshot : Snapshot Name Stub Row Value Content) (tree : Tree Content) : Prop where
  inputs : snapshot.inputs = computeBuildInputs x.root tree
  tables : snapshot.tables.Holds (x.extractAll tree) (x.names tree)
    (record (computeBuildInputs x.root tree).global)
  packages : snapshot.cratePackages = x.fullPackages tree

namespace Snapshot

variable {x : Loader Name Stub Row Value Content} {record : Tree Content → Stub → StubRecord Value}
  {snapshot base : Snapshot Name Stub Row Value Content} {tree : Tree Content}
    {dirty order : List Name}

omit [DecidableEq Content] in
/-- A build that takes over the rows of the groups that are not dirty. -/
theorem Matches.kept (h : base.Matches x record base.tree)
    (hordered : Ordered (x.crateGroups base.tree))
    (hgroups : x.crateGroups tree = x.crateGroups base.tree)
    (hglobal :
    (computeBuildInputs x.root base.tree).global = (computeBuildInputs x.root tree).global)
    (hclosed : ∀ group ∈ x.crateGroups base.tree, ∀ dep ∈ group.dependencies, dep ∈ dirty →
      group.name ∈ dirty)
    (hfiles : ∀ group ∈ x.crateGroups base.tree, group.name ∉ dirty →
      ∀ file ∈ x.moduleFiles base.tree group, base.tree.lookup file = tree.lookup file)
    (hagrees : x.Agrees record tree) (hdirty : dirty ⊆ x.names tree)
    (horder : ∀ k, k ∈ order ↔ k ∈ dirty) :
    (base.tables.writeByCrate (x.extractAll tree) order).Holds (x.extractAll tree) (x.names tree)
        (record (computeBuildInputs x.root tree).global) ∧
      x.recordPackages tree dirty (dirty.foldl (fun packages krate ↦ packages.erase krate)
        base.cratePackages) = x.fullPackages tree := by
  have hnames : x.names tree = x.names base.tree := congrArg (List.map CrateGroup.name) hgroups
  have hsame := fun {group : CrateGroup Name} (hgroup : group ∈ x.crateGroups base.tree)
      (hclean : group.name ∉ dirty) ↦
    Loader.extractAll_congr hordered hgroups hglobal hclosed hfiles hgroup hclean
  constructor
  · have htables := h.tables
    rw [← hnames, hglobal] at htables
    refine htables.writeByCrate (fun k hk ↦ hdirty ((horder k).1 hk)) (fun krate hkrate hclean ↦ ?_)
      fun krate hkrate stub r hr ↦ hagrees krate (hdirty ((horder krate).1 hkrate)) stub r hr
    rw [hnames] at hkrate
    obtain ⟨group, hgroup, rfl⟩ := List.mem_map.1 hkrate
    exact (hsame hgroup fun hin ↦ hclean ((horder _).2 hin)).1.symm
  · refine Loader.fullPackages_ext (hgroups ▸ hordered) (fun group hgroup ↦ ?_)
      fun krate hkrate ↦ ?_
    · rw [Loader.lookup_recordPackages (hgroups ▸ hordered) hgroup]
      split_ifs with hmem
      · rfl
      · rw [hgroups] at hgroup
        rw [Loader.lookup_foldl_erase, if_neg hmem, h.packages,
          Loader.lookup_fullPackages hordered hgroup]
        exact congrArg some (Loader.cratePackages_congr hglobal (hsame hgroup hmem).2
          (hfiles group hgroup hmem))
    · rw [Loader.lookup_recordPackages_of_notMem (hgroups ▸ hordered) hkrate,
        Loader.lookup_foldl_erase,
        h.packages, Loader.lookup_fullPackages_of_notMem hordered (hnames ▸ hkrate)]
      exact ite_self _

/-- A snapshot of the same inputs is one of the tree. -/
theorem Matches.reused (hx : x.Lawful) (h : base.Matches x record base.tree)
    (hcovers : base.Covers x tree)
    (hagrees : x.Agrees record tree) (hinputs : base.inputs = computeBuildInputs x.root tree) :
    base.Matches x record tree := by
  have hsame := h.inputs.symm.trans hinputs
  obtain ⟨htables, hpackages⟩ := h.kept (hx.ordered _)
    (hx.stable base.tree tree (congrArg BuildInputs.global hsame) (.inr hsame))
    (congrArg BuildInputs.global hsame) (fun _ _ _ _ hmem ↦ absurd hmem List.not_mem_nil)
    (fun group hgroup _ file hfile ↦ by
      by_contra hne
      exact hne (lookup_of_inputs (hcovers group hgroup file hfile hne).1 hsame))
    hagrees (List.nil_subset _) fun krate ↦ (Iff.rfl : krate ∈ ([] : List Name) ↔ _)
  refine ⟨hinputs, htables, ?_⟩
  rw [← hpackages, Loader.recordPackages_nil]
  rfl

omit [DecidableEq Content] in
theorem Matches.full (hagrees : x.Agrees record tree) (horder : order.Perm (x.names tree)) :
    (x.buildAttempt tree .full order).Matches x record tree := by
  refine ⟨rfl, ?_, rfl⟩
  refine Tables.Holds.of_mem_iff (Tables.holds_writeByCrate_empty fun krate hkrate stub r hr ↦ ?_)
    fun krate ↦ horder.mem_iff.symm
  exact hagrees krate (horder.mem_iff.1 hkrate) stub r hr

/-- **A build on top of a base**: what has changed is found by its package. -/
theorem Matches.incremental (hx : x.Lawful)
    {current : Option (Snapshot Name Stub Row Value Content)}
    (h : base.Matches x record base.tree)
    (hplan : x.planBuild current tree = .incremental base dirty)
    (hcovers : base.Covers x tree) (hagrees : x.Agrees record tree) (horder : order.Perm dirty) :
    (x.buildAttempt tree (.incremental base dirty) order).Matches x record tree := by
  unfold Loader.planBuild at hplan
  split at hplan
  next => cases hplan
  next base' =>
    simp only at hplan
    split_ifs at hplan with hglobal hkeys
    obtain ⟨rfl, hdirty⟩ := Plan.incremental.inj hplan
    rw [not_not, h.inputs] at hglobal
    have hnames : (x.names base'.tree).toFinset = (x.names tree).toFinset := by
      rw [not_not.1 hkeys, h.packages]
      ext krate
      rw [List.mem_toFinset, Loader.mem_keys_fullPackages (hx.ordered _)]
    have hgroups := hx.stable base'.tree tree hglobal (.inl hnames)
    generalize hdirect : (x.names tree).filter (fun krate ↦ (base'.cratePackages.lookup krate).any
      fun packages ↦ ∃ dir ∈ (computeBuildInputs x.root tree).changedPackages base'.inputs,
        dir ∈ packages) = direct at hdirty
    obtain ⟨hseeds, hclosed⟩ := withDependents_closed (x.crateGroups tree) direct
    have hmem : ∀ krate, krate ∈ dirty ↔ krate ∈ x.names tree ∧
        krate ∈ withDependents (x.crateGroups tree) direct := by
      intro krate
      rw [← hdirty, List.mem_filter, decide_eq_true_iff]
    have hin : ∀ group ∈ x.crateGroups base'.tree, group.name ∈ x.names tree := fun group hgroup ↦
      List.mem_map_of_mem (hgroups ▸ hgroup)
    have hfiles : ∀ group ∈ x.crateGroups base'.tree, group.name ∉ dirty →
        ∀ file ∈ x.moduleFiles base'.tree group, base'.tree.lookup file = tree.lookup file := by
      intro group hgroup hclean file hfile
      -- A file that has changed makes its group one of the seeds.
      by_contra hne
      obtain ⟨hhashed, hpackage⟩ := hcovers group hgroup file hfile hne
      have hlookup : base'.cratePackages.lookup
        group.name = some (x.cratePackages base'.tree group) := by
        rw [h.packages, Loader.lookup_fullPackages (hx.ordered _) hgroup]
      rw [h.inputs, hlookup, Option.getD_some] at hpackage
      refine hne (lookup_of_unchanged hhashed hglobal fun hchanged ↦ hclean ((hmem _).2
        ⟨hin group hgroup, hseeds ?_⟩))
      rw [← hdirect, List.mem_filter, hlookup, Option.any_some, h.inputs]
      exact ⟨hin group hgroup, decide_eq_true ⟨_, hchanged, hpackage⟩⟩
    obtain ⟨htables, hpackages⟩ := h.kept (hx.ordered _) hgroups hglobal
      (fun group hgroup dep hdep hdirty ↦ (hmem _).2 ⟨hin group hgroup,
        hclosed group (hgroups ▸ hgroup) dep hdep ((hmem dep).1 hdirty).2⟩)
      hfiles hagrees (fun krate hkrate ↦ ((hmem krate).1 hkrate).1) fun krate ↦ horder.mem_iff
    exact ⟨rfl, htables, hpackages⟩

omit [DecidableEq Stub] in
/-- The base is the published snapshot. -/
theorem eq_of_planBuild {current : Option (Snapshot Name Stub Row Value Content)}
    (hplan : x.planBuild current tree = .incremental base dirty) : current = some base := by
  unfold Loader.planBuild at hplan
  split at hplan
  next => cases hplan
  next base' =>
    simp only at hplan
    split_ifs at hplan
    exact congrArg some (Plan.incremental.inj hplan).1

end Snapshot

/-! ### Histories -/

namespace State

variable (x : Loader Name Stub Row Value Content) (record : Tree Content → Stub → StubRecord Value)
  (s : State Name Stub Row Value Content)

/-- The snapshot that the build takes rows from. -/
def basis (e : Event Name Content) : Option (Snapshot Name Stub Row Value Content) :=
  (s.reusable (computeBuildInputs x.root e.tree)).or
    (match s.plan x e with
      | .full => none
      | .incremental base _ => some base)

/-- Whatever has changed since the snapshot that rows are taken from is looked at. -/
def Covered (e : Event Name Content) : Prop :=
  ∀ snapshot, s.basis x e = some snapshot → snapshot.Covers x e.tree

instance (e : Event Name Content) : Decidable (s.Covered x e) :=
  inferInstanceAs (Decidable (∀ snapshot ∈ s.basis x e, snapshot.Covers x e.tree))

/-- Every snapshot on disk is a full build of its tree, and the published one of the last tree. -/
structure Inv : Prop where
  disk : ∀ snapshot ∈ s.disk, snapshot.Matches x record snapshot.tree
  current : ∀ snapshot, s.current = some snapshot →
    snapshot.Matches x record snapshot.tree ∧ snapshot.Matches x record s.tree ∧
      x.Agrees record s.tree

variable {x record s} {s' : State Name Stub Row Value Content} {e : Event Name Content}

omit [DecidableEq Stub] in
theorem Inv.matches_of_reusable (h : s.Inv x record) {inputs : BuildInputs Content}
    {snapshot : Snapshot Name Stub Row Value Content} (hreuse : s.reusable inputs = some snapshot) :
    snapshot.Matches x record snapshot.tree ∧ snapshot.inputs = inputs := by
  rcases Option.or_eq_some_iff.1 hreuse with heq | ⟨-, heq⟩
  · obtain ⟨hcurrent, hinputs⟩ := Option.filter_eq_some_iff.1 heq
    exact ⟨(h.current snapshot hcurrent).1, of_decide_eq_true hinputs⟩
  · exact ⟨h.disk snapshot (List.mem_of_find?_eq_some heq), by simpa using List.find?_some heq⟩

/-- **Every build that is covered keeps it.** -/
theorem Inv.step (hx : x.Lawful) (h : s.Inv x record) (hcovered : s.Covered x e)
    (hagrees : x.Agrees record e.tree) (hstep : s.step x e = some s') : s'.Inv x record := by
  unfold State.step at hstep
  split at hstep
  next snapshot hreuse =>
    obtain rfl := Option.some.inj hstep
    obtain ⟨hmatches, hinputs⟩ := h.matches_of_reusable hreuse
    refine ⟨h.disk, ?_⟩
    rintro _ ⟨rfl⟩
    refine ⟨hmatches, hmatches.reused hx (hcovered snapshot ?_) hagrees hinputs, hagrees⟩
    rw [basis, hreuse, Option.some_or]
  next hreuse =>
    obtain ⟨horder, hbuilt⟩ := Option.ite_none_right_eq_some.1 hstep
    obtain rfl := Option.some.inj hbuilt
    have hmatches : (x.buildAttempt e.tree (s.plan x e) e.order).Matches x record e.tree := by
      have hperm := List.isPerm_iff.1 horder
      rcases hplan : s.plan x e with - | ⟨base, dirty⟩
      · rw [hplan] at hperm
        exact Snapshot.Matches.full hagrees hperm
      · rw [hplan] at hperm
        have hbasis : s.basis x e = some base := by
          rw [basis, hreuse, Option.none_or, hplan]
        have hopens : x.planBuild s.current e.tree = .incremental base dirty := by
          unfold State.plan at hplan
          split_ifs at hplan
          exact hplan
        exact Snapshot.Matches.incremental hx
          (h.current base (Snapshot.eq_of_planBuild hopens)).1 hopens
          (hcovered base hbasis) hagrees hperm
    refine ⟨fun snapshot hmem ↦ ?_, ?_⟩
    · rcases List.mem_cons.1 hmem with rfl | hmem
      · exact hmatches
      · obtain ⟨i, -, hi⟩ := List.mem_filterMap.1 hmem
        exact h.disk snapshot (List.mem_of_getElem? hi)
    · rintro _ ⟨rfl⟩
      exact ⟨hmatches, hmatches, hagrees⟩

end State

section

variable {x : Loader Name Stub Row Value Content} {record : Tree Content → Stub → StubRecord Value}
  {s : State Name Stub Row Value Content} {snapshot : Snapshot Name Stub Row Value Content}

/-- **After every history, the published snapshot is that of a full build of the tree**, in whatever
order that writes the groups. -/
theorem published_eq_full (hx : x.Lawful)
    (h : (machine x).Reachable (fun s e ↦ s.Covered x e ∧ x.Agrees record e.tree) s)
    (hcurrent : s.current = some snapshot) {order : List Name}
    (horder : order.Perm (x.names s.tree)) :
    snapshot.tables = (x.buildAttempt s.tree .full order).tables ∧
      snapshot.cratePackages = (x.buildAttempt s.tree .full order).cratePackages := by
  have hinv : s.Inv x record := h.invariant ⟨nofun, nofun⟩ fun t e u hok hstep hinv ↦
    hinv.step hx hok.1 hok.2 hstep
  obtain ⟨-, hmatches, hagrees⟩ := hinv.current snapshot hcurrent
  have hfull := Snapshot.Matches.full hagrees horder
  exact ⟨hmatches.tables.unique hfull.tables, hmatches.packages.trans hfull.packages.symm⟩

end

/-! ### Histories that are not covered -/

/-- A crate whose library declares a module in a package below, which is no member of the workspace.
-/
def sharing : Loader String String String String String where
  root := ["w"]
  crateGroups _ := [⟨"a", []⟩]
  walk _ _ _ := .read ["a", "src", "lib.rs"] fun lib ↦ .read ["a", "fuzz", "shared.rs"] fun shared ↦
    .done ⟨lib.toList ++ shared.toList, []⟩

/-- Cargo lists its one crate always alike. -/
theorem sharing_lawful : sharing.Lawful where
  ordered _ :=
    { nodup := List.nodup_singleton "a"
      earlier := fun l₁ group l₂ h dep hdep ↦ by
        have hgroup : group ∈ l₁ ++ group :: l₂ := List.mem_append_right l₁ List.mem_cons_self
        rw [← h] at hgroup
        rw [List.mem_singleton.1 hgroup] at hdep
        exact absurd hdep List.not_mem_nil }
  stable _ _ _ _ := rfl

theorem sharing_agrees (record : Tree String → String → StubRecord String) (tree : Tree String) :
    sharing.Agrees record tree := by
  intro krate hkrate stub r hr
  obtain rfl := List.mem_singleton.1 hkrate
  exact absurd hr List.not_mem_nil

/-- The module is missing. -/
def missing (lib : String) : Tree String :=
  [(["a", "Cargo.toml"], "[package]"), (["a", "fuzz", "Cargo.toml"], "[package]"),
    (["a", "src", "lib.rs"], lib)]

/-- The module is there. -/
def found (lib shared : String) : Tree String :=
  [(["a", "Cargo.toml"], "[package]"), (["a", "fuzz", "Cargo.toml"], "[package]"),
    (["a", "fuzz", "shared.rs"], shared), (["a", "src", "lib.rs"], lib)]

/-- Two crates that use different versions of a third. -/
def versions : Loader String String String String String where
  root := ["w"]
  crateGroups _ := [⟨"a", []⟩, ⟨"b", []⟩]
  walk _ krate _ := .read [krate, "src", "lib.rs"] fun lib ↦ .done ⟨lib.toList,
    [("dep::f", ⟨"dep::f", some (if krate = "a" then "fn f()" else "fn f(n: u8)"), none⟩)]⟩

/-- A tree of two crates, with this library. -/
def twoCrates (lib : String) : Tree String :=
  [(["a", "Cargo.toml"], "[package]"), (["a", "src", "lib.rs"], lib),
    (["b", "Cargo.toml"], "[package]"), (["b", "src", "lib.rs"], "pub use dep::f;")]

/-- The missing module is created, in a package that the crate was not seen in, and its rows do not
come. And where two versions are in use, an edit of one crate leaves the signature that its version
has, though the full build ends with that of the other. -/
theorem stale_rows :
    (∃ s snapshot, (machine sharing).Reachable Any s ∧ s.current = some snapshot ∧
      snapshot.tables.rows "a" ≠ (sharing.buildAttempt s.tree .full ["a"]).tables.rows "a") ∧
    ∃ s snapshot, (machine versions).Reachable Any s ∧ s.current = some snapshot ∧
      (snapshot.tables.stubs "dep::f").bind StubRecord.signature ≠
        ((versions.buildAttempt s.tree .full ["a", "b"]).tables.stubs "dep::f").bind
        StubRecord.signature := by
  constructor
  · have hreach := reachable_get (by decide : ((machine sharing).run (machine sharing).start
      [⟨missing "mod shared;", ["a"], true, []⟩,
        ⟨found "mod shared;" "pub fn f() \x7b\x7d", [], true, []⟩]).isSome = true)
    exact ⟨_, _, hreach, rfl, by decide⟩
  · have hreach := reachable_get (by decide : ((machine versions).run (machine versions).start
      [⟨twoCrates "pub use dep::f;", ["a", "b"], true, []⟩,
        ⟨twoCrates "pub use dep::f as g;", ["a"], true, []⟩]).isSome = true)
    exact ⟨_, _, hreach, rfl, by decide⟩

/-- An edit of the library. -/
theorem published_eq_full_edited : ∃ (s : State String String String String String) (snapshot : _),
    s.current = some snapshot ∧ s.tree = missing "mod shared; fn g() \x7b\x7d" ∧
      snapshot.tables = (sharing.buildAttempt s.tree .full ["a"]).tables ∧
        snapshot.cratePackages = (sharing.buildAttempt s.tree .full ["a"]).cratePackages := by
  have hrun := Option.some_get (by decide : ((machine sharing).runIf (fun s e ↦ s.Covered sharing e)
    (machine sharing).start [⟨missing "mod shared;", ["a"], true, []⟩,
      ⟨missing "mod shared; fn g() \x7b\x7d", ["a"], true, []⟩]).isSome = true)
  have hreach : (machine sharing).Reachable (fun s e ↦ s.Covered sharing e ∧
      sharing.Agrees (fun _ _ ↦ ⟨"", none, none⟩) e.tree) _ :=
    ⟨_, runs_of_runIf (fun _ _ h ↦ ⟨of_decide_eq_true h, sharing_agrees _ _⟩) hrun.symm⟩
  exact ⟨_, _, rfl, rfl, published_eq_full sharing_lawful hreach rfl (List.Perm.refl _)⟩

end RustCodeMcp.Graph
