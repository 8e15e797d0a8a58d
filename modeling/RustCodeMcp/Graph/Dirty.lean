import RustCodeMcp.Graph.Build

/-!
# What is not dirty has not changed

The dirty groups are closed under dependents. So a group that is not dirty depends on none that is,
and if the files that were read for it are what they were, so is what is extracted from it
(`extractAll_congr`).

What is closed under dependents is found by a loop over a stack, with a bound on its turns in place
of a proof that it ends: each turn takes a group off the stack, and a group that is new brings the
edges that begin at it, once (`length_edges`). So the bound is the number of seeds and edges, and
the loop is through before it.

**The rows of a group depend on what it depends on only through a restriction** to the groups that
it names, which is why a group whose dependencies are all clean sees nothing of what is dirty
elsewhere.
-/

namespace RustCodeMcp.Graph

variable {Name Stub Row Value Content : Type*} [DecidableEq Name]

/-! ### Dependents -/

/-- What a turn of the loop takes away: the edges of the group that is expanded. -/
theorem length_edges (edges : List (Name × Name)) {reached : List Name} {id : Name}
    (h : id ∉ reached) : (edges.filter fun edge ↦ edge.1 ∉ reached).length =
      (edges.filter fun edge ↦ edge.1 = id).length +
        (edges.filter fun edge ↦ edge.1 ∉ id :: reached).length := by
  induction edges with
  | nil => rfl
  | cons edge edges ih =>
    simp only [List.filter_cons, List.mem_cons, not_or]
    by_cases hid : edge.1 = id
    · subst hid
      simp only [h, not_false_eq_true, decide_true, if_true, List.length_cons, not_true, false_and,
        decide_false, Bool.false_eq_true, if_false]
      simp only [List.mem_cons, not_or] at ih
      omega
    · by_cases hreached : edge.1 ∈ reached
      · simp only [hid, hreached, not_true, decide_false, Bool.false_eq_true, if_false, and_false]
        simpa only [List.mem_cons, not_or] using ih
      · simp only [hid, hreached, not_false_eq_true, decide_true, if_true,
          List.length_cons, decide_false, Bool.false_eq_true, if_false, and_self]
        simp only [List.mem_cons, not_or] at ih
        omega

/-- **The loop ends with all that depend on the seeds.** The turns are enough for the stack and for
the edges of what is not reached yet. -/
theorem reach_closed {edges : List (Name × Name)} {n : ℕ} {stack reached : List Name}
    (hn : stack.length + (edges.filter fun edge ↦ edge.1 ∉ reached).length ≤ n)
    (hinv : ∀ edge ∈ edges, edge.1 ∈ reached → edge.2 ∈ reached ∨ edge.2 ∈ stack) :
    reached ⊆ reach edges n stack reached ∧ stack ⊆ reach edges n stack reached ∧
      ∀ edge ∈ edges, edge.1 ∈ reach edges n stack reached →
      edge.2 ∈ reach edges n stack reached := by
  induction n generalizing stack reached with
  | zero =>
    obtain rfl : stack = [] := List.eq_nil_of_length_eq_zero (by omega)
    exact ⟨List.Subset.refl _, List.nil_subset _, fun edge he hmem ↦
      (hinv edge he hmem).resolve_right
      List.not_mem_nil⟩
  | succ n ih =>
    cases stack with
    | nil =>
      exact ⟨List.Subset.refl _, List.nil_subset _, fun edge he hmem ↦
        (hinv edge he hmem).resolve_right
        List.not_mem_nil⟩
    | cons id stack =>
      rw [List.length_cons] at hn
      rw [reach]
      split_ifs with hid
      · have hinv' : ∀ edge ∈ edges, edge.1 ∈ reached → edge.2 ∈ reached ∨ edge.2 ∈ stack := by
          intro edge he hmem
          rcases hinv edge he hmem with hin | hin
          · exact .inl hin
          · rcases List.mem_cons.1 hin with heq | hin
            · exact .inl (heq ▸ hid)
            · exact .inr hin
        obtain ⟨hreached, hstack, hclosed⟩ := ih (by omega) hinv'
        exact ⟨hreached, List.cons_subset.2 ⟨hreached hid, hstack⟩, hclosed⟩
      · -- Its edges go from the count of the unreached to the stack.
        have hlen := length_edges edges hid
        have hinv' : ∀ edge ∈ edges, edge.1 ∈ id :: reached → edge.2 ∈ id :: reached ∨
            edge.2 ∈ (edges.filter fun edge ↦ edge.1 = id).map Prod.snd ++ stack := by
          intro edge he hmem
          rcases List.mem_cons.1 hmem with heq | hmem
          · refine .inr (List.mem_append_left _ (List.mem_map_of_mem (List.mem_filter.2 ⟨he, ?_⟩)))
            exact decide_eq_true heq
          · rcases hinv edge he hmem with hin | hin
            · exact .inl (List.mem_cons_of_mem _ hin)
            · rcases List.mem_cons.1 hin with heq | hin
              · exact .inl (heq ▸ List.mem_cons_self)
              · exact .inr (List.mem_append_right _ hin)
        obtain ⟨hreached, hstack, hclosed⟩ := ih (by
          rw [List.length_append, List.length_map]
          omega) hinv'
        obtain ⟨hid', hreached⟩ := List.cons_subset.1 hreached
        exact ⟨hreached, List.cons_subset.2 ⟨hid', (List.append_subset.1 hstack).2⟩, hclosed⟩

theorem withDependents_closed (groups : List (CrateGroup Name)) (seeds : List Name) :
    seeds ⊆ withDependents groups seeds ∧
      ∀ group ∈ groups, ∀ dep ∈ group.dependencies, dep ∈ withDependents groups seeds →
        group.name ∈ withDependents groups seeds := by
  have hturns : seeds.length + ((dependents groups).filter fun edge ↦
    edge.1 ∉ ([] : List Name)).length ≤
      seeds.length + (dependents groups).length :=
    Nat.add_le_add_left (List.length_filter_le _ _) _
  obtain ⟨-, hseeds, hclosed⟩ := reach_closed hturns fun _ _ hmem ↦ absurd hmem List.not_mem_nil
  refine ⟨hseeds, fun group hgroup dep hdep hmem ↦ ?_⟩
  by_cases hself : dep = group.name
  · exact hself ▸ hmem
  · refine hclosed (dep, group.name) (List.mem_flatMap.2 ⟨group, hgroup, ?_⟩) hmem
    exact List.mem_map.2 ⟨dep, List.mem_filter.2 ⟨hdep, decide_eq_true hself⟩, rfl⟩

/-! ### Extraction -/

/-- Every group once, and after what it depends on. -/
structure Ordered (groups : List (CrateGroup Name)) : Prop where
  nodup : (groups.map CrateGroup.name).Nodup
  earlier : ∀ l₁ group l₂, groups = l₁ ++ group :: l₂ →
    ∀ dep ∈ group.dependencies, dep ∈ l₁.map CrateGroup.name

namespace Loader

variable {x : Loader Name Stub Row Value Content} {tree tree' : Tree Content}

theorem restrict_congr {dependencies : List Name} {models models' : Name → Extracted Stub Row Value}
    (h : ∀ dep ∈ dependencies, models dep = models' dep) :
    restrict dependencies models = restrict dependencies models' := by
  funext krate
  unfold restrict
  split_ifs with hmem
  · exact h krate hmem
  · rfl

/-- What is extracted from the other groups afterwards does not matter to a group. -/
theorem foldl_of_notMem {l : List (CrateGroup Name)} {krate : Name}
    (h : krate ∉ l.map CrateGroup.name)
    (f : (Name → Extracted Stub Row Value) → CrateGroup Name → Extracted Stub Row Value)
    (models : Name → Extracted Stub Row Value) :
    l.foldl (fun models group ↦ Function.update models group.name (f models group)) models krate =
      models krate := by
  induction l generalizing models with
  | nil => rfl
  | cons group l ih =>
    rw [List.map_cons, List.mem_cons, not_or] at h
    rw [List.foldl_cons, ih h.2, Function.update_of_ne h.1]

/-- **A group is extracted from its files and from what it depends on.** -/
theorem extractAll_eq (h : Ordered (x.crateGroups tree)) {group : CrateGroup Name}
    (hgroup : group ∈ x.crateGroups tree) :
    x.extractAll tree group.name =
      (x.walkOf tree (x.extractAll tree) group).run fun p ↦ tree.lookup p := by
  obtain ⟨l₁, l₂, heq⟩ := List.append_of_mem hgroup
  have hnodup := h.nodup
  rw [heq, List.map_append, List.nodup_append, List.map_cons, List.nodup_cons] at hnodup
  obtain ⟨-, ⟨hnot, -⟩, hdisj⟩ := hnodup
  -- The result is that of the turn of the group.
  have hturn : ∀ krate, krate ∉ l₂.map CrateGroup.name → x.extractAll tree krate =
      Function.update (l₁.foldl (fun models group ↦ Function.update models group.name
        ((x.walkOf tree models group).run fun p ↦ tree.lookup p)) fun _ ↦ .empty) group.name
        ((x.walkOf tree (l₁.foldl (fun models group ↦ Function.update models group.name
          ((x.walkOf tree models group).run fun p ↦ tree.lookup p)) fun _ ↦ .empty) group).run
            fun p ↦ tree.lookup p) krate := by
    intro krate hkrate
    rw [extractAll, heq, List.foldl_append, List.foldl_cons]
    exact foldl_of_notMem hkrate (fun models group ↦
      (x.walkOf tree models group).run fun p ↦ tree.lookup p) _
  rw [hturn _ hnot, Function.update_self]
  refine congrArg (fun models ↦ (x.walk _ group.name models).run _)
    (restrict_congr fun dep hdep ↦ ?_)
  have hmem := h.earlier l₁ group l₂ heq dep hdep
  rw [hturn dep fun hin ↦ hdisj dep hmem dep (List.mem_cons_of_mem _ hin) rfl,
    Function.update_of_ne fun heq' ↦ hdisj dep hmem _ List.mem_cons_self heq']

/-- **A group that is not dirty is what it was**, as far as the files read for the clean ones are.
-/
theorem extractAll_congr (hordered : Ordered (x.crateGroups tree))
    (hgroups : x.crateGroups tree' = x.crateGroups tree)
    (hglobal : (computeBuildInputs x.root tree).global = (computeBuildInputs x.root tree').global)
    {dirty : List Name}
    (hclosed : ∀ group ∈ x.crateGroups tree, ∀ dep ∈ group.dependencies, dep ∈ dirty →
    group.name ∈ dirty)
    (hfiles : ∀ group ∈ x.crateGroups tree, group.name ∉ dirty → ∀ file ∈ x.moduleFiles tree group,
      tree.lookup file = tree'.lookup file) {group : CrateGroup Name}
      (hgroup : group ∈ x.crateGroups tree)
    (hclean : group.name ∉ dirty) :
    x.extractAll tree group.name = x.extractAll tree' group.name ∧
      x.moduleFiles tree group = x.moduleFiles tree' group := by
  obtain ⟨l₁, l₂, heq⟩ := List.append_of_mem hgroup
  -- By induction on the groups before it.
  induction hl : l₁.length using Nat.strong_induction_on generalizing group l₁ l₂ with
  | _ n ih =>
    subst hl
    have hdeps : restrict group.dependencies (x.extractAll tree) =
        restrict group.dependencies (x.extractAll tree') := by
      refine restrict_congr fun dep hdep ↦ ?_
      obtain ⟨other, hother, rfl⟩ := List.mem_map.1 (hordered.earlier l₁ group l₂ heq dep hdep)
      obtain ⟨k₁, k₂, rfl⟩ := List.append_of_mem hother
      have hsplit : x.crateGroups tree = k₁ ++ other :: (k₂ ++ group :: l₂) := by
        rw [heq, List.append_assoc, List.cons_append]
      have hin : other ∈ x.crateGroups tree :=
        hsplit ▸ List.mem_append_right _ List.mem_cons_self
      refine (ih k₁.length ?_ hin (fun hdirty ↦ hclean (hclosed group hgroup _ hdep hdirty)) k₁ _
        hsplit rfl).1
      rw [List.length_append, List.length_cons]
      omega
    have hwalk : x.walkOf tree (x.extractAll tree) group = x.walkOf tree'
      (x.extractAll tree') group := by
      unfold walkOf
      rw [hdeps, hglobal]
    have hread := hfiles group hgroup hclean
    rw [extractAll_eq hordered hgroup,
      extractAll_eq (show Ordered (x.crateGroups tree') from hgroups ▸ hordered)
        (hgroups ▸ hgroup), ← hwalk]
    refine ⟨Reading.run_congr hread, ?_⟩
    rw [moduleFiles, moduleFiles, ← hwalk]
    exact Reading.reads_congr hread

/-- So are the packages of its module files. -/
theorem cratePackages_congr {group : CrateGroup Name}
    (hglobal : (computeBuildInputs x.root tree).global = (computeBuildInputs x.root tree').global)
    (hmodules : x.moduleFiles tree group = x.moduleFiles tree' group)
    (hfiles : ∀ file ∈ x.moduleFiles tree group, tree.lookup file = tree'.lookup file) :
    x.cratePackages tree group = x.cratePackages tree' group := by
  unfold cratePackages
  rw [← hmodules, dirs_eq_of_global hglobal]
  refine congrArg (fun l ↦ (List.map _ l).toFinset) (List.filter_congr fun file hfile ↦ ?_)
  rw [hfiles file hfile]

end Loader

end RustCodeMcp.Graph
