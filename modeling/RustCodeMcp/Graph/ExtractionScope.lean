import Mathlib.Algebra.GroupWithZero.Nat
import RustCodeMcp.Digraph.Worklist
import RustCodeMcp.Graph.CrateGroups

/-!
# What a build by crates walks

A build walks one group of crates after another, in a scope that holds every local crate the dirty
ones depend on, and hands the model of each group to the writer before it walks the next. So where
a group is written, all that is dirty and that it depends on has been written before, and the build
is through exactly when every dirty group has been written once (`extractByCrate_spec`).

The scope is loaded once and kept for all groups, so it has to hold whatever any of them may look
at: the dirty crates, and the local crates these depend on, through any number of steps. **What is
outside is not walked**, even if it is of the workspace. How the passes over a group work is a
parameter; they may fail, and so may the writer, and then what was written before stays.
-/

namespace RustCodeMcp.Extraction

variable {K N Name : Type}

/-- How the passes over a group end. -/
inductive Passed (Model : Type)
  | model (model : Model)
  /-- rust-analyzer's `Cancelled`: the source changed under the walk. -/
  | cancelled
  /-- Any other panic goes on to the caller. -/
  | panicked

/-- Why a build by crates fails: there are no groups, a group could not be walked, or not be
written. -/
inductive ExtractError (K Name WriteError : Type)
  | groups (e : GroupsError K Name)
  /-- "extracting crate `{}`; source drift: {:?}" -/
  | cancelled (name : Name)
  | panicked
  | write (e : WriteError)

/-- The passes over a group in a scope, and the writer, which works on a store. -/
structure Passes (K N Name Model Store WriteError : Type) where
  run : List K → CrateGroup K N Name → Passed Model
  write : Model → CrateGroup K N Name → Store → Except WriteError Store

namespace LoadedWorkspace

variable [DecidableEq K] (w : LoadedWorkspace K N Name)

/-- The local crates that a crate depends on. -/
def localDependencies (krate : K) : List K :=
  (w.dependencies krate).filter fun dep ↦ decide (dep ∈ w.localCrates)

/-- The crates that are given and the local crates they depend on, in the order of the local
crates. The turns are enough (`mem_localDependencyClosure`). -/
def localDependencyClosure (crates : List K) : List K :=
  let turns := crates.length +
    ((crates ++ w.localCrates).map fun krate ↦ (w.localDependencies krate).length).sum
  let reached := Worklist.reach w.localDependencies turns crates.reverse ∅
  w.localCrates.filter fun krate ↦ decide (krate ∈ reached)

section Model

variable [DecidableEq N] [LinearOrder Name] {Model Store WriteError : Type}
  (passes : Passes K N Name Model Store WriteError)

/-- The groups that are left, on the store as the groups before left it. What they wrote is
committed, group by group. -/
def extractGroups (scope : List K) : List (CrateGroup K N Name) → Store →
    Store × Except (ExtractError K Name WriteError) Unit
  | [], store => (store, .ok ())
  | group :: groups, store =>
    match passes.run scope group with
    | .cancelled => (store, .error (.cancelled group.name))
    | .panicked => (store, .error .panicked)
    | .model model =>
      match passes.write model group store with
      | .error e => (store, .error (.write e))
      | .ok store => extractGroups scope groups store

/-- `extract_by_crate` -/
def extractByCrate (dirty : List K) (store : Store) :
    Store × Except (ExtractError K Name WriteError) Unit :=
  match w.crateGroups dirty with
  | .error e => (store, .error (.groups e))
  | .ok groups => extractGroups passes (w.localDependencyClosure dirty) groups store

end Model

/-! ### The scope -/

/-- A crate depends on another that is local, or is that crate. -/
def DependsOn : K → K → Prop :=
  Relation.ReflTransGen fun a b ↦ b ∈ w.dependencies a ∧ b ∈ w.localCrates

variable {w} {dirty : List K} {k : K}

theorem sum_length_le (w : LoadedWorkspace K N Name) (l : List K) (s : Finset K)
    (hsub : ∀ k ∈ s, k ∈ l) : ∑ k ∈ s, (w.localDependencies k).length ≤
      (l.map fun k ↦ (w.localDependencies k).length).sum := by
  calc ∑ k ∈ s, (w.localDependencies k).length
      ≤ ∑ k ∈ l.toFinset, (w.localDependencies k).length :=
        Finset.sum_le_sum_of_subset fun k hk ↦ List.mem_toFinset.2 (hsub k hk)
    _ = (l.dedup.map fun k ↦ (w.localDependencies k).length).sum := by
        rw [← List.sum_toFinset _ (List.nodup_dedup l)]
        exact Finset.sum_congr (by ext; simp) fun _ _ ↦ rfl
    _ ≤ _ := (l.dedup_sublist.map _).sum_le_sum fun _ _ ↦ Nat.zero_le _

/-- **The scope** is what the dirty crates depend on. -/
theorem mem_localDependencyClosure : k ∈ w.localDependencyClosure dirty ↔
    k ∈ w.localCrates ∧ ∃ d ∈ dirty, w.DependsOn d k := by
  rw [localDependencyClosure, List.mem_filter, decide_eq_true_iff]
  refine and_congr_right fun _ ↦ ?_
  rw [Worklist.mem_reach (U := (dirty ++ w.localCrates).toFinset)]
  · refine exists_congr fun d ↦ and_congr_right fun _ ↦ ?_
    rw [DependsOn]
    simp only [localDependencies, List.mem_filter, decide_eq_true_iff]
  · exact fun d hd ↦ List.mem_toFinset.2 (List.mem_append_left _ hd)
  · intro d _ dep hdep
    exact List.mem_toFinset.2 (List.mem_append_right _
      (of_decide_eq_true (List.mem_filter.1 hdep).2))
  · refine Nat.add_le_add_left (sum_length_le w _ _ fun k hk ↦ ?_) _
    exact List.mem_toFinset.1 (Finset.sdiff_subset hk)

omit [DecidableEq K] in
theorem DependsOn.mem_localCrates {d : K} (h : w.DependsOn k d) (hk : k ∈ w.localCrates) :
    d ∈ w.localCrates := by
  cases h with
  | refl => exact hk
  | tail _ hedge => exact hedge.2

/-- What a dirty crate depends on is in the scope. -/
theorem DependsOn.mem_closure {d : K} (h : w.DependsOn k d) (hdirty : k ∈ dirty)
    (hk : k ∈ w.localCrates) : d ∈ w.localDependencyClosure dirty :=
  mem_localDependencyClosure.2 ⟨h.mem_localCrates hk, k, hdirty, h⟩

end LoadedWorkspace

/-! ### The run -/

namespace Passes

variable {Model Store WriteError : Type} (passes : Passes K N Name Model Store WriteError)
  (scope : List K)

/-- The groups are walked and written, one after another. -/
def Writes : List (CrateGroup K N Name) → Store → Store → Prop
  | [], s, t => s = t
  | group :: groups, s, t => ∃ model u, passes.run scope group = .model model ∧
      passes.write model group s = .ok u ∧ Writes groups u t

/-- How a build fails at a group. -/
def Fails (group : CrateGroup K N Name) (store : Store) : ExtractError K Name WriteError → Prop
  | .cancelled name => passes.run scope group = .cancelled ∧ name = group.name
  | .panicked => passes.run scope group = .panicked
  | .write e => ∃ model, passes.run scope group = .model model ∧
      passes.write model group store = .error e
  | .groups _ => False

/-- A build writes the groups in order, up to the one it fails at. -/
structure Built (groups : List (CrateGroup K N Name)) (store : Store)
    (result : Store × Except (ExtractError K Name WriteError) Unit) : Prop where
  written : ∃ before after, groups = before ++ after ∧
    passes.Writes scope before store result.1 ∧ (result.2 = .ok () ↔ after = []) ∧
    ∀ e, result.2 = .error e → ∃ group rest, after = group :: rest ∧
      passes.Fails scope group result.1 e

variable {passes scope} {group : CrateGroup K N Name} {groups : List (CrateGroup K N Name)}
  {store store' : Store} {model : Model} {e : ExtractError K Name WriteError}

theorem Built.fail (h : passes.Fails scope group store e) :
    passes.Built scope (group :: groups) store (store, .error e) where
  written := by
    refine ⟨[], group :: groups, rfl, rfl, by simp, fun e' heq ↦ ?_⟩
    obtain rfl := Except.error.inj heq
    exact ⟨group, groups, rfl, h⟩

theorem Built.cons {result : Store × Except (ExtractError K Name WriteError) Unit}
    (hrun : passes.run scope group = .model model)
    (hwrite : passes.write model group store = .ok store')
    (h : passes.Built scope groups store' result) :
    passes.Built scope (group :: groups) store result where
  written := by
    obtain ⟨before, after, rfl, hwrites, hok, hfail⟩ := h.written
    exact ⟨group :: before, after, rfl, ⟨model, store', hrun, hwrite, hwrites⟩, hok, hfail⟩

theorem built_extractGroups (groups : List (CrateGroup K N Name)) (store : Store) :
    passes.Built scope groups store (LoadedWorkspace.extractGroups passes scope groups store) := by
  induction groups generalizing store with
  | nil =>
    refine ⟨[], [], rfl, rfl, ⟨fun _ ↦ rfl, fun _ ↦ rfl⟩, fun e heq ↦ ?_⟩
    exact absurd heq (by simp [LoadedWorkspace.extractGroups])
  | cons group groups ih =>
    rcases hrun : passes.run scope group with model | - | -
    · rcases hwrite : passes.write model group store with e | store'
      · have hfail : passes.Fails scope group store (.write e) := ⟨model, hrun, hwrite⟩
        simpa only [LoadedWorkspace.extractGroups, hrun, hwrite] using Built.fail hfail
      · simpa only [LoadedWorkspace.extractGroups, hrun, hwrite] using (ih store').cons hrun hwrite
    · have hfail : passes.Fails scope group store (.cancelled group.name) := ⟨hrun, rfl⟩
      simpa only [LoadedWorkspace.extractGroups, hrun] using Built.fail hfail
    · have hfail : passes.Fails scope group store .panicked := hrun
      simpa only [LoadedWorkspace.extractGroups, hrun] using Built.fail hfail

end Passes

/-- **A build by crates.** Where the dirty crates are local and no group is split, the groups are
planned, each in a scope that holds all it depends on, and written in that order up to the one the
build fails at, which the error tells. Otherwise nothing is written. -/
theorem extractByCrate_spec [DecidableEq K] [DecidableEq N] [LinearOrder Name]
    {Model Store WriteError : Type} (w : LoadedWorkspace K N Name)
    (passes : Passes K N Name Model Store WriteError) (dirty : List K) (store : Store) :
    (dirty ⊆ w.localCrates ∧ w.Whole dirty → ∃ groups, w.Planned dirty groups ∧
      (∀ group ∈ groups, ∀ k ∈ group.crates, ∀ d, w.DependsOn k d →
        d ∈ w.localDependencyClosure dirty) ∧
      passes.Built (w.localDependencyClosure dirty) groups store
        (w.extractByCrate passes dirty store)) ∧
    (¬(dirty ⊆ w.localCrates ∧ w.Whole dirty) → ∃ e, w.Names dirty e ∧
      w.extractByCrate passes dirty store = (store, .error (.groups e))) := by
  refine ⟨fun h ↦ ?_, fun hnot ↦ ?_⟩
  · obtain ⟨groups, hok, hplanned⟩ := LoadedWorkspace.exists_planned h.1 h.2
    refine ⟨groups, hplanned, fun group hgroup k hk d hd ↦ ?_, ?_⟩
    · have hdirty := (hplanned.mem k).2 ⟨group, hgroup, hk⟩
      exact hd.mem_closure hdirty (h.1 hdirty)
    · rw [LoadedWorkspace.extractByCrate, hok]
      exact Passes.built_extractGroups groups store
  · obtain ⟨e, herror, hnames⟩ := LoadedWorkspace.exists_names hnot
    exact ⟨e, hnames, by rw [LoadedWorkspace.extractByCrate, herror]⟩

end RustCodeMcp.Extraction
