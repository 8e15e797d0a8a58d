import Mathlib.Data.Finmap
import RustCodeMcp.Graph.Inputs
import RustCodeMcp.Graph.Ownership
import RustCodeMcp.Machine.Reading
import RustCodeMcp.Machine.Runs

/-!
# Builds of the graph

A build goes on from the published snapshot, if it can: it reuses one of the same inputs, or
rewrites the crates whose packages have changed with all that depend on them, or builds everything.

What rust-analyzer and cargo do is a parameter: which crates there are, and what is extracted from
one of them, which is a function of the files that are read for it and of the rows of the crates it
depends on.

A build here is a function from the files of a tree, and from what the published snapshot holds, to
rows: nothing of a disk, of processes or of time, which come in where builds are interrupted. **What
is at stake is the reuse of rows.** A plan copies the tables of the base and rewrites the groups
that it takes for dirty; the result should be as if everything had been built, and whether it is
depends on what a group reads, which files count into the hash of its packages, and in which order
groups are written.

The result of a group is a function of the files of its walk and of the rows of what it depends on
(`Loader`); nothing more is assumed of the extraction.
-/

namespace RustCodeMcp.Graph

variable {Name Stub Row Value Content : Type*}

/-- `CrateGroup`, with the groups it depends on. -/
structure CrateGroup (Name : Type*) where
  name : Name
  dependencies : List Name

/-- A loaded workspace. -/
structure Loader (Name Stub Row Value Content : Type*) where
  /-- Where the workspace lies. -/
  root : Path
  /-- The groups, dependencies before dependents. -/
  crateGroups : Tree Content → List (CrateGroup Name)
  /-- The extraction of a group, from the global inputs and the rows of what it depends on: it reads
  module files, and finds a declared one missing. -/
  walk : Tree Content → Name → (Name → Extracted Stub Row Value) →
    Reading Path (Option Content) (Extracted Stub Row Value)

/-- A manifest with its rows. -/
structure Snapshot (Name Stub Row Value Content : Type*) where
  /-- The tree it was built from. -/
  tree : Tree Content
  inputs : BuildInputs Content
  tables : Tables Name Stub Row Value
  cratePackages : Finmap fun _ : Name ↦ Finset Path

/-- `BuildPlan` -/
inductive Plan (Name Stub Row Value Content : Type*)
  | full
  | incremental (base : Snapshot Name Stub Row Value Content) (dirty : List Name)

/-- What the groups are written into: nothing, or a copy of the base. -/
def Plan.baseTables : Plan Name Stub Row Value Content → Tables Name Stub Row Value
  | full => .empty
  | incremental base _ => base.tables

/-- The entries of the base that are kept. -/
def Plan.keptPackages [DecidableEq Name] :
    Plan Name Stub Row Value Content → Finmap fun _ : Name ↦ Finset Path
  | full => ∅
  | incremental base dirty =>
    dirty.foldl (fun packages krate ↦ packages.erase krate) base.cratePackages

section Dependents

variable [DecidableEq Name]

/-- Dependency and dependent. -/
def dependents (groups : List (CrateGroup Name)) : List (Name × Name) :=
  groups.flatMap fun group ↦
    (group.dependencies.filter (· ≠ group.name)).map fun dep ↦ (dep, group.name)

/-- The loop of `with_dependents`, for as many turns. -/
def reach (edges : List (Name × Name)) : ℕ → List Name → List Name → List Name
  | 0, _, reached => reached
  | _ + 1, [], reached => reached
  | n + 1, id :: stack, reached =>
    if id ∈ reached then reach edges n stack reached
    else reach edges n ((edges.filter fun edge ↦ edge.1 = id).map Prod.snd ++ stack) (id :: reached)

/-- `with_dependents`. Every group is expanded once, so the turns are as many as seeds and edges. -/
def withDependents (groups : List (CrateGroup Name)) (seeds : List Name) : List Name :=
  reach (dependents groups) (seeds.length + (dependents groups).length) seeds []

end Dependents

namespace Loader

variable [DecidableEq Name] (x : Loader Name Stub Row Value Content)

/-- The names of the local crates. -/
def names (tree : Tree Content) : List Name :=
  (x.crateGroups tree).map CrateGroup.name

/-- What a group is told of the others. -/
def restrict (dependencies : List Name) (models : Name → Extracted Stub Row Value) (krate : Name) :
    Extracted Stub Row Value :=
  if krate ∈ dependencies then models krate else .empty

/-- The walk of a group in that tree. -/
def walkOf (tree : Tree Content) (models : Name → Extracted Stub Row Value)
    (group : CrateGroup Name) : Reading Path (Option Content) (Extracted Stub Row Value) :=
  x.walk (computeBuildInputs x.root tree).global group.name (restrict group.dependencies models)

/-- What is extracted from each group, one after another. -/
def extractAll (tree : Tree Content) : Name → Extracted Stub Row Value :=
  (x.crateGroups tree).foldl (fun models group ↦
    Function.update models group.name ((x.walkOf tree models group).run fun p ↦ tree.lookup p))
      fun _ ↦ .empty

/-- The module files of a group, and those it has declared and not found. -/
def moduleFiles (tree : Tree Content) (group : CrateGroup Name) : List Path :=
  (x.walkOf tree (x.extractAll tree) group).reads fun p ↦ tree.lookup p

/-- `crate_packages`: the packages that the module files lie in. -/
def cratePackages (tree : Tree Content) (group : CrateGroup Name) : Finset Path :=
  (((x.moduleFiles tree group).filter fun file ↦ (tree.lookup file).isSome).map
    (packageOf (computeBuildInputs x.root tree).dirs)).toFinset

/-- The entries of the manifest for the groups that were built. -/
def recordPackages (tree : Tree Content) (dirty : List Name)
    (packages : Finmap fun _ : Name ↦ Finset Path) : Finmap fun _ : Name ↦ Finset Path :=
  ((x.crateGroups tree).filter fun group ↦ group.name ∈ dirty).foldl
    (fun packages group ↦ packages.insert group.name (x.cratePackages tree group)) packages

variable [DecidableEq Content] [DecidableEq Stub]

/-- `plan_build` -/
def planBuild (base : Option (Snapshot Name Stub Row Value Content)) (tree : Tree Content) :
    Plan Name Stub Row Value Content :=
  match base with
  | none => .full
  | some base =>
    let inputs := computeBuildInputs x.root tree
    if base.inputs.global ≠ inputs.global then .full
    else if (x.names tree).toFinset ≠ base.cratePackages.keys then .full
    else
      let changed := inputs.changedPackages base.inputs
      let direct := (x.names tree).filter fun krate ↦
        (base.cratePackages.lookup krate).any fun packages ↦ ∃ dir ∈ changed, dir ∈ packages
      let dirty := withDependents (x.crateGroups tree) direct
      .incremental base ((x.names tree).filter (· ∈ dirty))

/-- What a plan rebuilds. -/
def dirtyOf (tree : Tree Content) : Plan Name Stub Row Value Content → List Name
  | .full => x.names tree
  | .incremental _ dirty => dirty

/-- The build itself, the groups written in that order. -/
def buildAttempt (tree : Tree Content) (plan : Plan Name Stub Row Value Content)
    (order : List Name) : Snapshot Name Stub Row Value Content where
  tree
  inputs := computeBuildInputs x.root tree
  tables := plan.baseTables.writeByCrate (x.extractAll tree) order
  cratePackages := x.recordPackages tree (x.dirtyOf tree plan) plan.keptPackages

end Loader

/-- The tree, and what is published. -/
structure State (Name Stub Row Value Content : Type*) where
  /-- The tree of the last build. -/
  tree : Tree Content
  /-- The snapshot that `CURRENT` names. -/
  current : Option (Snapshot Name Stub Row Value Content)
  /-- The snapshots on disk. -/
  disk : List (Snapshot Name Stub Row Value Content)

/-- The tree is edited, and built. -/
structure Event (Name Content : Type*) where
  tree : Tree Content
  /-- The order in which the groups are written. -/
  order : List Name
  /-- Whether the published snapshot can be opened. -/
  opens : Bool
  /-- The old snapshots that readers hold open: they are not pruned. -/
  held : List ℕ

namespace State

variable [DecidableEq Name] [DecidableEq Content] [DecidableEq Stub]
  (x : Loader Name Stub Row Value Content) (s : State Name Stub Row Value Content)

/-- A snapshot of these inputs: preferably the current one. -/
def reusable (inputs : BuildInputs Content) : Option (Snapshot Name Stub Row Value Content) :=
  (s.current.filter fun snapshot ↦ snapshot.inputs = inputs).or
    (s.disk.find? fun snapshot ↦ snapshot.inputs = inputs)

/-- What is built when nothing is reused. -/
def plan (e : Event Name Content) : Plan Name Stub Row Value Content :=
  if e.opens then x.planBuild s.current e.tree else .full

/-- `build_and_persist`, without `force_rebuild` -/
def step (e : Event Name Content) : Option (State Name Stub Row Value Content) :=
  match s.reusable (computeBuildInputs x.root e.tree) with
  | some snapshot => some { s with tree := e.tree, current := some snapshot }
  | none =>
    if e.order.isPerm (x.dirtyOf e.tree (s.plan x e)) then
      let snapshot := x.buildAttempt e.tree (s.plan x e) e.order
      some { tree := e.tree, current := some snapshot,
             disk := snapshot :: e.held.filterMap (s.disk[·]?) }
    else none

end State

/-- Nothing is published at first. -/
def machine [DecidableEq Name] [DecidableEq Content] [DecidableEq Stub]
    (x : Loader Name Stub Row Value Content) :
    Machine (State Name Stub Row Value Content) (Event Name Content) where
  start := { tree := [], current := none, disk := [] }
  step := State.step x

end RustCodeMcp.Graph
