import Mathlib.Data.List.Dedup
import RustCodeMcp.Chunker.Types

/-!
# What a build reads from the tree

The files of the workspace are hashed for each package, and those that make any edit a full rebuild
once more, together. A digest stands for what it digests.

Which package a file belongs to is decided by the directories that have a manifest, as they are in
the tree at hand: the deepest of them above the file, or the root. **So a new manifest moves files
from one package to another without any of them changing.** That goes through the global inputs, of
which every manifest is one: trees with the same global inputs have the same packages
(`packageDirs_global`).

Digests are left for the content they stand for, so two inputs are equal when what they digest is;
that hashes do as well is another module's business.
-/

namespace RustCodeMcp.Graph

/-- A path, from the workspace's root, by its components. -/
abbrev Path := List String

/-- The files of a workspace, sorted by path. -/
abbrev Tree (Content : Type*) := List (Path × Content)

/-- `BuildInputs`, with the files for their hashes. -/
structure BuildInputs (Content : Type*) where
  global : Tree Content
  packages : List (Path × Tree Content)
  deriving DecidableEq

/-- A name ends in this. -/
def endsWith (suffix name : String) : Bool :=
  suffix.toList.isSuffixOf name.toList

/-- The last component. -/
def fileName (rel : Path) : String :=
  rel.getLast?.getD ""

/-- The walk for sources does not go there. -/
def isSourceWalkExcluded (path : Path) : Bool :=
  path.any fun c ↦ c = "target" || c = ".git" || c = ".skeleton"

/-- The files at the root that are hashed with the global inputs. -/
def rootFiles : List Path :=
  [["rust-toolchain.toml"], ["rust-toolchain"], [".cargo", "config.toml"], [".cargo", "config"]]

/-- The file counts into a fingerprint. -/
def isFingerprinted (rel : Path) : Bool :=
  endsWith ".rs" (fileName rel) || fileName rel = "Cargo.toml" || fileName rel = "Cargo.lock" ||
    rel ∈ rootFiles

/-- Hashed with what makes any edit a full rebuild. -/
def isGlobal (rel : Path) : Bool :=
  endsWith "Cargo.toml" (fileName rel) || rel = ["Cargo.lock"] || rel ∈ rootFiles

/-- Whether the build looks at the file: the walk does not go into the outputs, wherever the
workspace itself lies. -/
def isHashed (root rel : Path) : Bool :=
  !isSourceWalkExcluded (root ++ rel) && isFingerprinted rel

/-- The directories with a `Cargo.toml`, and the root. -/
def packageDirs {Content : Type*} (files : Tree Content) : List Path :=
  ([] :: (files.filter fun file ↦ fileName file.1 = "Cargo.toml").map fun file ↦
    file.1.dropLast).dedup

/-- The deepest of the directories above, from the innermost on. -/
def packageAbove (dirs : List Path) : List String → Path
  | [] => []
  | c :: above => if (c :: above).reverse ∈ dirs then (c :: above).reverse
    else packageAbove dirs above

/-- The package that the path belongs to. -/
def packageOf (dirs : List Path) (rel : Path) : Path :=
  packageAbove dirs rel.reverse.tail

section

variable {Content : Type*}

/-- The files that the build looks at. -/
def hashedFiles (root : Path) (tree : Tree Content) : Tree Content :=
  tree.filter fun file ↦ isHashed root file.1

/-- The files of the package. -/
def packageFiles (files : Tree Content) (dir : Path) : Tree Content :=
  files.filter fun file ↦ packageOf (packageDirs files) file.1 = dir

/-- `compute_build_inputs` -/
def computeBuildInputs (root : Path) (tree : Tree Content) : BuildInputs Content :=
  let files := hashedFiles root tree
  { global := files.filter fun file ↦ isGlobal file.1
    packages := (packageDirs files).map fun dir ↦ (dir, packageFiles files dir) }

/-- The packages whose files differ, or that only one of the two has. -/
def BuildInputs.changedPackages [DecidableEq Content]
    (inputs other : BuildInputs Content) : List Path :=
  (inputs.packages.filter fun package ↦
    other.packages.lookup package.1 ≠ some package.2).map Prod.fst ++
    (other.packages.map Prod.fst).filter fun dir ↦ dir ∉ inputs.packages.map Prod.fst

/-- The packages' directories. -/
def BuildInputs.dirs (inputs : BuildInputs Content) : List Path :=
  inputs.packages.map Prod.fst

variable {root : Path} {tree tree' : Tree Content} {p : Path}

theorem dirs_computeBuildInputs :
    (computeBuildInputs root tree).dirs = packageDirs (hashedFiles root tree) := by
  show ((packageDirs _).map fun dir ↦ _).map Prod.fst = _
  rw [List.map_map]
  exact List.map_id _

/-- Every manifest is hashed with the global inputs, so these tell the packages. -/
theorem packageDirs_global (files : Tree Content) :
    packageDirs (files.filter fun file ↦ isGlobal file.1) = packageDirs files := by
  unfold packageDirs
  rw [List.filter_filter]
  refine congrArg (fun l ↦ ([] :: List.map _ l).dedup) (List.filter_congr fun file _ ↦ ?_)
  by_cases hname : fileName file.1 = "Cargo.toml"
  · have hglobal : isGlobal file.1 = true := by
      rw [isGlobal, hname]
      rfl
    rw [hglobal, Bool.and_true]
  · rw [decide_eq_false hname, Bool.false_and]

theorem dirs_eq_of_global
    (h : (computeBuildInputs root tree).global = (computeBuildInputs root tree').global) :
    (computeBuildInputs root tree).dirs = (computeBuildInputs root tree').dirs := by
  rw [dirs_computeBuildInputs, dirs_computeBuildInputs,
    ← packageDirs_global (hashedFiles root tree), ← packageDirs_global (hashedFiles root tree')]
  exact congrArg packageDirs h

theorem packageOf_mem {dirs : List Path} (h : [] ∈ dirs) (rel : Path) :
    packageOf dirs rel ∈ dirs := by
  unfold packageOf
  induction rel.reverse.tail with
  | nil => exact h
  | cons c above ih =>
    rw [packageAbove]
    split_ifs with hmem
    · exact hmem
    · exact ih

/-- Files that are picked by their paths are found, or missed, as before. -/
theorem lookup_filter (q : Path → Bool) (hq : q p = true) (files : Tree Content) :
    (files.filter fun file ↦ q file.1).lookup p = files.lookup p := by
  induction files with
  | nil => rfl
  | cons file files ih =>
    obtain ⟨rel, content⟩ := file
    rw [List.filter_cons]
    by_cases hp : p = rel
    · subst hp
      rw [if_pos hq, List.lookup_cons_self, List.lookup_cons_self]
    · have hne : (p == rel) = false := beq_eq_false_iff_ne.2 hp
      split_ifs
      · rw [List.lookup_cons, List.lookup_cons, hne]
        exact ih
      · rw [List.lookup_cons, hne]
        exact ih

/-- The files of a package are those of the tree. -/
theorem lookup_packageFiles (hp : isHashed root p = true) (tree : Tree Content) :
    (packageFiles (hashedFiles root tree)
    (packageOf (packageDirs (hashedFiles root tree)) p)).lookup p =
      tree.lookup p := by
  have hpackage := lookup_filter (p := p) (fun rel ↦
    decide (packageOf (packageDirs (hashedFiles root tree)) rel =
      packageOf (packageDirs (hashedFiles root tree)) p)) (decide_eq_true rfl)
        (hashedFiles root tree)
  exact hpackage.trans (lookup_filter (isHashed root) hp tree)

theorem lookup_packages {dir : Path} (h : dir ∈ (computeBuildInputs root tree).dirs) :
    (computeBuildInputs root tree).packages.lookup
    dir = some (packageFiles (hashedFiles root tree) dir) := by
  rw [dirs_computeBuildInputs] at h
  show ((packageDirs _).map fun dir ↦ (dir, _)).lookup dir = _
  generalize packageDirs (hashedFiles root tree) = dirs at h
  induction dirs with
  | nil => cases h
  | cons d dirs ih =>
    rw [List.map_cons, List.lookup_cons]
    by_cases hd : dir = d
    · subst hd
      rw [beq_self_eq_true]
    · rw [beq_eq_false_iff_ne.2 hd]
      exact ih ((List.mem_cons.1 h).resolve_left hd)

/-- A package that both have, and that has not changed. -/
theorem packageFiles_of_unchanged [DecidableEq Content] {dir : Path}
    (hmem : dir ∈ (computeBuildInputs root tree).dirs)
    (hmem' : dir ∈ (computeBuildInputs root tree').dirs)
    (h : dir ∉ (computeBuildInputs root tree').changedPackages (computeBuildInputs root tree)) :
    packageFiles (hashedFiles root tree) dir = packageFiles (hashedFiles root tree') dir := by
  by_contra hne
  refine h (List.mem_append_left _
    (List.mem_map.2 ⟨(dir, packageFiles (hashedFiles root tree') dir),
    List.mem_filter.2 ⟨?_, decide_eq_true ?_⟩, rfl⟩))
  · rw [dirs_computeBuildInputs] at hmem'
    exact List.mem_map.2 ⟨dir, hmem', rfl⟩
  · rw [lookup_packages hmem]
    exact fun heq ↦ hne (Option.some.inj heq)

theorem packageOf_mem_dirs (root : Path) (tree : Tree Content) (rel : Path) :
    packageOf (computeBuildInputs root tree).dirs rel ∈ (computeBuildInputs root tree).dirs := by
  refine packageOf_mem ?_ rel
  rw [dirs_computeBuildInputs]
  exact List.mem_dedup.2 List.mem_cons_self

/-- A hashed file is found in its package. -/
theorem lookup_of_packageFiles (hp : isHashed root p = true)
    (hglobal : (computeBuildInputs root tree).global = (computeBuildInputs root tree').global)
    (hsame : packageFiles (hashedFiles root tree)
    (packageOf (computeBuildInputs root tree).dirs p) =
      packageFiles (hashedFiles root tree') (packageOf (computeBuildInputs root tree).dirs p)) :
    tree.lookup p = tree'.lookup p := by
  calc tree.lookup p
      = (packageFiles (hashedFiles root tree)
          (packageOf (computeBuildInputs root tree).dirs p)).lookup p := by
        rw [dirs_computeBuildInputs, lookup_packageFiles hp]
    _ = (packageFiles (hashedFiles root tree')
          (packageOf (computeBuildInputs root tree).dirs p)).lookup p := by rw [hsame]
    _ = tree'.lookup p := by
        rw [dirs_eq_of_global hglobal, dirs_computeBuildInputs, lookup_packageFiles hp]

/-- **A hashed file of a package that has not changed has not changed.** -/
theorem lookup_of_unchanged [DecidableEq Content] (hp : isHashed root p = true)
    (hglobal : (computeBuildInputs root tree).global = (computeBuildInputs root tree').global)
    (hunchanged : packageOf (computeBuildInputs root tree).dirs p ∉
      (computeBuildInputs root tree').changedPackages (computeBuildInputs root tree)) :
    tree.lookup p = tree'.lookup p := by
  have hmem := packageOf_mem_dirs root tree p
  exact lookup_of_packageFiles hp hglobal
    (packageFiles_of_unchanged hmem (dirs_eq_of_global hglobal ▸ hmem) hunchanged)

/-- The inputs tell every hashed file. -/
theorem lookup_of_inputs (hp : isHashed root p = true)
    (h : computeBuildInputs root tree = computeBuildInputs root tree') :
    tree.lookup p = tree'.lookup p := by
  have hmem := packageOf_mem_dirs root tree p
  refine lookup_of_packageFiles hp (congrArg BuildInputs.global h) (Option.some.inj ?_)
  rw [← lookup_packages hmem, h, lookup_packages (h ▸ hmem)]

end

end RustCodeMcp.Graph
