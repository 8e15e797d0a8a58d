import Mathlib.Data.List.Sort
import Mathlib.Data.String.Basic
import RustCodeMcp.Files.Inodes
import RustCodeMcp.Graph.Inputs
import RustCodeMcp.Machine.Runs

/-!
# A build and the tree under it

A build looks at the workspace several times — it stamps directories and files, hashes the files,
loads them — and none of this happens at one moment: a walk takes one entry at a time, and between
any two of its steps the tree may be edited. What the looks have to do with each other is found out
by walking once more and comparing stamps.

A walk does not go into a directory that only a link leads to, but it takes a link to a file as the
file: its stamp is that of the file, and none tells of the directories that the link leads through,
if the walk does not go into them. The other thing that is hashed and not stamped is what lies where
the graph is written. Edits that leave both alone are those of `LeavesUnstamped`.
-/

namespace RustCodeMcp.Graph

/-- What ends a build without a snapshot. -/
inductive BuildError
  | walk
  | inputChanged
  deriving DecidableEq

/-! ### Walks -/

/-- What a walk has yet to do: hand over an entry, of the type that its directory said, or list a
directory. -/
inductive Task
  | visit (path : Path) (type : FileTree.FileType)
  | list (path : Path)
  deriving DecidableEq

variable {Content V : Type}

/-- A walk: what it goes into, and what it takes from an entry. -/
structure Walk (Content V : Type) where
  visible : Path → Bool
  look : FileTree String Content → Path → FileTree.FileType → Except BuildError (Option V)

/-- From the workspace's root. -/
def Walk.start : List Task := [.visit [] .dir]

/-- A step of a walk: what it has to do instead, and what it took. -/
def Walk.step (walk : Walk Content V) (tree : FileTree String Content) :
    Task → Except BuildError (List Task × List (Path × V))
  | .visit path type =>
    if walk.visible path then do
      let value ← walk.look tree path type
      return (if type = .dir then [.list path] else [], value.toList.map fun v ↦ (path, v))
    else return ([], [])
  | .list path =>
    match tree.resolve path with
    | some (.dir i) =>
      return ((tree.entries i).entries.map fun entry ↦ .visit (path ++ [entry.1]) entry.2.fileType,
        [])
    | _ => .error .walk

abbrev Stamps : Type := List (Path × FileTree.Stamp)

/-- `stamps`: the directories and the fingerprinted files, except where the graph itself is written.
-/
def stampsWalk (root graphOutput : Path) : Walk Content FileTree.Stamp where
  visible rel := !isSourceWalkExcluded (root ++ rel) && !graphOutput.isPrefixOf (root ++ rel)
  look tree rel type :=
    if type ≠ .dir && !isFingerprinted rel then return none
    else
      match tree.resolve rel with
      | none => .error .inputChanged
      | some n => return some (tree.stamp n)

/-- A file that is read if it counts. -/
def readFile (tree : FileTree String Content) (rel : Path) : Except BuildError (Option Content) :=
  if isFingerprinted rel then
    match tree.file rel with
    | none => .error .walk
    | some content => return some content
  else return none

/-- The walk of `compute_build_inputs`. -/
def inputsWalk (root : Path) : Walk Content Content where
  visible rel := !isSourceWalkExcluded (root ++ rel)
  look tree rel type :=
    match type with
    | .dir => return none
    | .file => readFile tree rel
    | .symlink =>
      match tree.resolve rel with
      | none => .error .walk
      | some (.dir _) => return none
      | some (.file _) => readFile tree rel

/-- The path as it is hashed. -/
def relPath (rel : Path) : String := "/".intercalate rel

def sortFiles (files : Tree Content) : Tree Content :=
  files.insertionSort fun a b ↦ relPath a.1 ≤ relPath b.1

/-- `InputSlice` -/
structure InputSlice (Content : Type) where
  inputs : BuildInputs Content
  stamps : Stamps

/-- The comparison of `InputSlice::validate`. -/
def sameStamps (stamps current : Stamps) : Bool :=
  (stamps.map Prod.fst ++ current.map Prod.fst).all fun p ↦ stamps.lookup p = current.lookup p

/-! ### Builds -/

/-- What a validation comes after. -/
inductive Moment
  | hashed
  | reusing
  | loaded
  | extracted
  deriving DecidableEq

/-- Where `build_attempt` is. -/
inductive Phase (Content : Type)
  | stamping (tasks : List Task) (stamps : Stamps)
  | hashing (stamps : Stamps) (tasks : List Task) (files : Tree Content)
  | validating (slice : InputSlice Content) (tasks : List Task) (current : Stamps) (moment : Moment)
  | deciding (slice : InputSlice Content)
  | loading (slice : InputSlice Content)
  | extracting (slice : InputSlice Content)
  | published (inputs : BuildInputs Content)
  | failed (error : BuildError)

/-- What comes after a validation. -/
def Moment.next (slice : InputSlice Content) : Moment → Phase Content
  | hashed => .deciding slice
  | reusing => .published slice.inputs
  | loaded => .extracting slice
  | extracted => .published slice.inputs

structure BuildState (Content : Type) where
  tree : FileTree String Content
  /-- The versions of the tree since the build began. -/
  versions : List (FileTree String Content)
  /-- The version at the end of the first walk. -/
  base : FileTree String Content
  /-- What the loader read: a content, or that there is no file. -/
  reads : List (Path × Option Content)
  attempt : ℕ
  phase : Phase Content

/-- What happens next. -/
inductive BuildStep (Content : Type)
  /-- Whatever is done to the workspace at once. -/
  | edit (changes : List (FileTree.Change String Content))
  /-- The walk goes on, or ends. -/
  | walk
  | choose (reuse : Bool)
  | read (path : Path)
  | loaded
  | extracted
  | retry

namespace BuildState

variable (root graphOutput : Path) (s : BuildState Content)

/-- Take a step of a walk. -/
def walkOn (walk : Walk Content V) (tasks : List Task) (seen : List (Path × V))
    (going : List Task → List (Path × V) → Phase Content) (ended : BuildState Content) :
    BuildState Content :=
  match tasks with
  | [] => ended
  | task :: rest =>
    match walk.step s.tree task with
    | .ok (instead, taken) => { s with phase := going (instead ++ rest) (taken ++ seen) }
    | .error e => { s with phase := .failed e }

/-- `build_attempt` from its first walk on. -/
def begin (tree : FileTree String Content)
    (versions : List (FileTree String Content)) (attempt : ℕ) : BuildState Content where
  tree
  versions
  base := tree
  reads := []
  attempt
  phase := if graphOutput = root then .failed .walk else .stamping Walk.start []

def step : BuildStep Content → Option (BuildState Content)
  | .edit changes =>
    let tree := s.tree.apply changes
    some { s with tree, versions := s.versions ++ [tree] }
  | .walk =>
    match s.phase with
    | .stamping tasks stamps =>
      some (s.walkOn (stampsWalk root graphOutput) tasks stamps .stamping
        { s with base := s.tree, phase := .hashing stamps Walk.start [] })
    | .hashing stamps tasks files =>
      let slice := { inputs := computeBuildInputs root (sortFiles files), stamps }
      some (s.walkOn (inputsWalk root) tasks files (.hashing stamps)
        { s with phase := .validating slice Walk.start [] .hashed })
    | .validating slice tasks current moment =>
      some (s.walkOn (stampsWalk root graphOutput) tasks current
        (fun tasks current ↦ .validating slice tasks current moment)
        { s with
          phase := if sameStamps slice.stamps current then moment.next slice
            else .failed .inputChanged })
    | _ => none
  | .choose reuse =>
    match s.phase with
    | .deciding slice =>
      some { s with
        phase := if reuse then .validating slice Walk.start [] .reusing else .loading slice }
    | _ => none
  | .read path =>
    match s.phase with
    | .loading _ => some { s with reads := (path, s.tree.file path) :: s.reads }
    | _ => none
  | .loaded =>
    match s.phase with
    | .loading slice => some { s with phase := .validating slice Walk.start [] .loaded }
    | _ => none
  | .extracted =>
    match s.phase with
    | .extracting slice => some { s with phase := .validating slice Walk.start [] .extracted }
    | _ => none
  | .retry =>
    -- `retry_build`: a changed input means to start over, with a fresh database.
    match s.phase with
    | .failed .inputChanged =>
      if s.attempt < 2 then some (begin root graphOutput s.tree s.versions (s.attempt + 1))
      else none
    | _ => none

end BuildState

/-- A build of a workspace, from that tree on. -/
def sliceMachine (root graphOutput : Path) (tree : FileTree String Content) :
    Machine (BuildState Content) (BuildStep Content) where
  start := BuildState.begin root graphOutput tree [tree] 0
  step := BuildState.step root graphOutput

/-- The inputs are those of this version of the tree. -/
def HashesTo (root : Path) (version : FileTree String Content)
    (inputs : BuildInputs Content) : Prop :=
  ∃ files : Tree Content, (files.map Prod.fst).Nodup ∧
    (∀ p content, (p, content) ∈ files ↔
      isHashed root p = true ∧ version.Direct p ∧ version.file p = some content) ∧
    inputs = computeBuildInputs root (sortFiles files)

/-- The walk of stamps goes into the directory. -/
def Watched (root graphOutput : Path) (tree : FileTree String Content) (i : ℕ) : Prop :=
  ∃ p, (∀ q, q <+: p → (stampsWalk root graphOutput : Walk Content _).visible q = true) ∧
    tree.entry p = some (.node (.dir i))

/-- What is looked at and not stamped is left alone: the files in the graph's own directory, and
which file a path leads to, as far as it depends on directories that the walk does not go into. -/
structure LeavesUnstamped (root graphOutput : Path) (tree tree' : FileTree String Content) :
    Prop where
  output : ∀ p, isHashed root p = true → graphOutput <+: root ++ p →
    (tree'.Direct p ↔ tree.Direct p) ∧ tree'.file p = tree.file p
  /-- With the other directories as they become, and those that are watched as they are. -/
  links : ∀ mixed : FileTree String Content,
    (∀ i, Watched root graphOutput tree i → mixed.dirs i = tree.dirs i) →
    (∀ i, ¬Watched root graphOutput tree i → mixed.dirs i = tree'.dirs i) →
    ∀ p, isHashed root p = true → ¬graphOutput <+: root ++ p → tree.Direct p →
      mixed.resolve p = tree.resolve p

/-- Any edit, except of what is not stamped. -/
def LeavesAlone (root graphOutput : Path) (s : BuildState Content) : BuildStep Content → Prop
  | .edit changes => LeavesUnstamped root graphOutput s.tree (s.tree.apply changes)
  | _ => True

end RustCodeMcp.Graph
