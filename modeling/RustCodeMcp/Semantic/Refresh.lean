import Mathlib.Data.List.Sort
import RustCodeMcp.Indexing.World
import RustCodeMcp.Semantic.Service

/-!
# Bringing a context up to date

A context remembers the stamps of the project's files as they were when it was loaded or last
refreshed. A refresh collects the stamps anew and compares: edits are read and pushed into the
database, anything else is loaded again. The files change under it all the time, so collecting,
reading and loading go file by file here, and a step of somebody else's editor may come between any
two.

The walk over the project and the loader are not this project's: the walk lists some paths, and the
loader reads files in an order of its own, decides which of them it excludes, and succeeds or fails.

A file has a stamp whether or not the analysis knows it, and is part of the database only if the
loader took it in. So the two maps of a context are apart: `stamps` is what a walk collected, the
other what the loader read, and a refresh compares the first only.

Between any two steps somebody may write or remove a file. What is read of a file is therefore what
it holds then, and not what it held when its stamp was taken.
-/

namespace RustCodeMcp.SemanticService

/-- What a `stat` can see about a file. -/
structure FileStamp where
  modified : ℕ
  len : ℕ
  deriving DecidableEq

/-- The stamp of a file as it is. -/
def stampOf (file : FileEntry) : FileStamp :=
  { modified := file.modified, len := file.bytes.size }

/-- A file the analysis knows. -/
structure VfsFile where
  excluded : Bool
  /-- Its text in the database; a file that is not UTF-8 has none. -/
  text : Option String

/-- What is remembered of a load: the stamps, and the files that were read. -/
structure ProjectContext where
  vfs : PathMap VfsFile
  loadKind : LoadKind
  /-- The working tree as it was when the context was built or last refreshed. -/
  stamps : PathMap FileStamp
  /-- The number of the load that built it. -/
  load : ℕ

/-- What the working tree did since a context was built. -/
inductive Staleness
  | fresh
  | edited (paths : List PathBuf)
  | structureChanged

/-- Compare the stamps of a context with those of now. -/
def classifyStaleness (old new : PathMap FileStamp) : Staleness :=
  if old.entries.length ≠ new.entries.length then .structureChanged
  else if new.entries.any fun e ↦ (old.lookup e.1).isNone then .structureChanged
  else
    let edited := (new.entries.filter fun e ↦ decide (old.lookup e.1 ≠ some e.2)).map (·.1)
    if edited.isEmpty then .fresh else .edited (edited.insertionSort (· ≤ ·))

/-- The updates of `apply_edits`, pushed into the database. -/
def applyUpdates (vfs : PathMap VfsFile) (updates : List (PathBuf × String)) : PathMap VfsFile :=
  updates.foldl (fun vfs u ↦ vfs.insert u.1 { excluded := false, text := some u.2 }) vfs

/-- Where the holder of the slot is. `reload` tells `load_into` from `refresh_if_stale`. -/
inductive Progress
  | idle
  /-- About to list the files of the project. -/
  | walking (reload : Bool) (requested : LoadKind)
  /-- In `collect_stamps`, with these files to go. -/
  | stamping (reload : Bool) (requested : LoadKind) (todo : List PathBuf)
      (stamps : PathMap FileStamp)
  /-- In `apply_edits`, with these files to read. -/
  | patching (requested : LoadKind) (todo : List PathBuf) (updates : List (PathBuf × String))
      (current : PathMap FileStamp)
  /-- In the loader; the previous context is gone. -/
  | loading (requested : LoadKind) (stamps : PathMap FileStamp) (vfs : PathMap VfsFile)

/-- One project: its files, its context, and the work in progress. -/
structure Project where
  /-- The files on disk. -/
  files : PathMap FileEntry
  /-- Every stamp a file has had. -/
  borne : PathBuf → List FileStamp
  context : Option ProjectContext
  progress : Progress
  /-- How many loads have begun. -/
  loads : ℕ

namespace Project

/-- What happens next. -/
inductive Event
  /-- A file is created or edited. -/
  | write (path : PathBuf) (file : FileEntry)
  | remove (path : PathBuf)
  | bringUpToDate (requested : LoadKind)
  /-- The walk has listed the files of the project. -/
  | walk (paths : List PathBuf)
  | stat
  /-- All stamps are collected. -/
  | stamped
  /-- `apply_edits` reads its next file; `fails` when the read fails. -/
  | readEdit (fails : Bool)
  | applyChange
  /-- The loader reads a file. -/
  | loadFile (path : PathBuf) (excluded : Bool)
  | loaded (ok : Bool)

/-- The text `apply_edits` reads for a path: the file must be known to the analysis, not excluded
from it, and UTF-8. -/
def readEdit (files : PathMap FileEntry) (vfs : PathMap VfsFile) (path : PathBuf) : Option String :=
  match vfs.lookup path with
  | some file =>
    if file.excluded then none else (files.lookup path).bind fun file ↦ String.fromUTF8? file.bytes
  | none => none

/-- What `refresh_if_stale` makes of the stamps it has collected. -/
def refreshIfStale (requested : LoadKind) (context : ProjectContext) (current : PathMap FileStamp) :
    Progress :=
  match classifyStaleness context.stamps current with
  | .fresh => .idle
  | .structureChanged => .walking true requested
  | .edited paths => .patching requested paths [] current

/-- One step: of an editor, of a walk, of a read or of a load. -/
def step (s : Project) : Event → Option Project
  | .write path file => some { s with
      files := s.files.insert path file
      borne := Function.update s.borne path (stampOf file :: s.borne path) }
  | .remove path => some { s with files := s.files.erase path }
  | .bringUpToDate requested =>
    match s.progress with
    | .idle => some { s with
        progress := .walking (Service.needsLoad (s.context.map (·.loadKind)) requested) requested }
    | _ => none
  | .walk paths =>
    match s.progress with
    | .walking reload requested => some { s with progress := .stamping reload requested paths ∅ }
    | _ => none
  | .stat =>
    match s.progress with
    | .stamping reload requested (path :: todo) stamps =>
      -- A file that vanished since the walk is absent from the stamps.
      let stamps := match s.files.lookup path with
        | some file => stamps.insert path (stampOf file)
        | none => stamps
      some { s with progress := .stamping reload requested todo stamps }
    | _ => none
  | .stamped =>
    match s.progress, s.context with
    | .stamping true requested [] stamps, _ => some { s with
        context := none
        progress := .loading requested stamps ∅
        loads := s.loads + 1 }
    | .stamping false requested [] stamps, some context =>
      some { s with progress := refreshIfStale requested context stamps }
    | _, _ => none
  | .readEdit fails =>
    match s.progress, s.context with
    | .patching requested (path :: todo) updates current, some context =>
      match if fails then none else readEdit s.files context.vfs path with
      | some text =>
        some { s with progress := .patching requested todo (updates ++ [(path, text)]) current }
      | none => some { s with progress := .walking true requested }
    | _, _ => none
  | .applyChange =>
    match s.progress, s.context with
    | .patching _ [] updates current, some context => some { s with
        context := some { context with
          vfs := applyUpdates context.vfs updates
          stamps := current }
        progress := .idle }
    | _, _ => none
  | .loadFile path excluded =>
    match s.progress with
    | .loading requested stamps vfs => (s.files.lookup path).map fun file ↦ { s with
        progress := .loading requested stamps (vfs.insert path
          { excluded, text := if excluded then none else String.fromUTF8? file.bytes }) }
    | _ => none
  | .loaded ok =>
    match s.progress with
    | .loading requested stamps vfs => some { s with
        context := if ok then some { vfs, loadKind := requested, stamps, load := s.loads } else none
        progress := .idle }
    | _ => none

end Project

/-- One project of the service, from an empty directory. -/
def projectMachine : Machine Project Project.Event where
  start := { files := ∅, borne := fun _ ↦ [], context := none, progress := .idle, loads := 0 }
  step := Project.step

end RustCodeMcp.SemanticService
