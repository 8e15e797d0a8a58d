import Mathlib.Data.List.AList
import RustCodeMcp.Codec.Format
import RustCodeMcp.Effect.Execution

/-!
# Snapshots on disk

The graph directory of a workspace holds the snapshots, each under the id of its build, and
`CURRENT`, which names the published one. `buildAttempt` is what a builder does there, call by call:
what it reads to find out whether there is anything to build, how it stages a snapshot, publishes it
and removes the others.

What is in a snapshot is a parameter: the inputs of a tree, and the job that a build of it on top of
a base comes to, as the rows to start with, the transactions to write and what the manifest is to
record.

A directory is known by a number of its own, as is the lock file: what is removed and created anew
is another one. What a builder has opened stays with it.

**The order of the steps is the protocol.** A snapshot is staged under its id before anything names
it, its manifest is written last, and only then is `CURRENT` replaced, by a rename; what is
superseded is removed after that. A builder that stops anywhere leaves a directory nobody names, or
one that everybody may use. The lock keeps builders apart; it is of a file that stays where it is.
-/

namespace RustCodeMcp.Graph

/-- The id of a build: it stands for its inputs, or is made up for one build. -/
inductive GraphId (Inputs : Type)
  | of (inputs : Inputs)
  | fresh (serial : ℕ)
  deriving DecidableEq

/-- The version of the tables. -/
def SCHEMA_VERSION : ℕ := 16

/-- `GraphManifest`: what is recorded of a build, under its id. -/
structure GraphManifest (Inputs Record : Type) where
  graphId : GraphId Inputs
  schemaVersion : ℕ
  record : Record

/-- How manifests are written, so that a cut shows. -/
abbrev ManifestFormat (Byte Inputs Record : Type) : Type :=
  Format Byte String (GraphManifest Inputs Record)

/-- What a build comes to. -/
structure Job (Record Rows : Type) where
  /-- The rows that are copied, if it goes on from a base. -/
  base : Option Rows
  /-- One transaction for each crate that is built. -/
  writes : List (Rows → Rows)
  record : Record

/-- What `build_attempt` is told of a tree. -/
structure Project (Tree Inputs Record Rows : Type) where
  inputs : Tree → Inputs
  /-- The inputs that a manifest records; their fingerprint stands for them. -/
  recorded : Record → Inputs
  empty : Rows
  /-- The plan, on top of the published snapshot if there is one. -/
  job : Tree → Option (Record × Rows) → Job Record Rows
  recorded_job : ∀ tree base, recorded (job tree base).record = inputs tree

/-- The rows that a build ends with. -/
def Project.rows {Tree Inputs Record Rows : Type} (x : Project Tree Inputs Record Rows)
    (job : Job Record Rows) : Rows :=
  job.writes.foldl (fun rows write ↦ write rows) (job.base.getD x.empty)

/-- A snapshot on disk: its number, the job that it is of, its rows and its manifest. -/
structure SnapshotDir (Byte Record Rows : Type) where
  ino : ℕ
  /-- The job of the build that made the directory. -/
  job : Job Record Rows
  /-- `data.mdb`, which may be no database yet. -/
  data : Option (Option Rows)
  /-- `manifest.json` -/
  manifest : Option (List Byte)

/-- The graph directory. Of `CURRENT` and `CURRENT.tmp` it is known which id they have, if they have
one. -/
structure Disk (Byte Inputs Record Rows : Type) where
  present : Bool
  /-- The number of `BUILD.lock`. -/
  lock : Option ℕ
  current : Option (Option (GraphId Inputs))
  tmp : Option (Option (GraphId Inputs))
  snapshots : AList fun _ : GraphId Inputs ↦ SnapshotDir Byte Record Rows
  /-- The numbers given so far. -/
  made : ℕ

/-- Nothing has been built. -/
def Disk.empty {Byte Inputs Record Rows : Type} : Disk Byte Inputs Record Rows where
  present := false
  lock := none
  current := none
  tmp := none
  snapshots := ∅
  made := 0

/-! ### Calls -/

/-- What a builder asks of the disk. -/
inductive Call (Byte Inputs Record Rows : Type)
  | ensureDirs
  | openLock
  | lock (ino : ℕ)
  /-- Something that is asked of the workspace or of rust-analyzer, and may fail. -/
  | workspace (what : String)
  | currentExists
  | readCurrent
  | manifestExists (id : GraphId Inputs)
  | readManifest (id : GraphId Inputs)
  | dataExists (id : GraphId Inputs)
  | snapshotExists (id : GraphId Inputs)
  | freshId
  | openEnv (id : GraphId Inputs)
  | createDir (id : GraphId Inputs) (job : Job Record Rows)
  | copyToPath (id : GraphId Inputs) (rows : Rows)
  | openStaged (id : GraphId Inputs)
  | writeCrate (id : GraphId Inputs) (env : ℕ) (write : Rows → Rows)
  | writeManifest (id : GraphId Inputs) (bytes : List Byte)
  | writeTmp (id : GraphId Inputs)
  | renameTmp
  | listSnapshots
  | removeDir (id : GraphId Inputs)

/-- What it is answered. -/
@[reducible] def Call.Ret {Byte Inputs Record Rows : Type} : Call Byte Inputs Record Rows → Type
  | openLock | openStaged _ => ℕ
  | currentExists | manifestExists _ | dataExists _ | snapshotExists _ => Bool
  | readCurrent => Option (GraphId Inputs)
  | readManifest _ => List Byte
  | freshId => GraphId Inputs
  | openEnv _ => Rows
  | listSnapshots => List (GraphId Inputs)
  | _ => Unit

variable {Tree Inputs Record Rows Byte : Type} [DecidableEq Inputs]

namespace Disk

variable (d : Disk Byte Inputs Record Rows)

/-- Change a snapshot, if it is there. -/
def modify (id : GraphId Inputs) (f : SnapshotDir Byte Record Rows → SnapshotDir Byte Record Rows) :
    Disk Byte Inputs Record Rows :=
  match d.snapshots.lookup id with
  | some dir => { d with snapshots := d.snapshots.insert id (f dir) }
  | none => d

/-- The calls, when nothing fails. -/
def answer (x : Project Tree Inputs Record Rows) :
    Effect.Handler String (@Call.Ret Byte Inputs Record Rows) (Disk Byte Inputs Record Rows)
  | .ensureDirs, d => (.ok (), { d with present := true })
  | .openLock, d =>
    if d.present then
      match d.lock with
      | some ino => (.ok ino, d)
      | none => (.ok d.made, { d with lock := some d.made, made := d.made + 1 })
    else (.error "No such file or directory", d)
  | .lock _, d => (.ok (), d)
  | .workspace _, d => (.ok (), d)
  | .currentExists, d => (.ok d.current.isSome, d)
  | .readCurrent, d =>
    match d.current with
    | some id => (.ok id, d)
    | none => (.error "No such file or directory", d)
  | .manifestExists id, d => (.ok ((d.snapshots.lookup id).any fun dir ↦ dir.manifest.isSome), d)
  | .readManifest id, d =>
    match (d.snapshots.lookup id).bind SnapshotDir.manifest with
    | some bytes => (.ok bytes, d)
    | none => (.error "No such file or directory", d)
  | .dataExists id, d => (.ok ((d.snapshots.lookup id).any fun dir ↦ dir.data.isSome), d)
  | .snapshotExists id, d => (.ok (d.snapshots.lookup id).isSome, d)
  | .freshId, d => (.ok (.fresh d.made), { d with made := d.made + 1 })
  | .openEnv id, d =>
    match (d.snapshots.lookup id).bind SnapshotDir.data with
    | some (some rows) => (.ok rows, d)
    | _ => (.error "snapshot exists but databases not initialized", d)
  | .createDir id job, d =>
    if d.present && (d.snapshots.lookup id).isNone then
      (.ok (), { d with
        snapshots := d.snapshots.insert id ⟨d.made, job, none, none⟩
        made := d.made + 1 })
    else (.error "File exists", d)
  | .copyToPath id rows, d =>
    if (d.snapshots.lookup id).isSome then
      (.ok (), d.modify id fun dir ↦ { dir with data := some (some rows) })
    else (.error "No such file or directory", d)
  | .openStaged id, d =>
    match d.snapshots.lookup id with
    | some dir =>
      (.ok dir.ino, d.modify id fun dir ↦ { dir with data := dir.data.or (some (some x.empty)) })
    | none => (.error "No such file or directory", d)
  | .writeCrate id env write, d =>
    -- A directory that was removed meanwhile takes the rows with it.
    (.ok (), d.modify id fun dir ↦
      if dir.ino = env then { dir with data := dir.data.map fun rows ↦ rows.map write } else dir)
  | .writeManifest id bytes, d =>
    if (d.snapshots.lookup id).isSome then
      (.ok (), d.modify id fun dir ↦ { dir with manifest := some bytes })
    else (.error "No such file or directory", d)
  | .writeTmp id, d =>
    if d.present then (.ok (), { d with tmp := some (some id) })
    else (.error "No such file or directory", d)
  | .renameTmp, d =>
    match d.tmp with
    | some id => (.ok (), { d with current := some id, tmp := none })
    | none => (.error "No such file or directory", d)
  | .listSnapshots, d =>
    if d.present then (.ok d.snapshots.keys, d) else (.error "No such file or directory", d)
  | .removeDir id, d =>
    if (d.snapshots.lookup id).isSome then (.ok (), { d with snapshots := d.snapshots.erase id })
    else (.error "No such file or directory", d)

/-- How far a call got that failed, or was cut off. -/
structure Cut where
  started : Bool
  /-- The bytes that were written. -/
  length : ℕ
  /-- The files of a directory that were removed. -/
  data : Bool
  manifest : Bool

/-- What such a call leaves behind: an id or a manifest that is written in part, a copy that is no
database, a directory of which some files are gone. -/
def cut (c : Cut) : Call Byte Inputs Record Rows → Disk Byte Inputs Record Rows
  | .copyToPath id _ => if c.started then d.modify id fun dir ↦
    { dir with data := some none } else d
  | .openStaged id =>
    if c.started then d.modify id fun dir ↦ { dir with data := dir.data.or (some none) } else d
  | .writeManifest id bytes =>
    if c.started then d.modify id fun dir ↦
    { dir with manifest := some (bytes.take c.length) } else d
  | .writeTmp _ => if c.started then { d with tmp := some none } else d
  | .removeDir id =>
    d.modify id fun dir ↦ { dir with
      data := if c.data then none else dir.data
      manifest := if c.manifest then none else dir.manifest }
  | _ => d

end Disk

/-- What may come of a call, when calls may fail and when they do not. -/
def outcomes (x : Project Tree Inputs Record Rows) (faulty : Bool) :
    Effect.Outcomes String (@Call.Ret Byte Inputs Record Rows) (Disk Byte Inputs Record Rows) :=
  fun o d r d' ↦ Disk.answer x o d = (r, d') ∨
    faulty = true ∧ ∃ e c, r = .error e ∧ d' = d.cut c o

/-! ### Builds -/

/-- A program over the calls. -/
abbrev GraphProg (Byte Inputs Record Rows α : Type) : Type :=
  Effect.Prog String (Call Byte Inputs Record Rows) Call.Ret α

open Effect (Prog)

/-- Make a call. -/
abbrev call (o : Call Byte Inputs Record Rows) : GraphProg Byte Inputs Record Rows o.Ret :=
  Prog.perform o

/-- A build that is asked for. -/
structure Attempt (Tree Inputs : Type) where
  tree : Tree
  forceRebuild : Bool
  /-- The snapshots that this process has open. -/
  isOpen : GraphId Inputs → Bool

/-- The id of the snapshot, and whether it was reused. -/
structure BuildResult (Inputs : Type) where
  graphId : GraphId Inputs
  reused : Bool
  deriving DecidableEq

section Programs

variable (x : Project Tree Inputs Record Rows) (format : ManifestFormat Byte Inputs Record)

/-- Read a manifest from its bytes. -/
def parseManifest (bytes : List Byte) :
    GraphProg Byte Inputs Record Rows (GraphManifest Inputs Record) :=
  match format.read bytes with
  | .ok manifest => return manifest
  | .error e => .fail ("failed to parse manifest: " ++ e)

/-- The manifest of a snapshot. -/
def readManifest (id : GraphId Inputs) :
    GraphProg Byte Inputs Record Rows (GraphManifest Inputs Record) := do
  let bytes ← call (.readManifest id)
  let manifest ← parseManifest format bytes
  if manifest.schemaVersion ≠ SCHEMA_VERSION then
    .fail s!"manifest schema_version {manifest.schemaVersion} does not match current {SCHEMA_VERSION}"
  else return manifest

/-- The manifest, if it is of the present version. -/
def readManifestCompatible (id : GraphId Inputs) :
    GraphProg Byte Inputs Record Rows (Option (GraphManifest Inputs Record)) := do
  let bytes ← call (.readManifest id)
  let manifest ← parseManifest format bytes
  return if manifest.schemaVersion ≠ SCHEMA_VERSION then none else some manifest

/-- `reuse_identity`: the published snapshot rather than that under the id of the inputs. -/
def reuseIdentity (inputs : Inputs) : GraphProg Byte Inputs Record Rows (GraphId Inputs) := do
  match ← Prog.attempt (call .readCurrent) with
  | .ok (some id) =>
    if ← call (.manifestExists id) then
      let manifest ← readManifestCompatible format id
      return if manifest.any fun manifest ↦
      x.recorded manifest.record = inputs then id else .of inputs
    else return .of inputs
  | _ => return .of inputs

/-- `try_reuse_existing_snapshot` -/
def tryReuseExistingSnapshot (id : GraphId Inputs) :
    GraphProg Byte Inputs Record Rows (Option (BuildResult Inputs)) := do
  if ← call (.manifestExists id) then
    let manifest ← readManifest format id
    if ← call (.dataExists id) then return some ⟨manifest.graphId, true⟩ else return none
  else return none

/-- The rows of a snapshot, with its manifest. -/
def openSpecific (id : GraphId Inputs) :
    GraphProg Byte Inputs Record Rows (Option (GraphManifest Inputs Record × Rows)) := do
  if ← call (.manifestExists id) then
    match ← readManifestCompatible format id with
    | none => return none
    | some manifest =>
      if ← call (.dataExists id) then
        let rows ← call (.openEnv id)
        return some (manifest, rows)
      else .fail "snapshot manifest exists but data.mdb missing"
  else return none

/-- Those of the published one. -/
def openCurrent : GraphProg Byte Inputs Record Rows
    (Option (GraphManifest Inputs Record × Rows)) := do
  if ← call .currentExists then
    match ← call .readCurrent with
    | none => return none
    | some id => openSpecific format id
  else return none

/-- `publish_current`: a file beside it, which is renamed. -/
def publishCurrent (id : GraphId Inputs) : GraphProg Byte Inputs Record Rows Unit := do
  call (.writeTmp id)
  call .renameTmp

/-- `publish_current_if_changed` -/
def publishCurrentIfChanged (id : GraphId Inputs) : GraphProg Byte Inputs Record Rows Unit := do
  match ← Prog.attempt (call .readCurrent) with
  | .ok (some current) => if current = id then return () else publishCurrent id
  | _ => publishCurrent id

/-- `prune_superseded_snapshots` -/
def pruneSupersededSnapshots (isOpen : GraphId Inputs → Bool) (keep : GraphId Inputs) :
    GraphProg Byte Inputs Record Rows Unit := do
  match ← Prog.attempt (call .listSnapshots) with
  | .error _ => return ()
  | .ok entries =>
    Prog.forEach (fun id ↦
      if id = keep || isOpen id then return ()
      else do
        let _ ← Prog.attempt (call (.removeDir id))
        return ()) entries

/-- The plan of a build that is to be staged under that id. -/
def planJob (e : Attempt Tree Inputs) (id : GraphId Inputs) :
    GraphProg Byte Inputs Record Rows (Job Record Rows) := do
  if e.forceRebuild then return x.job e.tree none
  else
    match ← (openCurrent format).attempt with
    | .ok (some (manifest, rows)) =>
      if manifest.graphId = id then return x.job e.tree none
      else
        call (.workspace "plan_build")
        return x.job e.tree (some (manifest.record, rows))
    | .ok none =>
      call (.workspace "plan_build")
      return x.job e.tree none
    | .error _ => return x.job e.tree none

/-- The base is copied, or all groups are to be written. -/
def startSnapshot (id : GraphId Inputs) : Option Rows → GraphProg Byte Inputs Record Rows Unit
  | some rows => call (.copyToPath id rows)
  | none => call (.workspace "crate_groups")

/-- What is written into a staged snapshot, up to its publication. -/
def fillSnapshot (id : GraphId Inputs) (job : Job Record Rows) :
    GraphProg Byte Inputs Record Rows Unit := do
  startSnapshot id job.base
  let env ← call (.openStaged id)
  Prog.forEach (fun write ↦ do
    call (.workspace "extract")
    call (.writeCrate id env write)) job.writes
  call (.workspace "validate")
  call (.writeManifest id (format.write ⟨id, SCHEMA_VERSION, job.record⟩))
  publishCurrent id

/-- A snapshot that is not published is removed again: `StagedSnapshot`. -/
def stageSnapshot (id : GraphId Inputs) (job : Job Record Rows) :
    GraphProg Byte Inputs Record Rows Unit := do
  call (.createDir id job)
  match ← (fillSnapshot format id job).attempt with
  | .ok () => return ()
  | .error e => do
    let _ ← Prog.attempt (call (.removeDir id))
    .fail e

/-- `build_attempt` when there is nothing to reuse. -/
def buildSnapshot (e : Attempt Tree Inputs) :
    GraphProg Byte Inputs Record Rows (BuildResult Inputs) := do
  call (.workspace "load")
  call (.workspace "validate")
  let id ← if ← call (.snapshotExists (.of (x.inputs e.tree))) then call .freshId
    else pure (.of (x.inputs e.tree))
  let job ← planJob x format e id
  stageSnapshot format id job
  pruneSupersededSnapshots e.isOpen id
  return ⟨id, false⟩

/-- `build_attempt` once it has the lock. -/
def underLock (e : Attempt Tree Inputs) :
    GraphProg Byte Inputs Record Rows (BuildResult Inputs) := do
  call (.workspace "slice")
  if e.forceRebuild then buildSnapshot x format e
  else
    let id ← reuseIdentity x format (x.inputs e.tree)
    match ← tryReuseExistingSnapshot format id with
    | some result =>
      call (.workspace "validate")
      publishCurrentIfChanged id
      return result
    | none => buildSnapshot x format e

/-- `build_attempt`: the directories, the lock file, the lock, and what follows under it. -/
def buildAttempt (e : Attempt Tree Inputs) :
    GraphProg Byte Inputs Record Rows (BuildResult Inputs) := do
  call .ensureDirs
  let ino ← call .openLock
  call (.lock ino)
  underLock x format e

end Programs

end RustCodeMcp.Graph
