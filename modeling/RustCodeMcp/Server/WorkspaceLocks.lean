import RustCodeMcp.Machine.Locks
import RustCodeMcp.Machine.Runs

/-!
# The locks of the workspaces

Every guard is a few locks, taken one after another by the constructor of the guard: the global
lock, the registry for as long as it takes to look the workspace up, and then the workspace's own. A
task here is at a point between two of these steps, and says at each what it holds (in the order its
guard lets it go) and what it waits for.

A workspace is its canonical directory, and its locks are named by its slot: the position in the
registry, which makes an entry the first time a workspace is asked for and keeps it. A waiting task
may be cancelled; it leaves the queue and lets go of what it holds.

That the guards exclude what they must, and that somebody who waits gets on in the end, is proved in
`RustCodeMcp.Server.LockRuns`, over every run of the machine defined here.
-/

namespace RustCodeMcp.WorkspaceLocks

open Locks

/-- The locks of the process, those of a workspace by its slot. -/
inductive Lock
  | global
  | registry
  | graphCache (slot : ℕ)
  | maintenance (slot : ℕ)
  | operation (slot : ℕ)
  deriving DecidableEq

/-- A workspace and its slot. -/
structure Place (K : Type) where
  workspace : K
  slot : ℕ

/-- The constructors that take the locks of one workspace. -/
inductive Kind
  /-- `lock_shared` -/
  | shared
  /-- `lock_graph_cache_writer` -/
  | graphCache
  /-- `lock_index_writer` -/
  | index
  /-- `lock_store_writer` -/
  | store

/-- What a constructor gives. -/
inductive Guard (K : Type)
  | read (p : Place K)
  | graphCacheWriter (p : Place K)
  | graphCacheReadingIndex (p : Place K)
  | indexWriter (p : Place K)
  | storeWriter (p : Place K)
  | maintenance (p : Place K)
  | all

variable {K : Type}

/-- The locks of a guard, in the order in which its fields are dropped. -/
def Guard.locks : Guard K → List (Lock × Mode)
  | read p => [(.global, .shared), (.operation p.slot, .shared)]
  | graphCacheWriter p => [(.global, .shared), (.graphCache p.slot, .exclusive)]
  | graphCacheReadingIndex p =>
    [(.global, .shared), (.graphCache p.slot, .exclusive), (.operation p.slot, .shared)]
  | indexWriter p =>
    [(.global, .shared), (.operation p.slot, .exclusive), (.maintenance p.slot, .exclusive)]
  | storeWriter p | maintenance p => [(.global, .shared), (.maintenance p.slot, .exclusive)]
  | all => [(.global, .exclusive)]

/-- The first lock of its workspace that a constructor takes. -/
def Kind.first (slot : ℕ) : Kind → Lock × Mode
  | shared => (.operation slot, .shared)
  | graphCache => (.graphCache slot, .exclusive)
  | index | store => (.maintenance slot, .exclusive)

/-- Where a task is. -/
inductive Stage (K : Type)
  | idle
  | waitsGlobal (kind : Kind) (key : K)
  | hasGlobal (kind : Kind) (key : K)
  | waitsRegistry (kind : Kind) (key : K)
  | inRegistry (kind : Kind) (key : K)
  | hasSlot (kind : Kind) (p : Place K)
  | waitsFirst (kind : Kind) (p : Place K)
  /-- In `lock_index_writer`, between its two locks. -/
  | hasMaintenance (p : Place K)
  | waitsOperation (p : Place K)
  | holds (guard : Guard K)
  /-- A graph cache writer in `read_index`. -/
  | waitsIndexRead (p : Place K)
  /-- A store writer about to publish. -/
  | waitsPublish (p : Place K)
  | publishing (p : Place K)
  | waitsAll
  /-- Lets these go, one after another. -/
  | dropping (rest : List (Lock × Mode))

namespace Stage

/-- The locks that a stage has, and how. -/
def held : Stage K → List (Lock × Mode)
  | idle | waitsGlobal _ _ | waitsAll => []
  | hasGlobal _ _ | waitsRegistry _ _ | hasSlot _ _ | waitsFirst _ _ => [(.global, .shared)]
  | inRegistry _ _ => [(.registry, .exclusive), (.global, .shared)]
  | hasMaintenance p | waitsOperation p => [(.maintenance p.slot, .exclusive), (.global, .shared)]
  | holds guard => guard.locks
  | waitsIndexRead p => (Guard.graphCacheWriter p).locks
  | waitsPublish p => (Guard.storeWriter p).locks
  | publishing p => (.operation p.slot, .exclusive) :: (Guard.storeWriter p).locks
  | dropping rest => rest

/-- The lock that a stage waits for. -/
def wants : Stage K → Option (Lock × Mode)
  | waitsGlobal _ _ => some (.global, .shared)
  | waitsRegistry _ _ => some (.registry, .exclusive)
  | waitsFirst kind p => some (kind.first p.slot)
  | waitsOperation p | waitsPublish p => some (.operation p.slot, .exclusive)
  | waitsIndexRead p => some (.operation p.slot, .shared)
  | waitsAll => some (.global, .exclusive)
  | _ => none

/-- Where a task is once it has what it waited for. -/
def granted : Stage K → Option (Stage K)
  | waitsGlobal kind key => some (hasGlobal kind key)
  | waitsRegistry kind key => some (inRegistry kind key)
  | waitsFirst .shared p => some (holds (.read p))
  | waitsFirst .graphCache p => some (holds (.graphCacheWriter p))
  | waitsFirst .index p => some (hasMaintenance p)
  | waitsFirst .store p => some (holds (.storeWriter p))
  | waitsOperation p => some (holds (.indexWriter p))
  | waitsIndexRead p => some (holds (.graphCacheReadingIndex p))
  | waitsPublish p => some (publishing p)
  | waitsAll => some (holds .all)
  | _ => none

/-- The next lock a constructor asks for. -/
def next : Stage K → Option (Stage K)
  | hasGlobal kind key => some (waitsRegistry kind key)
  | hasSlot kind p => some (waitsFirst kind p)
  | hasMaintenance p => some (waitsOperation p)
  | _ => none

/-- The guard a task holds; taking another lock on the strength of one keeps it. -/
def guard : Stage K → Option (Guard K)
  | holds guard => some guard
  | waitsIndexRead p => some (.graphCacheWriter p)
  | waitsPublish p | publishing p => some (.storeWriter p)
  | _ => none

/-- The task as a party of the table. -/
def party (a : Stage K) : Party Lock :=
  { held := a.held, wants := a.wants }

end Stage

/-- The tasks, the queues of the locks and the slots. -/
structure State (K : Type) where
  /-- The workspaces of the registry, by slot. -/
  slots : List K
  tasks : List (Stage K)
  /-- Who waits for a lock, in the order they came. -/
  queue : Lock → List ℕ

namespace State

/-- The table of locks that the tasks make up. -/
def table (s : State K) : Table Lock :=
  { parties := s.tasks.map Stage.party, queue := s.queue }

variable [DecidableEq K]

/-- The slot of `key`, made if the workspace has none yet. -/
def slotFor (slots : List K) (key : K) : List K × ℕ :=
  if key ∈ slots then (slots, slots.idxOf key) else (slots ++ [key], slots.length)

/-- The task goes on, waiting for nothing. -/
def put (s : State K) (t : ℕ) (a : Stage K) : State K :=
  { s with tasks := s.tasks.set t a }

/-- The task goes on to wait in the queue of a lock. -/
def join (s : State K) (t : ℕ) (a : Stage K) (l : Lock) : State K :=
  { s with tasks := s.tasks.set t a, queue := Function.update s.queue l (s.queue l ++ [t]) }

/-- The task goes on, out of the queue of a lock. -/
def leave (s : State K) (t : ℕ) (a : Stage K) (l : Lock) : State K :=
  { s with tasks := s.tasks.set t a, queue := Function.update s.queue l ((s.queue l).erase t) }

/-- What happens next. The number is that of the task it happens to. -/
inductive Event (K : Type)
  | spawn
  /-- A task calls the constructor of a guard. -/
  | lock (t : ℕ) (kind : Kind) (key : K)
  | lockAll (t : ℕ)
  /-- A constructor asks for its next lock. -/
  | next (t : ℕ)
  | lookUp (t : ℕ)
  | grant (t : ℕ)
  | readIndex (t : ℕ)
  | publish (t : ℕ)
  | published (t : ℕ)
  | intoMaintenance (t : ℕ)
  | release (t : ℕ)
  /-- The first of the locks to let go is let go. -/
  | drop (t : ℕ)
  | cancel (t : ℕ)

/-- One step of a task. -/
def step (s : State K) : Event K → Option (State K)
  | .spawn => some { s with tasks := s.tasks ++ [.idle] }
  | .lock t kind key =>
    match s.tasks[t]? with
    | some .idle => some (s.join t (.waitsGlobal kind key) .global)
    | _ => none
  | .lockAll t =>
    match s.tasks[t]? with
    | some .idle => some (s.join t .waitsAll .global)
    | _ => none
  | .next t => s.tasks[t]?.bind fun a ↦ a.next.bind fun a' ↦ a'.wants.map fun (l, _) ↦ s.join t a' l
  | .lookUp t =>
    match s.tasks[t]? with
    | some (.inRegistry kind key) =>
      let (slots, slot) := slotFor s.slots key
      some { s.put t (.hasSlot kind { workspace := key, slot }) with slots }
    | _ => none
  | .grant t => s.tasks[t]?.bind fun a ↦ a.wants.bind fun (l, m) ↦
      if s.table.grantable t l m then a.granted.map fun a' ↦ s.leave t a' l else none
  | .readIndex t =>
    match s.tasks[t]? with
    | some (.holds (.graphCacheWriter p)) => some (s.join t (.waitsIndexRead p) (.operation p.slot))
    | _ => none
  | .publish t =>
    match s.tasks[t]? with
    | some (.holds (.storeWriter p)) => some (s.join t (.waitsPublish p) (.operation p.slot))
    | _ => none
  | .published t =>
    match s.tasks[t]? with
    | some (.publishing p) => some (s.put t (.holds (.storeWriter p)))
    | _ => none
  | .intoMaintenance t =>
    match s.tasks[t]? with
    | some (.holds (.indexWriter p)) | some (.holds (.storeWriter p)) =>
      some (s.put t (.holds (.maintenance p)))
    | _ => none
  | .release t =>
    match s.tasks[t]? with
    | some (.holds guard) => some (s.put t (.dropping guard.locks))
    | _ => none
  | .drop t =>
    match s.tasks[t]? with
    | some (.dropping (_ :: rest)) =>
    some (s.put t (if rest.isEmpty then .idle else .dropping rest))
    | _ => none
  | .cancel t => s.tasks[t]?.bind fun a ↦ a.wants.map fun (l, _) ↦
      s.leave t (if a.held.isEmpty then .idle else .dropping a.held) l

end State

/-- The locks of a process, from its start. -/
def machine (K : Type) [DecidableEq K] : Machine (State K) (State.Event K) where
  start := { slots := [], tasks := [], queue := fun _ ↦ [] }
  step := State.step

end RustCodeMcp.WorkspaceLocks
