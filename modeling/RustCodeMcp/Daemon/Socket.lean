import RustCodeMcp.Machine.Runs

/-!
# The socket of the daemon

Clients find the daemon by the file at a path. Who finds nobody there takes the spawn lock, tries
again, clears away the file that nobody answers at, and starts a daemon, which it waits for with the
lock in hand. The daemon binds the path by itself, some time later, and takes no lock; it unlinks
the path when it retires or exits.

The steps are system calls: one of a client or of a daemon at a time, in any order. A process may
die at any of them. The lock of one that dies is free, and its file stays where it is.

Three things are shared: the file at the path, the lock next to it, and the list of those who run.
**A file is no daemon.** It stays when its daemon dies, keeps others from binding the path, and is
unlinked by a client to whom nobody answered, so what is at the path is the file of a daemon, alive
or not. Whether somebody answers there is decided by the daemon the file belongs to, and only then
(`State.answers`).

Nothing is said here of what holds over runs; that is left to the module on one daemon.
-/

namespace RustCodeMcp.Socket

/-- Where a daemon process is. -/
inductive Daemon
  /-- Spawned, not at `bind` yet. -/
  | starting
  /-- Its file is there, and nobody answers on it yet. -/
  | bound
  | serving
  /-- Out of the serving loop without having retired: about to unlink its file. -/
  | closing
  /-- Its file is unlinked, on retirement or on the way out. It still answers those it has. -/
  | unlinked
  | gone
  deriving DecidableEq

/-- Where a client is in `connect_or_spawn`. -/
inductive Client
  /-- About to connect without the lock. -/
  | started
  | waiting
  /-- Holds the lock, about to connect again. -/
  | locked
  /-- Nobody answered. -/
  | unanswered
  /-- There is a socket at the path, to be removed. -/
  | clearing
  /-- About to spawn a daemon. -/
  | spawning
  /-- In `wait_for_daemon`. -/
  | polling (child : ℕ)
  /-- Returned, with a connection or without, or killed. -/
  | done

/-- The clients, the daemons, who has the lock, and whose file is at the path. -/
structure State where
  /-- The daemon whose file is at the path. -/
  file : Option ℕ
  /-- The client that holds the spawn lock. -/
  lock : Option ℕ
  daemons : List Daemon
  clients : List Client

namespace State

variable (s : State)

/-- Whether connecting succeeds: the daemon whose file is at the path listens on it. -/
def answers : Bool :=
  (s.file.bind fun d ↦ s.daemons[d]?).any fun
    | .serving | .closing => true
    | _ => false

/-- The client at `c` goes on as `a`. -/
def putClient (c : ℕ) (a : Client) : State :=
  { s with clients := s.clients.set c a }

/-- The daemon at `d` goes on as `a`. -/
def putDaemon (d : ℕ) (a : Daemon) : State :=
  { s with daemons := s.daemons.set d a }

/-- The client at `c` ends, and its lock with it. -/
def finish (c : ℕ) : State :=
  { s with clients := s.clients.set c .done, lock := if s.lock = some c then none else s.lock }

/-- What happens next, to the client or daemon of that number. -/
inductive Event
  | newClient
  | connect (c : ℕ)
  | acquire (c : ℕ)
  /-- Connect again, under the lock. -/
  | recheck (c : ℕ)
  /-- `symlink_metadata` -/
  | look (c : ℕ)
  /-- `remove_file` -/
  | clear (c : ℕ)
  /-- `spawn_daemon`; `ok` when it succeeds. -/
  | spawn (c : ℕ) (ok : Bool)
  | poll (c : ℕ)
  /-- The wait is over: the child is killed. -/
  | deadline (c : ℕ)
  /-- The client is killed, or returns because a call failed that is not a step of its own here. -/
  | abandon (c : ℕ)
  /-- The daemon binds the path, or exits because there is a file. -/
  | bind (d : ℕ)
  | listen (d : ℕ)
  /-- The daemon retires: it unlinks the path. -/
  | retire (d : ℕ)
  /-- The daemon leaves its serving loop: idle, told to, or unable to accept. -/
  | close (d : ℕ)
  /-- The unlinking on the way out. -/
  | unlink (d : ℕ)
  /-- The process ends, wherever it is. -/
  | exit (d : ℕ)

/-- One system call of a client or of a daemon; none if it is not its turn. -/
def step : Event → Option State
  | .newClient => some { s with clients := s.clients ++ [.started] }
  | .connect c =>
    match s.clients[c]? with
    | some .started => some (s.putClient c (if s.answers then .done else .waiting))
    | _ => none
  | .acquire c =>
    match s.clients[c]?, s.lock with
    | some .waiting, none => some { s.putClient c .locked with lock := some c }
    | _, _ => none
  | .recheck c =>
    match s.clients[c]? with
    | some .locked => some (if s.answers then s.finish c else s.putClient c .unanswered)
    | _ => none
  | .look c =>
    match s.clients[c]? with
    | some .unanswered => some (s.putClient c (if s.file.isSome then .clearing else .spawning))
    | _ => none
  | .clear c =>
    match s.clients[c]? with
    | some .clearing =>
      some (if s.file.isSome then { s.putClient c .spawning with file := none } else s.finish c)
    | _ => none
  | .spawn c ok =>
    match s.clients[c]? with
    | some .spawning => some (if ok then { s.putClient c (.polling s.daemons.length) with
        daemons := s.daemons ++ [.starting] } else s.finish c)
    | _ => none
  | .poll c =>
    match s.clients[c]? with
    | some (.polling child) =>
      some (if s.answers || s.daemons[child]? = some .gone then s.finish c else s)
    | _ => none
  | .deadline c =>
    match s.clients[c]? with
    | some (.polling child) => some ((s.putDaemon child .gone).finish c)
    | _ => none
  | .abandon c =>
    match s.clients[c]? with
    | some .done | none => none
    | _ => some (s.finish c)
  | .bind d =>
    match s.daemons[d]? with
    | some .starting =>
      some (if s.file.isSome then s.putDaemon d .gone
        else { s.putDaemon d .bound with file := some d })
    | _ => none
  | .listen d =>
    match s.daemons[d]? with
    | some .bound => some (s.putDaemon d .serving)
    | _ => none
  | .retire d =>
    match s.daemons[d]? with
    | some .serving => some { s.putDaemon d .unlinked with file := none }
    | _ => none
  | .close d =>
    match s.daemons[d]? with
    | some .serving => some (s.putDaemon d .closing)
    | _ => none
  | .unlink d =>
    match s.daemons[d]? with
    | some .closing => some { s.putDaemon d .unlinked with file := none }
    | _ => none
  | .exit d =>
    match s.daemons[d]? with
    | some .gone | none => none
    | _ => some (s.putDaemon d .gone)

end State

/-- Nobody at first, and nothing at the path. -/
def machine : Machine State State.Event where
  start := { file := none, lock := none, daemons := [], clients := [] }
  step := State.step

end RustCodeMcp.Socket
