import RustCodeMcp.Daemon.Conversation
import RustCodeMcp.Machine.Runs

/-!
# The relay

One session between its host and a daemon, which moves to another daemon when the connection is
lost, and between requests when the daemon was superseded. A step is one turn of the loop: which
branch of the `select!` is ready, and what becomes of the dials and writes of that turn, is in the
event.

The state keeps, beside what the relay has, what has gone over every connection and what the host
has sent and been told. Reading from the host and writing to it do not fail here.

**The `select!` is an event.** Which of its branches are ready, whether a write goes through, how
many lines of a replay a new connection takes before it fails: all of this is given with the event,
and the relay answers with its next state. So a run is a list of events, and a statement about all
runs is one about all schedules and all failures.

What is kept for the sake of statements alone is never looked at by a step: the lines that every
connection was sent and has sent, and the history of the host.
-/

namespace RustCodeMcp.Relay

variable {Line Value : Type*} [DecidableEq Value]

/-- The id of a line that is a request. -/
def requestId (json : Json Line Value) (line : Line) : Option Value :=
  match classify json line with
  | .request id _ _ => some id
  | _ => none

/-- The id of a line that is an answer. -/
def responseId (json : Json Line Value) (line : Line) : Option Value :=
  match classify json line with
  | .response id => some id
  | _ => none

/-- The ids of the requests among the lines. -/
def requests (json : Json Line Value) (lines : List Line) : List Value :=
  lines.filterMap (requestId json)

/-- A connection, and what has gone over it. -/
structure Wire (Line Value : Type*) where
  /-- Its number among the connections. -/
  no : ℕ
  /-- The lines that could be written to it. -/
  written : List Line
  /-- The ids its daemon has answered. -/
  answered : List Value
  /-- A write to it has failed. -/
  broken : Bool
  /-- What the host had sent before it, and been told. -/
  before : List Line
  told : List (Told Line Value)

/-- The requests it was sent and has not answered. -/
def Wire.owes (json : Json Line Value) (wire : Wire Line Value) (id : Value) : Prop :=
  wire.answered.count id < (requests json wire.written).count id

instance (json : Json Line Value) (wire : Wire Line Value) (id : Value) :
    Decidable (wire.owes json id) :=
  inferInstanceAs (Decidable (_ < _))

/-- What `relay` returns. -/
inductive Verdict
  /-- `Ok(true)` -/
  | served
  /-- `Ok(false)`: nothing was exchanged. -/
  | unserved
  /-- An error: daemons were lost. -/
  | lost
  /-- An error: the daemon did not close in time after the last answer. -/
  | undrained
  deriving DecidableEq

/-- The relay, its connection, and what has gone over all of them. -/
structure State (Line Value : Type*) where
  conversation : Conversation Line Value
  wire : Wire Line Value
  delivered : Bool
  halfClosed : Bool
  inputOpen : Bool
  /-- `drain_until` is set. -/
  draining : Bool
  quickLosses : ℕ
  verdict : Option Verdict
  /-- The connections that are not in use any more, or never were. -/
  left : List (Wire Line Value)
  /-- What the host has sent, and what it has been told. -/
  read : List Line
  told : List (Told Line Value)

/-- How a connection was lost. -/
inductive Loss
  | closed
  | closedMidMessage
  | failed (error : String)
  | writing (error : String)

/-- What the host is told about it. -/
def Loss.reason : Loss → String
  | closed => "the daemon closed the connection"
  | closedMidMessage => "the daemon closed the connection mid-message"
  | failed error => "the daemon connection failed: " ++ error
  | writing error => "writing to the daemon failed: " ++ error

/-- What becomes of a dial: nobody, or a connection that takes so many lines of what is written to
it first. -/
abbrev Dial :=
  Option ℕ

/-- What happens next. -/
inductive Event (Line : Type*)
  /-- The end of the host's input. -/
  | hostClosed
  /-- A line of the host. Writing it to the daemon may fail; the dial is for that case. -/
  | hostLine (line : Line) (failure : Option String) (dial : Dial)
  | daemonLine (line : Line)
  /-- Reading from the daemon finds the connection lost. -/
  | readLost (loss : Loss) (dial : Dial)
  | tick (superseded : Bool) (dial : Dial)
  /-- The time after the half-close is over. -/
  | drained

/-- How many losses in a row are too many. -/
def quickLossesBeforeGivingUp : ℕ := 3

namespace State

variable (json : Json Line Value) (s : State Line Value)

/-- The top of the loop: the end of the input is passed on when nothing is owed. -/
def halfClose : State Line Value :=
  if !s.inputOpen && !s.halfClosed && s.conversation.pending.isEmpty then
    { s with halfClosed := true, draining := true }
  else s

/-- A connection that `lines` are written to, the first `n` of them with success. -/
def dialed (lines : List Line) (n : ℕ) : Wire Line Value where
  no := s.left.length + 1
  written := lines.take n
  answered := []
  broken := n < lines.length
  before := s.read
  told := s.told

/-- Every request that waits is answered by the relay. -/
def abandon (reason : String) : State Line Value :=
  let (answers, conversation) := s.conversation.abandon reason
  { s with conversation, told := s.told ++ answers, verdict := some .lost }

/-- The conversation goes on over a new connection. -/
def reconnect (quickLosses n : ℕ) : State Line Value :=
  let (replay, conversation) := s.conversation.replay
  { s with
    conversation, quickLosses
    told := s.told ++ replay.toHost
    wire := s.dialed replay.toDaemon n
    left := s.left ++ [s.wire]
    delivered := false
    halfClosed := false
    draining := false }

/-- `Turn::Lost` -/
def lost (reason : String) (dial : Dial) : State Line Value :=
  if !s.inputOpen && s.conversation.pending.isEmpty then { s with verdict := some .served }
  else if !s.conversation.consumed then { s with verdict := some .unserved }
  else
    let quickLosses := if s.delivered then 1 else s.quickLosses + 1
    if quickLossesBeforeGivingUp < quickLosses then
      s.abandon ("the rust-code-mcp daemon was lost " ++ toString quickLossesBeforeGivingUp ++
        " times in a row without answering anything (" ++ reason ++ "); giving up")
    else
      match dial with
      | none =>
        s.abandon ("the rust-code-mcp daemon was lost (" ++ reason ++
          ") and no successor could be started")
      | some n => s.reconnect quickLosses n

/-- The new daemon dropped the handshake: the relay stays where it is. -/
def stay (next : Wire Line Value) : State Line Value :=
  { s with
    -- The answer that was to be swallowed is forgotten, whosever it was.
    conversation := { s.conversation.replay.2 with swallow := none }
    left := s.left ++ [next] }

/-- `Turn::MoveTo` -/
def moveTo (next : Wire Line Value) : State Line Value :=
  { s with
    conversation := s.conversation.replay.2
    wire := next
    left := s.left ++ [s.wire]
    delivered := false
    halfClosed := false
    quickLosses := 0 }

/-- The daemon was superseded, and somebody answers the dial. -/
def move (n : ℕ) : State Line Value :=
  let next := s.dialed s.conversation.replay.1.toDaemon n
  if next.broken then s.stay next else s.moveTo next

/-- A line of the daemon. -/
def deliver (line : Line) : State Line Value :=
  let (shown, conversation) := s.conversation.fromDaemon json line
  { s with
    conversation
    delivered := true
    told := if shown then s.told ++ [.relayed line] else s.told
    wire := { s.wire with answered := s.wire.answered ++ (responseId json line).toList } }

/-- A line of the host, not written to the daemon yet. -/
def consume (line : Line) : State Line Value :=
  { s with conversation := s.conversation.fromHost json line, read := s.read ++ [line] }

/-- A line of the host is written to the connection in use. -/
def write (line : Line) : State Line Value :=
  { s with wire := { s.wire with written := s.wire.written ++ [line] } }

/-- The `select!` of a turn, and what follows from it. A daemon answers the requests it was sent,
each once. -/
def turn : Event Line → Option (State Line Value)
  | .hostClosed => if s.inputOpen then some { s with inputOpen := false } else none
  | .hostLine line failure dial =>
    if s.inputOpen then
      match failure with
      | none => some ((s.consume json line).write line)
      | some error => some ((s.consume json line).lost (Loss.writing error).reason dial)
    else none
  | .daemonLine line =>
    if (responseId json line).all fun id ↦ s.wire.owes json id then some (s.deliver json line)
    else none
  | .readLost loss dial => some (s.lost loss.reason dial)
  | .tick superseded dial =>
    if s.inputOpen then
      if s.conversation.pending.isEmpty && superseded then
        some (dial.elim s s.move)
      else some s
    else none
  | .drained => if s.draining then some { s with verdict := some .undrained } else none

/-- One turn of the loop; none once the relay has returned. -/
def step (e : Event Line) : Option (State Line Value) :=
  if s.verdict.isSome then none else s.halfClose.turn json e

end State

/-- The first connection is there, and nothing has been exchanged. -/
def machine (json : Json Line Value) : Machine (State Line Value) (Event Line) where
  start :=
    { conversation := .empty
      wire := { no := 0, written := [], answered := [], broken := false, before := [], told := [] }
      delivered := false
      halfClosed := false
      inputOpen := true
      draining := false
      quickLosses := 0
      verdict := none
      left := []
      read := []
      told := [] }
  step := State.step json

/-! ### What a run is judged by -/

variable (json : Json Line Value)

/-- Whether the host is told the answer to that request. -/
def Told.answers (id : Value) : Told Line Value → Bool
  | relayed line => responseId json line = some id
  | error id' _ _ => id' = id

/-- How often the host has been told the answer to that request. -/
def answers (id : Value) (told : List (Told Line Value)) : ℕ :=
  told.countP (Told.answers json id)

/-- The request that the line cancels. -/
def cancelled (line : Line) : Option Value :=
  match classify json line with
  | .notification "notifications/cancelled" params =>
    params.bind fun params ↦ json.get params "requestId"
  | _ => none

/-- The host has sent the request, and not cancelled it since. -/
def Waits (read : List Line) (id : Value) : Prop :=
  ∃ earlier line later, read = earlier ++ line :: later ∧ requestId json line = some id ∧
    ∀ l ∈ later, cancelled json l ≠ some id

/-- The host's request ids are distinct: the next line of the host has a new one. -/
def State.Distinct (s : State Line Value) (e : Event Line) : Prop :=
  ∀ (line : Line) (failure : Option String) (dial : Dial) (id : Value),
    e = .hostLine line failure dial → requestId json line = some id → id ∉ requests json s.read

end RustCodeMcp.Relay
