import Mathlib.Data.Int.Notation
import Mathlib.Data.List.Basic

/-!
# The conversation of a session

What the relay remembers of a session, so that another daemon can go on with it: the handshake, and
the requests that wait for an answer. The lines pass through unread except for what `classify` looks
at. The JSON reader is a parameter.

**A request is repeated on another daemon unless its tool changes something.** A client cannot tell
a call that was lost before it was carried out from one whose answer was lost, so such calls are
refused, and others are sent a second time and no more (`Pending.refusal`). The handshake comes
first on every connection, and is not among the requests that wait, since the host must see one
answer to it however many daemons have had it.

Nothing here reads or writes; the state of the relay carries a conversation, and takes it from one
connection to the next.
-/

namespace RustCodeMcp.Relay

variable {Line Value : Type*}

/-- What is read of the JSON of a line. -/
structure Json (Line Value : Type*) where
  fromSlice : Line → Option Value
  isObject : Value → Bool
  isNull : Value → Bool
  /-- The member of an object, and `none` for any other value. -/
  get : Value → String → Option Value
  asStr : Value → Option String

/-- One JSON-RPC line, as far as the relay cares. -/
inductive Frame (Value : Type*)
  /-- `tool` is `params.name` of a `tools/call`. -/
  | request (id : Value) (method : String) (tool : Option String)
  | notification (method : String) (params : Option Value)
  | response (id : Value)
  /-- `Opaque`: anything else. -/
  | other
  deriving DecidableEq

/-- What a line is: a request, a notification that matters, an answer, or something to be passed
on. -/
def classify (json : Json Line Value) (line : Line) : Frame Value :=
  match json.fromSlice line with
  | none => .other
  | some map =>
    if json.isObject map then
      let id := (json.get map "id").filter fun id ↦ !json.isNull id
      let method := (json.get map "method").bind json.asStr
      let params := json.get map "params"
      match method, id with
      | some method, some id =>
        .request id method (if method = "tools/call" then
          (params.bind fun params ↦ json.get params "name").bind json.asStr else none)
      | some method, none => .notification method params
      | none, some id => .response id
      | none, none => .other
    else .other

/-- The tools whose call is not repeated on another daemon. -/
def stateChangingTools : List String :=
  ["index_codebase", "clear_cache", "clear_runtime", "build_hypergraph"]

/-- A request the host is still waiting for. -/
structure Pending (Line Value : Type*) where
  id : Value
  line : Line
  /-- The tool, when the request must not be repeated. -/
  stateChanging : Option String
  /-- How many daemons the request has been sent to. -/
  sent : ℕ

/-- The host's `initialize`: its id and its line. -/
structure Handshake (Line Value : Type*) where
  id : Value
  line : Line
  answered : Bool

/-- A line for the host: one of a daemon, or the relay's own answer to a request. -/
inductive Told (Line Value : Type*)
  | relayed (line : Line)
  | error (id : Value) (code : ℤ) (message : String)

/-- The code of the error that stands for a lost daemon. -/
def lostDaemonError : ℤ := -32000

/-- An error of the relay's own, for a request. -/
def errorLine (id : Value) (message : String) : Told Line Value :=
  .error id lostDaemonError message

/-- What is carried over: lines for the new daemon, and answers for those that are not asked
again. -/
structure Replay (Line Value : Type*) where
  toDaemon : List Line
  toHost : List (Told Line Value)

/-- What is remembered of the host's side. -/
structure Conversation (Line Value : Type*) where
  handshake : Option (Handshake Line Value)
  initialized : Option Line
  pending : List (Pending Line Value)
  /-- The id of a replayed `initialize` whose answer the host already has. -/
  swallow : Option Value
  consumed : Bool

variable [DecidableEq Value]

/-- Why the request is not sent to one more daemon. -/
def Pending.refusal (pending : Pending Line Value) : Option String :=
  match pending.stateChanging, pending.sent with
  | some tool, _ =>
    some ("the rust-code-mcp daemon was lost while serving this call, and `" ++ tool ++
      "` changes state, so it was not repeated on the new daemon; check whether it took effect " ++
      "and call it again if needed")
  | none, sent =>
    if 2 ≤ sent then
      some ("the rust-code-mcp daemon was lost twice while serving this call; it is not repeated " ++
        "a third time, because the call itself may be what brings the daemon down")
    else none

namespace Conversation

/-- `Conversation::default` -/
def empty : Conversation Line Value where
  handshake := none
  initialized := none
  pending := []
  swallow := none
  consumed := false

variable (json : Json Line Value) (c : Conversation Line Value) (line : Line)

/-- Record a line of the host. -/
def fromHost : Conversation Line Value :=
  let c := { c with consumed := true }
  match classify json line with
  | .request id method tool =>
    let pending : Pending Line Value :=
      { id, line, stateChanging := tool.filter (· ∈ stateChangingTools), sent := 1 }
    { c with
      handshake := if method = "initialize" then some { id, line, answered := false }
        else c.handshake
      pending := c.pending ++ [pending] }
  | .notification "notifications/initialized" _ => { c with initialized := some line }
  | .notification "notifications/cancelled" params =>
    match params.bind fun params ↦ json.get params "requestId" with
    | some id => { c with pending := c.pending.filter (·.id ≠ id) }
    | none => c
  | .notification _ _ => c
  | .response _ | .other => c

/-- Record a line of the daemon; `false` when the host must not see it. -/
def fromDaemon : Bool × Conversation Line Value :=
  match classify json line with
  | .response id =>
    let handshake := c.handshake.map fun handshake ↦
      if handshake.id = id then { handshake with answered := true } else handshake
    if c.swallow = some id then
      (false, { c with handshake, swallow := none })
    else
      (true, { c with handshake, pending := c.pending.filter (·.id ≠ id) })
  | _ => (true, c)

/-- Whether the pending request is the handshake, which is replayed on its own. -/
def isHandshake (pending : Pending Line Value) : Bool :=
  c.handshake.any (·.id = pending.id)

/-- What is carried over to another daemon. -/
def replay : Replay Line Value × Conversation Line Value :=
  let handshake := match c.handshake with
    | some handshake => handshake.line :: c.initialized.toList
    | none => []
  let repeated := c.pending.filter fun p ↦ !c.isHandshake p && p.refusal.isNone
  ({  toDaemon := handshake ++ repeated.map (·.line)
      toHost := c.pending.filterMap fun p ↦
        if c.isHandshake p then none else p.refusal.map (errorLine p.id) },
    { c with
      swallow := match c.handshake with
        | some handshake => if handshake.answered then some handshake.id else none
        | none => c.swallow
      pending := c.pending.filterMap fun p ↦
        if c.isHandshake p then some p
        else if p.refusal.isSome then none
        else some { p with sent := p.sent + 1 } })

/-- Answers for every request that waits, when no daemon is left. -/
def abandon (reason : String) : List (Told Line Value) × Conversation Line Value :=
  (c.pending.map fun p ↦ errorLine p.id reason, { c with pending := [] })

end Conversation

end RustCodeMcp.Relay
