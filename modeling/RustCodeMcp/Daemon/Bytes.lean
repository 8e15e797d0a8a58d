import RustCodeMcp.Codec.Streams
import RustCodeMcp.Daemon.Key
import RustCodeMcp.Daemon.Losses

/-!
# The bytes of a session

The relay reads bytes, and makes lines of them: a chunk that comes from the host or from the daemon
is searched for a newline, what comes before it completes the buffer, and what comes after it waits
in the reader. A buffer outlives the reads that a turn cuts off.

A step is one thing that arrives. It may complete a turn of the relay (`Pipe.read`), which is taken
as before. Writing to the host does not fail here.

**Buffers outlive turns, and those of a connection go with it.** What was read of a line stays in
the buffer when the `select!` takes another branch; what a reader holds behind the line stays in the
reader; but the reader of a connection goes with the connection. So no byte of the host is lost by a
turn, and what a daemon has sent behind its last line is lost with it (`turned`).

The model of lines is used as it is: a step here feeds bytes, and when they complete a line, or the
other side fails, the relay takes the turn for it.
-/

namespace RustCodeMcp.Relay

open Machine
open DaemonKey (Byte)
open scoped DaemonKey

/-- `\n` -/
def newline : Byte := 10

/-- The bytes up to the first newline, and those after it. -/
def cut : List Byte → Option (List Byte × List Byte)
  | [] => none
  | b :: bytes =>
    if b = newline then some ([b], bytes) else (cut bytes).map fun p ↦ (b :: p.1, p.2)

/-- The relay with its buffers, and all that has been taken from the host. -/
structure Pipe (Value : Type*) where
  relay : State (List Byte) Value
  /-- The reader of the host: what has been taken from it, and not been looked at. -/
  input : List Byte
  hostBuf : List Byte
  /-- How much of `hostBuf` the read under way has added. -/
  hostRead : ℕ
  /-- The reader of the daemon, and its buffer. -/
  reader : List Byte
  buf : List Byte
  /-- Reading from the host has failed after something was consumed. -/
  failed : Bool
  /-- Everything taken from the host, and whether it has come to its end. -/
  taken : List Byte
  ended : Bool
  /-- What the daemon of the moment has sent, and what those before it have. -/
  heard : List Byte
  heardBefore : List (List Byte)

/-- What arrives. The failure and the dial are for a line of the host that this completes. -/
inductive Arrival
  | host (chunk : List Byte) (failure : Option String) (dial : Dial)
  /-- The reader of the host holds more. -/
  | hostBuffered (failure : Option String) (dial : Dial)
  | hostEnd (failure : Option String) (dial : Dial)
  | hostFailed
  | daemon (chunk : List Byte)
  /-- The reader of the daemon holds more. -/
  | daemonBuffered
  | lost (loss : Loss) (dial : Dial)
  | tick (superseded : Bool) (dial : Dial)
  | drained

namespace Pipe

variable {Value : Type*} [DecidableEq Value] (json : Json (List Byte) Value) (p : Pipe Value)

/-- `input.read_until(b'\n', &mut host_buf)`, as far as these bytes go. -/
def scanHost (bytes : List Byte) (failure : Option String) (dial : Dial) :
    Pipe Value × Option (Event (List Byte)) :=
  match cut bytes with
  | some (line, rest) =>
    ({ p with hostBuf := [], input := rest }, some (.hostLine (p.hostBuf ++ line) failure dial))
  | none =>
    ({ p with hostBuf := p.hostBuf ++ bytes, input := [], hostRead := p.hostRead + bytes.length },
      none)

/-- `link.reader.read_until(b'\n', &mut link.buf)`, as far as these bytes go. -/
def scanDaemon (bytes : List Byte) : Pipe Value × Option (Event (List Byte)) :=
  match cut bytes with
  | some (line, rest) => ({ p with buf := [], reader := rest }, some (.daemonLine (p.buf ++ line)))
  | none => ({ p with buf := p.buf ++ bytes, reader := [] }, none)

/-- What has been read, and the turn that this completes. -/
def read : Arrival → Option (Pipe Value × Option (Event (List Byte)))
  | .host chunk failure dial =>
    if p.relay.inputOpen && p.input.isEmpty && !chunk.isEmpty && !p.ended then
      some ({ p with taken := p.taken ++ chunk }.scanHost chunk failure dial)
    else none
  | .hostBuffered failure dial =>
    if p.relay.inputOpen && !p.input.isEmpty then some (p.scanHost p.input failure dial) else none
  | .hostEnd failure dial =>
    if p.relay.inputOpen && p.input.isEmpty then
      -- `Ok(0)` is what this read has found, whatever the buffer holds.
      if p.hostRead = 0 then some ({ p with ended := true }, some .hostClosed)
      else some ({ p with hostBuf := [], ended := true }, some (.hostLine p.hostBuf failure dial))
    else none
  | .hostFailed => none
  | .daemon chunk =>
    if p.reader.isEmpty && !chunk.isEmpty then
      some ({ p with heard := p.heard ++ chunk }.scanDaemon chunk)
    else none
  | .daemonBuffered => if !p.reader.isEmpty then some (p.scanDaemon p.reader) else none
  | .lost loss dial => if p.reader.isEmpty then some (p, some (.readLost loss dial)) else none
  | .tick superseded dial => some (p, some (.tick superseded dial))
  | .drained => some (p, some .drained)

/-- After a turn the reads begin anew, and with a new connection so does its reader. -/
def turned (relay : State (List Byte) Value) : Pipe Value :=
  if relay.wire.no = p.relay.wire.no then { p with relay, hostRead := 0 }
  else
    { p with
      relay, hostRead := 0, reader := [], buf := []
      heard := [], heardBefore := p.heardBefore ++ [p.heard] }

/-- Reading from the host fails. -/
def fail : Pipe Value :=
  if p.relay.conversation.consumed then { p with failed := true }
  else { p with relay := { p.relay with verdict := some .unserved } }

/-- One arrival, and the turn of the relay that it completes. -/
def step (a : Arrival) : Option (Pipe Value) :=
  if p.relay.verdict.isSome || p.failed then none
  else
    match a with
    | .hostFailed => if p.relay.inputOpen && p.input.isEmpty then some p.fail else none
    | a =>
      (p.read a).bind fun
        | (p, none) => some p
        | (p, some e) => (p.relay.freeStep json e).map p.turned

end Pipe

/-- The relay, fed with bytes. -/
def pipeMachine {Value : Type*} [DecidableEq Value] (json : Json (List Byte) Value) :
    Machine (Pipe Value) Arrival where
  start :=
    { relay := (machine json).start
      input := []
      hostBuf := []
      hostRead := 0
      reader := []
      buf := []
      failed := false
      taken := []
      ended := false
      heard := []
      heardBefore := [] }
  step := Pipe.step json

/-! ### What arrives, and what is made of it -/

theorem cut_spec (bytes : List Byte) : newline ∉ bytes ∧ cut bytes = none ∨
    ∃ line rest, Marks.Ended newline line ∧ bytes = line ++ rest ∧
      cut bytes = some (line, rest) := by
  induction bytes with
  | nil => exact .inl ⟨nofun, rfl⟩
  | cons b bytes ih =>
    rw [cut]
    split_ifs with hb
    · subst hb
      exact .inr ⟨_, bytes, ⟨[], nofun, rfl⟩, rfl, rfl⟩
    · rcases ih with ⟨hnot, heq⟩ | ⟨line, rest, ⟨word, hword, rfl⟩, rfl, heq⟩
      · rw [heq]
        refine .inl ⟨fun hmem ↦ ?_, rfl⟩
        exact (List.mem_cons.1 hmem).elim (fun h ↦ hb h.symm) hnot
      · rw [heq]
        refine .inr ⟨b :: (word ++ [newline]), rest, ⟨b :: word, fun hmem ↦ ?_, rfl⟩, rfl, rfl⟩
        exact (List.mem_cons.1 hmem).elim (fun h ↦ hb h.symm) hword

namespace Pipe

variable {Value : Type*} {p q : Pipe Value}

/-- Bytes of the host have come into an empty reader, or the reader is as it was. -/
def Filled (p u : Pipe Value) : Prop :=
  u = p ∨ ∃ chunk, p.input = [] ∧ p.ended = false ∧
    u = { p with taken := p.taken ++ chunk, input := chunk }

/-- The same for the daemon. -/
def Heard (p u : Pipe Value) : Prop :=
  u = p ∨ ∃ chunk, p.reader = [] ∧ u = { p with heard := p.heard ++ chunk, reader := chunk }

theorem scanHost_spec (u : Pipe Value) (failure : Option String) (dial : Dial) :
    newline ∉ u.input ∧ u.scanHost u.input failure dial =
        ({ u with
          hostBuf := u.hostBuf ++ u.input, input := []
          hostRead := u.hostRead + u.input.length }, none) ∨
      ∃ line rest, Marks.Ended newline line ∧ u.input = line ++ rest ∧
        u.scanHost u.input failure dial =
          ({ u with hostBuf := [], input := rest },
            some (.hostLine (u.hostBuf ++ line) failure dial)) := by
  obtain ⟨hnot, heq⟩ | ⟨line, rest, hended, hsplit, heq⟩ := cut_spec u.input
  · exact .inl ⟨hnot, by rw [scanHost, heq]⟩
  · exact .inr ⟨line, rest, hended, hsplit, by rw [scanHost, heq]⟩

theorem scanDaemon_spec (u : Pipe Value) :
    newline ∉ u.reader ∧
        u.scanDaemon u.reader = ({ u with buf := u.buf ++ u.reader, reader := [] }, none) ∨
      ∃ line rest, Marks.Ended newline line ∧ u.reader = line ++ rest ∧
        u.scanDaemon u.reader =
          ({ u with buf := [], reader := rest }, some (.daemonLine (u.buf ++ line))) := by
  obtain ⟨hnot, heq⟩ | ⟨line, rest, hended, hsplit, heq⟩ := cut_spec u.reader
  · exact .inl ⟨hnot, by rw [scanDaemon, heq]⟩
  · exact .inr ⟨line, rest, hended, hsplit, by rw [scanDaemon, heq]⟩

/-- The turn, when it is not one of a line. -/
inductive Turns : Arrival → Event (List Byte) → Prop
  | lost (loss : Loss) (dial : Dial) : Turns (.lost loss dial) (.readLost loss dial)
  | tick (superseded : Bool) (dial : Dial) : Turns (.tick superseded dial) (.tick superseded dial)
  | drained : Turns .drained .drained

/-- What a read can do. -/
inductive Reads (p : Pipe Value) : Arrival → Pipe Value × Option (Event (List Byte)) → Prop
  | host {a : Arrival} (u : Pipe Value) (failure : Option String) (dial : Dial)
    (hopen : p.relay.inputOpen = true) (hfilled : p.Filled u) :
      Reads p a (u.scanHost u.input failure dial)
  | daemon {a : Arrival} (u : Pipe Value) (hheard : p.Heard u) :
    Reads p a (u.scanDaemon u.reader)
  | closed {a : Arrival} (hinput : p.input = []) (hread : p.hostRead = 0) :
    Reads p a ({ p with ended := true }, some .hostClosed)
  | final {a : Arrival} (failure : Option String) (dial : Dial) (hinput : p.input = [])
    (hread : p.hostRead ≠ 0) :
      Reads p a
        ({ p with hostBuf := [], ended := true }, some (.hostLine p.hostBuf failure dial))
  | turn {a : Arrival} {e : Event (List Byte)} (h : Turns a e) : Reads p a (p, some e)

theorem reads_of_read {a : Arrival} {r : Pipe Value × Option (Event (List Byte))}
    (h : p.read a = some r) : p.Reads a r := by
  cases a with
  | host chunk failure dial =>
    obtain ⟨hguard, heq⟩ := Option.ite_none_right_eq_some.1 h
    simp only [Bool.and_eq_true, Bool.not_eq_true', List.isEmpty_iff] at hguard
    obtain rfl := Option.some.inj heq
    exact .host { p with taken := p.taken ++ chunk, input := chunk } failure dial hguard.1.1.1
      (.inr ⟨chunk, hguard.1.1.2, hguard.2, rfl⟩)
  | hostBuffered failure dial =>
    obtain ⟨hguard, heq⟩ := Option.ite_none_right_eq_some.1 h
    obtain rfl := Option.some.inj heq
    exact .host p failure dial (Bool.and_eq_true_iff.1 hguard).1 (.inl rfl)
  | hostEnd failure dial =>
    obtain ⟨hguard, heq⟩ := Option.ite_none_right_eq_some.1 h
    simp only [Bool.and_eq_true, List.isEmpty_iff] at hguard
    split_ifs at heq with hread
    · obtain rfl := Option.some.inj heq
      exact .closed hguard.2 hread
    · obtain rfl := Option.some.inj heq
      exact .final failure dial hguard.2 hread
  | hostFailed => cases h
  | daemon chunk =>
    obtain ⟨hguard, heq⟩ := Option.ite_none_right_eq_some.1 h
    simp only [Bool.and_eq_true, List.isEmpty_iff] at hguard
    obtain rfl := Option.some.inj heq
    exact .daemon { p with heard := p.heard ++ chunk, reader := chunk }
      (.inr ⟨chunk, hguard.1, rfl⟩)
  | daemonBuffered =>
    obtain ⟨-, heq⟩ := Option.ite_none_right_eq_some.1 h
    obtain rfl := Option.some.inj heq
    exact .daemon p (.inl rfl)
  | lost loss dial =>
    obtain ⟨-, heq⟩ := Option.ite_none_right_eq_some.1 h
    obtain rfl := Option.some.inj heq
    exact .turn (.lost loss dial)
  | tick superseded dial =>
    obtain rfl := Option.some.inj h
    exact .turn (.tick superseded dial)
  | drained =>
    obtain rfl := Option.some.inj h
    exact .turn .drained

variable [DecidableEq Value] {json : Json (List Byte) Value}

/-- **What a step can do.** -/
theorem step_cases {a : Arrival} (h : p.step json a = some q) :
    p.relay.verdict = none ∧ p.failed = false ∧
      (a = .hostFailed ∧ p.relay.inputOpen = true ∧ q = p.fail ∨
        p.read a = some (q, none) ∨
        ∃ r e t, p.read a = some (r, some e) ∧ r.relay.freeStep json e = some t ∧
          q = r.turned t) := by
  unfold step at h
  obtain ⟨hover, h⟩ := Option.ite_none_left_eq_some.1 h
  simp only [Bool.or_eq_true, not_or, Bool.not_eq_true, Option.isSome_eq_false_iff,
    Option.isNone_iff_eq_none] at hover
  refine ⟨hover.1, hover.2, ?_⟩
  split at h
  next =>
    obtain ⟨hguard, heq⟩ := Option.ite_none_right_eq_some.1 h
    exact .inl ⟨rfl, (Bool.and_eq_true_iff.1 hguard).1, (Option.some.inj heq).symm⟩
  next =>
    obtain ⟨⟨r, e⟩, hread, heq⟩ := Option.bind_eq_some_iff.1 h
    rcases e with - | e
    · obtain rfl := Option.some.inj heq
      exact .inr (.inl hread)
    · obtain ⟨t, ht, rfl⟩ := Option.map_eq_some_iff.1 heq
      exact .inr (.inr ⟨r, e, t, hread, ht, rfl⟩)

end Pipe

/-! ### The texts of a short session -/

/-- The handshake of the host. -/
def initializeText : List Byte :=
  DaemonKey.ascii "\x7b\"jsonrpc\":\"2.0\",\"id\":1,\"method\":\"initialize\"\x7d"

/-- The notification after it. -/
def initializedText : List Byte :=
  DaemonKey.ascii "\x7b\"jsonrpc\":\"2.0\",\"method\":\"notifications/initialized\"\x7d"

/-- A request for the list of tools. -/
def listText : List Byte :=
  DaemonKey.ascii "\x7b\"jsonrpc\":\"2.0\",\"id\":2,\"method\":\"tools/list\"\x7d"

/-- The answer to the handshake. -/
def answerText : List Byte :=
  DaemonKey.ascii "\x7b\"jsonrpc\":\"2.0\",\"id\":1,\"result\":\x7b\x7d\x7d"

/-- The reader of these, with or without a newline. -/
def texts : Json (List Byte) Doc :=
  { docs with
    fromSlice := fun line ↦
      [(initializeText, Doc.object (some 1) (some "initialize")),
        (initializedText, .object none (some "notifications/initialized")),
        (listText, .object (some 2) (some "tools/list")),
        (answerText, .object (some 1) none)].lookup
          (if line.getLast? = some newline then line.dropLast else line) }

end RustCodeMcp.Relay
