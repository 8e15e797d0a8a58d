import RustCodeMcp.Daemon.Fallback
import RustCodeMcp.Daemon.Wires

/-!
# No two messages in one line

What the relay writes to a daemon and to the host are lines of the other side. Only the last line of
the host may lack its newline; it is written last, unless it is a handshake that is replayed with
others after it (`State.Joins`). In the runs without that, two messages are never merged into one
line (`framed`); with it they are (`merged`).

Two levels are proved one on the other. The relay stores and writes lines of the host; whether such
a line has its newline is a predicate `W` at this level, and the invariant says that only the last
one read may be without it (`Framed`). Below, the pipes cut the host's bytes into lines, and a line
is without its newline only where the input has ended (`HostFramed`).

**A replay is where lines are put in a new order**: the handshake, its `initialized`, and the
requests that still wait. If the handshake itself was the line that never ended, whatever is put
behind it becomes a part of it (`Joins`).
-/

namespace RustCodeMcp.Relay

open Machine
open DaemonKey (Byte)

variable {Line Value : Type*} [DecidableEq Value]

/-! ### The lines that are stored -/

namespace Conversation

variable {W : Line → Prop} {read : List Line} {c c' : Conversation Line Value}
  {json : Json Line Value}

/-- A line of the handshake that is not whole has nothing after it in a replay. -/
def Apart (W : Line → Prop) (c : Conversation Line Value) : Prop :=
  c.handshakeLines.Pairwise (fun line _ ↦ W line) ∧
    (c.repeated ≠ [] → ∀ line ∈ c.handshakeLines, W line)

/-- The stored lines are the host's, and those that wait are whole but for the last. -/
structure Framed (W : Line → Prop) (read : List Line) (c : Conversation Line Value) : Prop where
  handshake : ∀ h, c.handshake = some h → h.line ∈ read
  initialized : ∀ line, c.initialized = some line → line ∈ read
  pending : c.pending.map Pending.line ⊆ read
  apart : (c.pending.map Pending.line).Pairwise fun line _ ↦ W line

omit [DecidableEq Value] in
/-- What is stored of fewer requests is framed too. -/
theorem Framed.of_sublist (h : c.Framed W read)
    (hhandshake : c'.handshake.map Handshake.line = c.handshake.map Handshake.line)
    (hinitialized : c'.initialized = c.initialized)
    (hpending : (c'.pending.map Pending.line).Sublist (c.pending.map Pending.line)) :
    c'.Framed W read := by
  refine ⟨fun hs heq ↦ ?_, fun line heq ↦ h.initialized line (hinitialized ▸ heq),
    List.Subset.trans hpending.subset h.pending, h.apart.sublist hpending⟩
  rw [heq, Option.map_some] at hhandshake
  obtain ⟨old, hold, hline⟩ := Option.map_eq_some_iff.1 hhandshake.symm
  exact hline ▸ h.handshake old hold

theorem Framed.replay (h : c.Framed W read) : c.replay.2.Framed W read :=
  h.of_sublist rfl rfl replay_pending_line

theorem Framed.toDaemon_subset (h : c.Framed W read) : c.replay.1.toDaemon ⊆ read := by
  rw [replay_toDaemon]
  refine List.append_subset.2 ⟨fun line hline ↦ ?_, ?_⟩
  · unfold handshakeLines at hline
    split at hline
    next hs heq =>
      rcases List.mem_cons.1 hline with rfl | hline
      · exact h.handshake hs heq
      · exact h.initialized line (Option.mem_toList.1 hline)
    next => cases hline
  · exact List.Subset.trans (List.filter_sublist.map _).subset h.pending

/-- Of what is replayed only the last may not be whole. -/
theorem Framed.pairwise_toDaemon (h : c.Framed W read) (hapart : c.Apart W) :
    c.replay.1.toDaemon.Pairwise fun line _ ↦ W line := by
  rw [replay_toDaemon, List.pairwise_append]
  refine ⟨hapart.1, h.apart.sublist (List.filter_sublist.map _), fun line hline later hlater ↦ ?_⟩
  refine hapart.2 (fun hnil ↦ ?_) line hline
  rw [hnil] at hlater
  cases hlater

/-- One more line of the host; all before it are whole. -/
theorem Framed.fromHost (h : c.Framed W read) (hwhole : ∀ line ∈ read, W line) (line : Line) :
    (c.fromHost json line).Framed W (read ++ [line]) := by
  have hlast : line ∈ read ++ [line] := by simp
  have hsub : ((c.uncancelled json line).map Pending.line).Sublist (c.pending.map Pending.line) :=
    (c.uncancelled_sublist line json).map _
  have hofLine : (Pending.ofLine json line).toList.map Pending.line ⊆ [line] := by
    unfold Pending.ofLine
    rcases requestId json line with - | id <;> simp
  rw [c.fromHost_eq line json]
  refine ⟨fun hs heq ↦ ?_, fun l heq ↦ ?_, ?_, ?_⟩
  · simp only at heq
    split_ifs at heq
    · obtain ⟨id, -, rfl⟩ := Option.map_eq_some_iff.1 heq
      exact hlast
    · exact List.mem_append_left _ (h.handshake hs heq)
  · simp only at heq
    split_ifs at heq
    · exact Option.some.inj heq ▸ hlast
    · exact List.mem_append_left _ (h.initialized l heq)
  · rw [List.map_append]
    have hold := List.Subset.trans hsub.subset h.pending
    exact List.append_subset.2 ⟨List.Subset.trans hold (List.subset_append_left _ _),
      List.Subset.trans hofLine (List.subset_append_right _ _)⟩
  · rw [List.map_append, List.pairwise_append]
    refine ⟨h.apart.sublist hsub, ?_, fun l hl _ _ ↦ hwhole l (h.pending (hsub.subset hl))⟩
    unfold Pending.ofLine
    rcases requestId json line with - | id <;> simp

/-- A line of the daemon changes none of the host's. -/
theorem Framed.fromDaemon (h : c.Framed W read) (line : Line) :
    (c.fromDaemon json line).2.Framed W read := by
  rcases hid : responseId json line with - | id
  · rwa [fromDaemon_of_none hid]
  · rw [fromDaemon_of_some hid]
    split_ifs
    · exact h.of_sublist (handshakeAnswered_line id) rfl (List.Sublist.refl _)
    · exact h.of_sublist (handshakeAnswered_line id) rfl (List.filter_sublist.map _)

end Conversation

/-! ### The lines that are written -/

/-- Lines of the host, of which only the last may not be whole. -/
structure Wire.Framed (W : Line → Prop) (read : List Line) (wire : Wire Line Value) : Prop where
  written : wire.written ⊆ read
  apart : wire.broken = false → wire.written.Pairwise fun line _ ↦ W line

/-- The line of the host that comes. -/
def Event.sent : Event Line → Option Line
  | .hostLine line _ _ => some line
  | _ => none

namespace State

variable {W : Line → Prop} {json : Json Line Value} {s t : State Line Value} {e : Event Line}

/-- The conversation that another connection is to go on with, and how many lines this takes. -/
def replays (json : Json Line Value) (s : State Line Value) :
    Event Line → Option (Conversation Line Value × ℕ)
  | .readLost _ (some n) => if s.redials then some (s.conversation, n) else none
  | .hostLine line (some _) (some n) =>
    if (s.consume json line).redials then some ((s.consume json line).conversation, n) else none
  | .tick true (some n) =>
    if s.conversation.pending.isEmpty then some (s.conversation, n) else none
  | _ => none

/-- A whole replay puts a line after one of the handshake that is not whole. -/
def Joins (json : Json Line Value) (W : Line → Prop) (s : State Line Value) (e : Event Line) :
    Prop :=
  ∃ c n, s.replays json e = some (c, n) ∧ c.replay.1.toDaemon.length ≤ n ∧ ¬c.Apart W

/-- What is stored, and what every connection was sent, is framed. -/
structure Framed (W : Line → Prop) (s : State Line Value) : Prop where
  conversation : s.conversation.Framed W s.read
  wires : ∀ wire ∈ s.wires, wire.Framed W s.read

omit [DecidableEq Value] in
theorem Framed.congr (h : s.Framed W) (hconversation : t.conversation.Framed W s.read)
    (hwires : t.wires = s.wires) (hread : t.read = s.read) : t.Framed W := by
  obtain ⟨hread', hwires'⟩ : t.read = s.read ∧ t.wires = s.wires := ⟨hread, hwires⟩
  exact ⟨hread' ▸ hconversation, hwires' ▸ hread' ▸ h.wires⟩

/-- What a replay writes to a new connection. -/
theorem Framed.dialed (h : s.Framed W) {n : ℕ}
    (hapart : s.conversation.replay.1.toDaemon.length ≤ n → s.conversation.Apart W) :
    (s.dialed s.conversation.replay.1.toDaemon n).Framed W s.read where
  written := List.Subset.trans (List.take_sublist _ _).subset h.conversation.toDaemon_subset
  apart hwhole := by
    have hle : s.conversation.replay.1.toDaemon.length ≤ n := by
      simpa [State.dialed] using hwhole
    show (s.conversation.replay.1.toDaemon.take n).Pairwise _
    rw [List.take_of_length_le hle]
    exact h.conversation.pairwise_toDaemon (hapart hle)

/-- A lost connection ends the session, or comes to a dial. -/
theorem lost_cases_redials (s : State Line Value) (reason : String) (dial : Dial) :
    (∃ verdict, s.lost reason dial = { s with verdict }) ∨
      (∃ reason', s.lost reason dial = s.abandon reason') ∨
      ∃ q n, dial = some n ∧ s.redials = true ∧ s.lost reason dial = s.reconnect q n := by
  unfold State.lost
  split
  case isTrue => exact .inl ⟨_, rfl⟩
  case isFalse hopen =>
    split
    case isTrue => exact .inl ⟨_, rfl⟩
    case isFalse hconsumed =>
      have hredials : s.redials = decide
          ((if s.delivered then 1 else s.quickLosses + 1) ≤ quickLossesBeforeGivingUp) := by
        have hwaits : ∀ a b : Bool, ¬(!a && b) = true → (a || !b) = true := by decide
        rw [redials, hwaits _ _ hopen, show s.conversation.consumed = true by simpa using hconsumed]
        rfl
      refine .inr ?_
      simp only
      generalize (if s.delivered then 1 else s.quickLosses + 1) = q at hredials
      split
      case isTrue => exact .inl ⟨_, rfl⟩
      case isFalse hfew =>
        rcases dial with - | n
        · exact .inl ⟨_, rfl⟩
        · exact .inr ⟨q, n, rfl, hredials.trans (decide_eq_true (Nat.not_lt.1 hfew)), rfl⟩

/-- A replay writes lines of which only the last may not be whole. -/
theorem Framed.replayed (h : s.Framed W) (n : ℕ)
    (hapart : s.conversation.replay.1.toDaemon.length ≤ n → s.conversation.Apart W)
    {wire : Wire Line Value}
    (hwire : wire ∈ s.wires ++ [s.dialed s.conversation.replay.1.toDaemon n]) :
    wire.Framed W s.read := by
  rcases List.mem_append.1 hwire with hwire | hwire
  · exact h.wires wire hwire
  · obtain rfl := List.mem_singleton.1 hwire
    exact h.dialed hapart

omit [DecidableEq Value] in
/-- The connection that takes the place of the one in use. -/
theorem mem_wires_of_replaced {wire next : Wire Line Value}
    (h : wire ∈ next :: (s.left ++ [s.wire])) : wire ∈ s.wires ++ [next] := by
  rw [← List.cons_append, List.mem_append] at h
  rw [wires, List.mem_append]
  simp only [List.mem_cons, List.not_mem_nil, or_false] at h ⊢
  tauto

/-- Losing the connection keeps it, and so does the replay after it. -/
theorem Framed.lost (h : s.Framed W) (reason : String) (dial : Dial)
    (hapart : ∀ n, dial = some n → s.redials = true →
      s.conversation.replay.1.toDaemon.length ≤ n → s.conversation.Apart W) :
    (s.lost reason dial).Framed W := by
  obtain ⟨verdict, heq⟩ | ⟨_, heq⟩ | ⟨q, n, hdial, hredials, heq⟩ :=
    s.lost_cases_redials reason dial <;> rw [heq]
  · exact ⟨h.conversation, h.wires⟩
  · exact ⟨h.conversation.of_sublist rfl rfl (List.nil_sublist _), h.wires⟩
  · exact ⟨h.conversation.replay, fun wire hwire ↦
      h.replayed n (hapart n hdial hredials) (mem_wires_of_replaced hwire)⟩

theorem Framed.move (h : s.Framed W) (n : ℕ)
    (hapart : s.conversation.replay.1.toDaemon.length ≤ n → s.conversation.Apart W) :
    (s.move n).Framed W := by
  unfold State.move
  simp only
  split_ifs
  · exact ⟨h.conversation.replay.of_sublist rfl rfl (List.Sublist.refl _), fun wire hwire ↦
      h.replayed n hapart hwire⟩
  · exact ⟨h.conversation.replay, fun wire hwire ↦
      h.replayed n hapart (mem_wires_of_replaced hwire)⟩

/-- A line of the host comes, after whole lines. -/
theorem Framed.consume (h : s.Framed W) (hwhole : ∀ line ∈ s.read, W line) (line : Line) :
    (s.consume json line).Framed W :=
  ⟨h.conversation.fromHost hwhole line, fun wire hwire ↦
    ⟨fun _ hl ↦ List.mem_append_left _ ((h.wires wire hwire).written hl),
      (h.wires wire hwire).apart⟩⟩

omit [DecidableEq Value] in
/-- The line that came is written. -/
theorem Framed.write (h : s.Framed W) {line : Line} (hline : line ∈ s.read)
    (hwhole : ∀ l ∈ s.wire.written, W l) : (s.write line).Framed W := by
  refine ⟨h.conversation, fun wire hwire ↦ ?_⟩
  rcases List.mem_cons.1 hwire with rfl | hwire
  · have hframed := h.wires s.wire List.mem_cons_self
    have hone : [line] ⊆ s.read := List.cons_subset.2 ⟨hline, List.nil_subset _⟩
    refine ⟨List.append_subset.2 ⟨hframed.written, hone⟩, fun hbroken ↦ ?_⟩
    refine List.pairwise_append.2 ⟨hframed.apart hbroken, List.pairwise_singleton _ _, ?_⟩
    exact fun l hl _ _ ↦ hwhole l hl
  · exact h.wires wire (List.mem_cons_of_mem _ hwire)

theorem Framed.deliver (h : s.Framed W) (line : Line) : (s.deliver json line).Framed W := by
  refine ⟨h.conversation.fromDaemon line, fun wire hwire ↦ ?_⟩
  rcases List.mem_cons.1 hwire with rfl | hwire
  · exact ⟨(h.wires s.wire List.mem_cons_self).written, (h.wires s.wire List.mem_cons_self).apart⟩
  · exact h.wires wire (List.mem_cons_of_mem _ hwire)

/-- **What is stored and written stays framed.** -/
theorem Framed.step (h : s.Framed W) (hwhole : e.sent.isSome = true → ∀ line ∈ s.read, W line)
    (hjoins : ¬s.Joins json W e) (hstep : s.freeStep json e = some t) : t.Framed W := by
  have hapart : ∀ c n, s.replays json e = some (c, n) → c.replay.1.toDaemon.length ≤ n →
      c.Apart W := fun c n hc hle ↦ not_not.1 fun hnot ↦ hjoins ⟨c, n, hc, hle, hnot⟩
  have hreplays : s.replays json e = s.halfClose.replays json e := by
    rw [s.halfClose_eq]
    rfl
  have hclosed : s.halfClose.Framed W ∧ s.halfClose.read = s.read := by
    rw [s.halfClose_eq]
    exact ⟨⟨h.conversation, h.wires⟩, rfl⟩
  rw [hreplays] at hapart
  rw [← hclosed.2] at hwhole
  obtain ⟨-, ⟨line, rfl, rfl⟩ | ⟨-, hturned⟩⟩ := turned_of_freeStep hstep
  · exact hclosed.1.deliver line
  have h := hclosed.1
  generalize s.halfClose = u at h hturned hapart hwhole
  cases hturned with
  | hostClosed | ticked | drained => exact ⟨h.conversation, h.wires⟩
  | written line dial =>
    refine (h.consume (hwhole rfl) line).write (by simp [State.consume]) fun l hl ↦ ?_
    exact hwhole rfl l ((h.wires u.wire List.mem_cons_self).written hl)
  | unwritten line error dial reason =>
    refine (h.consume (hwhole rfl) line).lost reason dial fun n hdial hredials ↦ ?_
    subst hdial
    exact hapart _ n (if_pos hredials)
  | delivered line => exact h.deliver line
  | readLost loss dial =>
    refine h.lost _ dial fun n hdial hredials ↦ ?_
    subst hdial
    exact hapart _ n (if_pos hredials)
  | moved n hpending => exact h.move n (hapart _ n (if_pos (by rw [hpending]; rfl)))

/-- What was read from the host does not change when the connection is lost. -/
theorem read_lost (s : State Line Value) (reason : String) (dial : Dial) :
    (s.lost reason dial).read = s.read := by
  obtain ⟨_, heq⟩ | ⟨_, heq⟩ | ⟨q, n, -, -, heq⟩ := s.lost_cases_redials reason dial <;>
    rw [heq] <;> rfl

theorem read_move (s : State Line Value) (n : ℕ) : (s.move n).read = s.read := by
  unfold State.move
  simp only
  split_ifs <;> rfl

/-- A step reads the line of the host that comes with it, or none. -/
theorem read_of_freeStep (hstep : s.freeStep json e = some t) :
    t.read = s.read ++ e.sent.toList := by
  have hread : s.halfClose.read = s.read := by rw [s.halfClose_eq]
  rw [← hread]
  obtain ⟨-, ⟨line, rfl, rfl⟩ | ⟨-, hturned⟩⟩ := turned_of_freeStep hstep
  · exact (List.append_nil _).symm
  generalize s.halfClose = u at hturned
  cases hturned with
  | hostClosed | ticked | drained | delivered => exact (List.append_nil _).symm
  | written line dial => rfl
  | unwritten line error dial reason => exact read_lost _ reason dial
  | readLost loss dial => exact (read_lost _ _ dial).trans (List.append_nil _).symm
  | moved n => exact (u.read_move n).trans (List.append_nil _).symm

/-- The lines that the host is told are those of a daemon. -/
theorem relayed_lost (s : State Line Value) (reason : String) (dial : Dial) {line : Line}
    (h : .relayed line ∈ (s.lost reason dial).told) : .relayed line ∈ s.told := by
  obtain ⟨_, heq⟩ | ⟨_, heq⟩ | ⟨q, n, -, -, heq⟩ := s.lost_cases_redials reason dial <;>
    rw [heq] at h
  · exact h
  · refine (List.mem_append.1 h).resolve_right fun hmem ↦ ?_
    obtain ⟨p, -, hp⟩ := List.mem_map.1 hmem
    cases hp
  · refine (List.mem_append.1 h).resolve_right fun hmem ↦ ?_
    obtain ⟨p, -, hp⟩ := List.mem_filterMap.1 (s.conversation.replay_toHost ▸ hmem)
    obtain ⟨_, -, hp⟩ := Option.map_eq_some_iff.1 hp
    cases hp

/-- What the host is told is what the daemon has just sent. -/
theorem relayed_of_freeStep (hstep : s.freeStep json e = some t) {line : Line}
    (h : .relayed line ∈ t.told) : .relayed line ∈ s.told ∨ e = .daemonLine line := by
  have htold : s.halfClose.told = s.told := by rw [s.halfClose_eq]
  rw [← htold]
  obtain ⟨-, ⟨l, rfl, rfl⟩ | ⟨hdaemon, hturned⟩⟩ := turned_of_freeStep hstep
  · have h : Told.relayed line ∈ (if (s.halfClose.conversation.fromDaemon json l).1 then
        s.halfClose.told ++ [.relayed l] else s.halfClose.told) := h
    split_ifs at h
    · rcases List.mem_append.1 h with h | h
      · exact .inl h
      · obtain h := List.mem_singleton.1 h
        exact .inr (by rw [Told.relayed.inj h])
    · exact .inl h
  generalize s.halfClose = u at hturned
  cases hturned with
  | hostClosed | ticked | drained | written => exact .inl h
  | unwritten line error dial reason =>
    exact .inl (relayed_lost (u.consume json line) reason dial h)
  | delivered line => exact absurd rfl (hdaemon line)
  | readLost loss dial => exact .inl (relayed_lost _ _ dial h)
  | moved n =>
    unfold State.move at h
    simp only at h
    split_ifs at h <;> exact .inl h

end State

/-! ### Bytes -/

open Marks (Ended IsLine IsRest)

namespace Pipe

/-- What has been taken from the host are the lines that were read, and the rest. -/
structure HostFramed (p : Pipe Value) (read : List (List Byte)) : Prop where
  taken : p.taken = read.flatten ++ (p.hostBuf ++ p.input)
  hostBuf : newline ∉ p.hostBuf
  ended : p.ended = true → p.input = []
  /-- The last line of an input that has come to its end may lack the newline. -/
  read : (∀ line ∈ read, Ended newline line) ∨
    p.ended = true ∧ p.hostBuf = [] ∧ ∃ lines last, read = lines ++ [last] ∧
      (∀ line ∈ lines, Ended newline line) ∧ newline ∉ last ∧ last ≠ []

/-- What the daemon has sent are lines, and the rest. -/
def DaemonFramed (p : Pipe Value) : Prop :=
  newline ∉ p.buf ∧ ∃ lines : List (List Byte), (∀ line ∈ lines, Ended newline line) ∧
    p.heard = lines.flatten ++ (p.buf ++ p.reader)

variable {p q r : Pipe Value} {a : Arrival} {e : Option (Event (List Byte))}
  {read : List (List Byte)}

omit [DecidableEq Value] in
/-- Filling the buffer takes the same bytes. -/
theorem HostFramed.filled (h : p.HostFramed read) {u : Pipe Value} (hfilled : p.Filled u) :
    u.HostFramed read := by
  obtain rfl | ⟨chunk, hinput, hended, rfl⟩ := hfilled
  · exact h
  · refine ⟨?_, h.hostBuf, fun hend ↦ absurd (hended.symm.trans hend) nofun, ?_⟩
    · show p.taken ++ chunk = _
      rw [h.taken, hinput, List.append_nil, List.append_assoc]
    · exact .inl (h.read.resolve_right fun hrest ↦ absurd (hended.symm.trans hrest.1) nofun)

theorem ended_append {buf line : List Byte} (hbuf : newline ∉ buf) (h : Ended newline line) :
    Ended newline (buf ++ line) := by
  obtain ⟨word, hword, rfl⟩ := h
  refine ⟨buf ++ word, fun hmem ↦ ?_, (List.append_assoc _ _ _).symm⟩
  exact (List.mem_append.1 hmem).elim hbuf hword

theorem Turns.sent {e : Event (List Byte)} (h : Turns a e) : e.sent = none := by
  cases h <;> rfl

omit [DecidableEq Value] in
/-- What a read leaves of the host's bytes, with the line that it completes. -/
theorem HostFramed.reads (h : p.HostFramed read) (hread : p.hostRead ≤ p.hostBuf.length)
    (hzero : p.ended = true → p.hostRead = 0) (hr : p.Reads a (r, e)) :
    r.HostFramed (read ++ (e.bind Event.sent).toList) ∧
      ((e.bind Event.sent).isSome = true → ∀ line ∈ read, Ended newline line) := by
  generalize hx : (r, e) = x at hr
  cases hr with
  | host u failure dial hopen hfilled =>
    have hu := h.filled hfilled
    obtain ⟨hnot, heq⟩ | ⟨line, rest, hended, hinput, heq⟩ := u.scanHost_spec failure dial
    · obtain ⟨rfl, rfl⟩ := Prod.mk.inj (hx.trans heq)
      show HostFramed _ (read ++ []) ∧ _
      rw [List.append_nil]
      refine ⟨⟨?_, fun hmem ↦ (List.mem_append.1 hmem).elim hu.hostBuf hnot, fun _ ↦ rfl, ?_⟩,
        nofun⟩
      -- No line break in what is there: all of it waits in the buffer.
      · show u.taken = read.flatten ++ (u.hostBuf ++ u.input ++ [])
        rw [hu.taken, List.append_nil]
      · refine hu.read.imp_right fun ⟨hend, hbuf, hrest⟩ ↦ ⟨hend, ?_, hrest⟩
        show u.hostBuf ++ u.input = []
        rw [hbuf, hu.ended hend, List.append_nil]
    · obtain ⟨rfl, rfl⟩ := Prod.mk.inj (hx.trans heq)
      have hopen : u.ended = false := by
        -- A line was completed from the input, so the input had not ended.
        refine Bool.eq_false_iff.2 fun hend ↦ ?_
        obtain ⟨word, -, rfl⟩ := hended
        have hnil := hinput.symm.trans (hu.ended hend)
        simp at hnil
      have hall := hu.read.resolve_right fun hrest ↦ absurd (hopen.symm.trans hrest.1) nofun
      refine ⟨⟨?_, nofun, fun hend ↦ absurd (hopen.symm.trans hend) nofun, .inl fun l hl ↦ ?_⟩,
        fun _ ↦ hall⟩
      · show u.taken = (read ++ [u.hostBuf ++ line]).flatten ++ ([] ++ rest)
        rw [hu.taken, hinput]
        simp
      · rcases List.mem_append.1 hl with hl | hl
        · exact hall l hl
        · obtain rfl := List.mem_singleton.1 hl
          exact ended_append hu.hostBuf hended
  | daemon u hheard =>
    have hu : u.HostFramed read := by
      -- The daemon's bytes go into the daemon's buffer.
      obtain rfl | ⟨chunk, -, rfl⟩ := hheard
      · exact h
      · exact ⟨h.taken, h.hostBuf, h.ended, h.read⟩
    obtain ⟨-, heq⟩ | ⟨line, rest, -, -, heq⟩ := u.scanDaemon_spec
    all_goals
      obtain ⟨rfl, rfl⟩ := Prod.mk.inj (hx.trans heq)
      show HostFramed _ (read ++ []) ∧ _
      rw [List.append_nil]
      exact ⟨⟨hu.taken, hu.hostBuf, hu.ended, hu.read⟩, nofun⟩
  | closed hinput hclosed =>
    obtain ⟨rfl, rfl⟩ := Prod.mk.inj hx
    show HostFramed _ (read ++ []) ∧ _
    rw [List.append_nil]
    exact ⟨⟨h.taken, h.hostBuf, fun _ ↦ hinput, h.read.imp_right fun hrest ↦ ⟨rfl, hrest.2⟩⟩, nofun⟩
  | final failure dial hinput hsome =>
    obtain ⟨rfl, rfl⟩ := Prod.mk.inj hx
    have hopen : p.ended ≠ true := fun hend ↦ hsome (hzero hend)
    have hall := h.read.resolve_right fun hrest ↦ hopen hrest.1
    -- The last line has no line break, and is passed on only when there is something in it.
    have hne : p.hostBuf ≠ [] := fun hnil ↦ by
      rw [hnil] at hread
      exact hsome (Nat.le_zero.1 hread)
    refine ⟨⟨?_, nofun, fun _ ↦ hinput,
      .inr ⟨rfl, rfl, read, p.hostBuf, rfl, hall, h.hostBuf, hne⟩⟩, fun _ ↦ hall⟩
    show p.taken = (read ++ [p.hostBuf]).flatten ++ ([] ++ p.input)
    rw [h.taken]
    simp
  | turn hturns =>
    obtain ⟨rfl, rfl⟩ := Prod.mk.inj hx
    rw [Option.bind_some, hturns.sent, Option.toList_none, List.append_nil]
    exact ⟨h, nofun⟩

omit [DecidableEq Value] in
/-- A whole line that was read is a line of the host's bytes. -/
theorem HostFramed.isLine (h : p.HostFramed read) {line : List Byte} (hline : line ∈ read)
    (hended : Ended newline line) : IsLine newline p.taken line := by
  rw [h.taken]
  refine Marks.IsLine.append ?_ _
  rcases h.read with hall | ⟨-, -, lines, last, rfl, hall, hnot, -⟩
  · rw [← List.append_nil read.flatten]
    exact (Marks.isLine_flatten hall List.not_mem_nil).2 hline
  · rw [List.flatten_append, List.flatten_singleton]
    refine (Marks.isLine_flatten hall hnot).2
      ((List.mem_append.1 hline).resolve_right fun hmem ↦ ?_)
    exact hnot (List.mem_singleton.1 hmem ▸ hended.mem)

omit [DecidableEq Value] in
/-- A line without its newline is what the host's bytes end with. -/
theorem HostFramed.isRest (h : p.HostFramed read) {line : List Byte} (hline : line ∈ read)
    (hnot : newline ∉ line) : p.ended = true ∧ IsRest newline p.taken line := by
  rcases h.read with hall | ⟨hended, hbuf, lines, last, rfl, hall, -, hne⟩
  · exact absurd (hall line hline).mem hnot
  · have hlast : line = last := by
      rcases List.mem_append.1 hline with hmem | hmem
      · exact absurd (hall line hmem).mem hnot
      · exact List.mem_singleton.1 hmem
    subst hlast
    refine ⟨hended, ?_⟩
    rw [h.taken, hbuf, h.ended hended, List.flatten_append, List.flatten_singleton,
      List.append_nil, List.append_nil]
    exact Marks.isRest_append (Marks.begins_flatten hall) hnot hne

omit [DecidableEq Value] in
/-- A line that was read has its newline at the end, or none. -/
theorem HostFramed.ended_or (h : p.HostFramed read) {line : List Byte} (hline : line ∈ read) :
    Ended newline line ∨ newline ∉ line := by
  rcases h.read with hall | ⟨-, -, lines, last, rfl, hall, hnot, -⟩
  · exact .inl (hall line hline)
  · rcases List.mem_append.1 hline with hmem | hmem
    · exact .inl (hall line hmem)
    · exact .inr (List.mem_singleton.1 hmem ▸ hnot)

omit [DecidableEq Value] in
/-- What a read leaves of the daemon's bytes, with the line that it completes. -/
theorem DaemonFramed.reads (h : p.DaemonFramed) (hr : p.Reads a (r, e)) :
    r.DaemonFramed ∧ r.heardBefore = p.heardBefore ∧
      (∀ l, IsLine newline p.heard l → IsLine newline r.heard l) ∧
      ∀ line, e = some (.daemonLine line) → IsLine newline r.heard line := by
  generalize hx : (r, e) = x at hr
  cases hr with
  | host u failure dial hopen hfilled =>
    have hu : u.buf = p.buf ∧ u.reader = p.reader ∧ u.heard = p.heard ∧
        u.heardBefore = p.heardBefore := by
      obtain rfl | ⟨chunk, -, -, rfl⟩ := hfilled <;> exact ⟨rfl, rfl, rfl, rfl⟩
    obtain ⟨hbuf, hreader, hheard, hbefore⟩ := hu
    have hframed : u.DaemonFramed := by
      rw [DaemonFramed, hbuf, hreader, hheard]
      exact h
    obtain ⟨-, heq⟩ | ⟨line, rest, -, -, heq⟩ := u.scanHost_spec failure dial
    all_goals
      obtain ⟨rfl, rfl⟩ := Prod.mk.inj (hx.trans heq)
      exact ⟨hframed, hbefore, fun l hl ↦ hheard ▸ hl, nofun⟩
  | daemon u hheard =>
    have hu : u.DaemonFramed ∧ u.heardBefore = p.heardBefore ∧
        ∀ l, IsLine newline p.heard l → IsLine newline u.heard l := by
      obtain rfl | ⟨chunk, hreader, rfl⟩ := hheard
      · exact ⟨h, rfl, fun _ hl ↦ hl⟩
      · obtain ⟨hbuf, lines, hlines, heq⟩ := h
        refine ⟨⟨hbuf, lines, hlines, ?_⟩, rfl, fun l hl ↦ hl.append chunk⟩
        show p.heard ++ chunk = lines.flatten ++ (p.buf ++ chunk)
        rw [heq, hreader, List.append_nil, List.append_assoc]
    obtain ⟨⟨hbuf, lines, hlines, hsplit⟩, hbefore, hkeeps⟩ := hu
    obtain ⟨hnot, heq⟩ | ⟨line, rest, hended, hreader, heq⟩ := u.scanDaemon_spec
    · obtain ⟨rfl, rfl⟩ := Prod.mk.inj (hx.trans heq)
      refine ⟨⟨fun hmem ↦ (List.mem_append.1 hmem).elim hbuf hnot, lines, hlines, ?_⟩,
        hbefore, hkeeps, nofun⟩
      show u.heard = lines.flatten ++ (u.buf ++ u.reader ++ [])
      rw [hsplit, List.append_nil]
    · obtain ⟨rfl, rfl⟩ := Prod.mk.inj (hx.trans heq)
      have hline : Ended newline (u.buf ++ line) := ended_append hbuf hended
      have hall : ∀ l ∈ lines ++ [u.buf ++ line], Ended newline l := fun l hl ↦ by
        rcases List.mem_append.1 hl with hl | hl
        · exact hlines l hl
        · exact List.mem_singleton.1 hl ▸ hline
      have hheard : u.heard = (lines ++ [u.buf ++ line]).flatten ++ rest := by
        rw [hsplit, hreader]
        simp
      refine ⟨⟨nofun, lines ++ [u.buf ++ line], hall, hheard⟩, hbefore, hkeeps, fun l hl ↦ ?_⟩
      obtain rfl := Event.daemonLine.inj (Option.some.inj hl)
      show IsLine newline u.heard _
      rw [hheard]
      refine Marks.IsLine.append ?_ rest
      rw [← List.append_nil (List.flatten _)]
      exact (Marks.isLine_flatten hall List.not_mem_nil).2 (by simp)
  | closed | final =>
    obtain ⟨rfl, rfl⟩ := Prod.mk.inj hx
    exact ⟨h, rfl, fun _ hl ↦ hl, nofun⟩
  | turn hturns =>
    obtain ⟨rfl, rfl⟩ := Prod.mk.inj hx
    refine ⟨h, rfl, fun _ hl ↦ hl, fun line heq ↦ ?_⟩
    cases hturns <;> cases heq

/-- What each connection in use has sent. -/
def streams (p : Pipe Value) : List (List Byte) :=
  p.heardBefore ++ [p.heard]

structure Framed (p : Pipe Value) : Prop where
  relay : p.relay.Framed (Ended newline)
  host : p.HostFramed p.relay.read
  hostRead : p.hostRead ≤ p.hostBuf.length
  zero : p.ended = true → p.hostRead = 0
  daemon : p.DaemonFramed
  told : ∀ line, .relayed line ∈ p.relay.told → ∃ stream ∈ p.streams, IsLine newline stream line

omit [DecidableEq Value] in
/-- Lines stay lines of what a daemon has sent. -/
theorem exists_stream_of_kept (hbefore : r.heardBefore = p.heardBefore)
    (hkeeps : ∀ l, IsLine newline p.heard l → IsLine newline r.heard l) {stream line : List Byte}
    (hstream : stream ∈ p.streams) (hline : IsLine newline stream line) :
    ∃ stream ∈ r.streams, IsLine newline stream line := by
  rcases List.mem_append.1 hstream with hmem | hmem
  · exact ⟨stream, List.mem_append_left _ (hbefore ▸ hmem), hline⟩
  · obtain rfl := List.mem_singleton.1 hmem
    exact ⟨r.heard, List.mem_append_right _ (List.mem_singleton_self _), hkeeps line hline⟩

/-- A step of which a turn puts a line after one of the handshake that lacks its newline. -/
def Joins (json : Json (List Byte) Value) (p : Pipe Value) (a : Arrival) : Prop :=
  ∃ r e, p.read a = some (r, some e) ∧ p.relay.Joins json (Ended newline) e

omit [DecidableEq Value] in
theorem relay_of_reads (hr : p.Reads a (r, e)) : r.relay = p.relay := by
  generalize hx : (r, e) = x at hr
  cases hr with
  | host u failure dial hopen hfilled =>
    have hu : u.relay = p.relay := by
      obtain rfl | ⟨chunk, -, -, rfl⟩ := hfilled <;> rfl
    obtain ⟨-, heq⟩ | ⟨line, rest, -, -, heq⟩ := u.scanHost_spec failure dial
    all_goals exact (Prod.mk.inj (hx.trans heq)).1 ▸ hu
  | daemon u hheard =>
    have hu : u.relay = p.relay := by
      obtain rfl | ⟨chunk, -, rfl⟩ := hheard <;> rfl
    obtain ⟨-, heq⟩ | ⟨line, rest, -, -, heq⟩ := u.scanDaemon_spec
    all_goals exact (Prod.mk.inj (hx.trans heq)).1 ▸ hu
  | closed | final | turn => exact (Prod.mk.inj hx).1 ▸ rfl

omit [DecidableEq Value] in
/-- A read that is not over has added to the buffer what it has read. -/
theorem hostRead_of_reads (hread : p.hostRead ≤ p.hostBuf.length)
    (hzero : p.ended = true → p.hostRead = 0) (hinput : p.ended = true → p.input = [])
    (hr : p.Reads a (r, none)) :
    r.hostRead ≤ r.hostBuf.length ∧ (r.ended = true → r.hostRead = 0) := by
  generalize hx : (r, none) = x at hr
  cases hr with
  | host u failure dial hopen hfilled =>
    have hu : u.hostRead = p.hostRead ∧ u.hostBuf = p.hostBuf ∧ u.ended = p.ended ∧
        (u.ended = true → u.input = []) := by
      obtain rfl | ⟨chunk, -, hended, rfl⟩ := hfilled
      · exact ⟨rfl, rfl, rfl, hinput⟩
      · exact ⟨rfl, rfl, rfl, fun hend ↦ absurd (hended.symm.trans hend) nofun⟩
    obtain ⟨hsame, hbuf, hend, hnil⟩ := hu
    obtain ⟨-, heq⟩ | ⟨line, rest, -, -, heq⟩ := u.scanHost_spec failure dial
    · obtain ⟨rfl, -⟩ := Prod.mk.inj (hx.trans heq)
      constructor
      · show u.hostRead + u.input.length ≤ (u.hostBuf ++ u.input).length
        rw [List.length_append, hsame, hbuf]
        omega
      · intro hended
        show u.hostRead + u.input.length = 0
        rw [hnil hended, hsame, hzero (hend ▸ hended)]
        rfl
    · cases (Prod.mk.inj (hx.trans heq)).2
  | daemon u hheard =>
    have hu : u.hostRead = p.hostRead ∧ u.hostBuf = p.hostBuf ∧ u.ended = p.ended := by
      obtain rfl | ⟨chunk, -, rfl⟩ := hheard <;> exact ⟨rfl, rfl, rfl⟩
    obtain ⟨hsame, hbuf, hend⟩ := hu
    obtain ⟨-, heq⟩ | ⟨line, rest, -, -, heq⟩ := u.scanDaemon_spec
    · obtain ⟨rfl, -⟩ := Prod.mk.inj (hx.trans heq)
      exact ⟨by rwa [← hsame, ← hbuf] at hread, fun hended ↦ hsame.trans (hzero (hend ▸ hended))⟩
    · cases (Prod.mk.inj (hx.trans heq)).2
  | closed | final | turn => cases (Prod.mk.inj hx).2

variable {json : Json (List Byte) Value}

theorem Framed.step (h : p.Framed) (hjoins : ¬p.Joins json a) (hstep : p.step json a = some q) :
    q.Framed := by
  obtain ⟨-, -, ⟨-, -, rfl⟩ | hread | ⟨r, e, t, hread, ht, rfl⟩⟩ := step_cases hstep
  · have hhost := h.host
    rw [fail]
    split_ifs
    · exact ⟨h.relay, ⟨hhost.taken, hhost.hostBuf, hhost.ended, hhost.read⟩, h.hostRead, h.zero,
        h.daemon, h.told⟩
    · exact ⟨⟨h.relay.conversation, h.relay.wires⟩,
        ⟨hhost.taken, hhost.hostBuf, hhost.ended, hhost.read⟩, h.hostRead, h.zero, h.daemon, h.told⟩
  · have hreads := reads_of_read hread
    have hrelay := relay_of_reads hreads
    obtain ⟨hhost, -⟩ := h.host.reads h.hostRead h.zero hreads
    obtain ⟨hdaemon, hbefore, hkeeps, -⟩ := h.daemon.reads hreads
    obtain ⟨hle, hzero⟩ := hostRead_of_reads h.hostRead h.zero h.host.ended hreads
    refine ⟨hrelay ▸ h.relay, ?_, hle, hzero, hdaemon, fun line hline ↦ ?_⟩
    · rw [hrelay, ← List.append_nil p.relay.read]
      exact hhost
    · obtain ⟨stream, hstream, hisLine⟩ := h.told line (hrelay ▸ hline)
      exact exists_stream_of_kept hbefore hkeeps hstream hisLine
  · have hreads := reads_of_read hread
    have hrelay := relay_of_reads hreads
    obtain ⟨hhost, hwhole⟩ := h.host.reads h.hostRead h.zero hreads
    obtain ⟨hdaemon, hbefore, hkeeps, hnew⟩ := h.daemon.reads hreads
    rw [hrelay] at ht
    have hread' := State.read_of_freeStep ht
    have hframed : t.Framed (Ended newline) := h.relay.step hwhole
      (fun hj ↦ hjoins ⟨r, e, hread, hj⟩) ht
    have htold : ∀ line, .relayed line ∈ t.told → ∃ stream ∈ r.streams,
        IsLine newline stream line := by
      intro line hline
      rcases State.relayed_of_freeStep ht hline with hline | rfl
      · obtain ⟨stream, hstream, hisLine⟩ := h.told line hline
        exact exists_stream_of_kept hbefore hkeeps hstream hisLine
      · exact ⟨r.heard, by simp [streams], hnew line rfl⟩
    have hhost : r.HostFramed t.read := hread' ▸ hhost
    rw [turned]
    split_ifs
    · exact ⟨hframed, ⟨hhost.taken, hhost.hostBuf, hhost.ended, hhost.read⟩, Nat.zero_le _,
        fun _ ↦ rfl, hdaemon, htold⟩
    · refine ⟨hframed, ⟨hhost.taken, hhost.hostBuf, hhost.ended, hhost.read⟩, Nat.zero_le _,
        fun _ ↦ rfl, ⟨List.not_mem_nil, [], List.forall_mem_nil _, rfl⟩, fun line hline ↦ ?_⟩
      obtain ⟨stream, hstream, hisLine⟩ := htold line hline
      exact ⟨stream, List.mem_append_left _ hstream, hisLine⟩

theorem framed_start : (pipeMachine json).start.Framed where
  relay :=
    ⟨⟨nofun, nofun, List.nil_subset _, List.Pairwise.nil⟩, fun wire hwire ↦ by
      obtain rfl := List.mem_singleton.1 hwire
      exact ⟨List.nil_subset _, fun _ ↦ List.Pairwise.nil⟩⟩
  host := ⟨rfl, nofun, nofun, .inl nofun⟩
  hostRead := Nat.zero_le _
  zero := nofun
  daemon := ⟨nofun, [], nofun, rfl⟩
  told := nofun

end Pipe

/-- The bytes of what the host is told; `text` is the JSON of an error. -/
def Told.bytes (text : Value → ℤ → String → List Byte) : Told (List Byte) Value → List Byte
  | relayed line => line
  | error id code message => text id code message ++ [newline]

/-- **No two messages are merged into one line**, in the runs in which no replay puts a line after
one of the handshake that lacks its newline: the lines of what was written to a connection are lines
of the host, and those of what the host is told are lines of a daemon, or errors. -/
theorem framed {json : Json (List Byte) Value} {p : Pipe Value}
    (h : (pipeMachine json).Reachable (fun p a ↦ ¬p.Joins json a) p)
    (text : Value → ℤ → String → List Byte)
    (htext : ∀ id code message, newline ∉ text id code message) :
    (∀ wire ∈ p.relay.wires, wire.broken = false →
      (∀ line, IsLine newline wire.written.flatten line → IsLine newline p.taken line) ∧
        ∀ rest, IsRest newline wire.written.flatten rest →
          p.ended = true ∧ IsRest newline p.taken rest) ∧
      (∀ line, IsLine newline (p.relay.told.map (Told.bytes text)).flatten line →
        (∃ stream ∈ p.streams, IsLine newline stream line) ∨
          ∃ id code message, .error id code message ∈ p.relay.told ∧
            line = text id code message ++ [newline]) ∧
      ∀ rest, ¬IsRest newline (p.relay.told.map (Told.bytes text)).flatten rest := by
  have hframed : p.Framed := h.invariant Pipe.framed_start fun _ _ _ hok hstep ih ↦
    ih.step hok hstep
  have htold : ∀ line ∈ p.relay.told.map (Told.bytes text), Ended newline line := by
    intro line hline
    obtain ⟨told, hmem, rfl⟩ := List.mem_map.1 hline
    rcases told with line | ⟨id, code, message⟩
    · obtain ⟨stream, -, hisLine⟩ := hframed.told line hmem
      exact hisLine.1
    · exact ⟨_, htext id code message, rfl⟩
  refine ⟨fun wire hwire hwhole ↦ ?_, fun line hline ↦ ?_, fun rest ↦
    Marks.not_isRest_flatten htold⟩
  · have hwritten := hframed.relay.wires wire hwire
    obtain ⟨hlines, hrests⟩ := Marks.mem_of_pairwise (hwritten.apart hwhole)
      fun line hline ↦ hframed.host.ended_or (hwritten.written hline)
    refine ⟨fun line hline ↦ ?_, fun rest hrest ↦ ?_⟩
    · exact hframed.host.isLine (hwritten.written (hlines line hline)) hline.1
    · exact hframed.host.isRest (hwritten.written (hrests rest hrest).1) (hrests rest hrest).2
  · rw [← List.append_nil (List.flatten _)] at hline
    obtain ⟨told, hmem, rfl⟩ := List.mem_map.1
      ((Marks.isLine_flatten htold List.not_mem_nil).1 hline)
    rcases told with line | ⟨id, code, message⟩
    · exact .inl (hframed.told line hmem)
    · exact .inr ⟨id, code, message, hmem, rfl⟩

/-! ### A one-shot host -/

/-- The error for a request with a number; the messages of the relay need no escapes. -/
def errorText : Doc → ℤ → String → List Byte
  | .number n, code, message =>
    (DaemonKey.ascii ("\x7b\"error\":\x7b\"code\":" ++ toString code ++ ",\"message\":\"" ++
      message ++ "\"\x7d,\"id\":" ++ toString n ++ ",\"jsonrpc\":\"2.0\"\x7d")).filter (· ≠ newline)
  | _, _, _ => []

theorem newline_not_mem_errorText (id : Doc) (code : ℤ) (message : String) :
    newline ∉ errorText id code message := by
  cases id with
  | number n => simp [errorText]
  | _ => exact List.not_mem_nil

/-- Nothing is replayed. -/
def Pipe.stays (p : Pipe Doc) (a : Arrival) : Bool :=
  ((p.read a).bind Prod.snd).all fun e ↦ (p.relay.replays texts e).isNone

theorem Pipe.not_joins_of_stays (p : Pipe Doc) (a : Arrival) (h : p.stays a = true) :
    ¬p.Joins texts a := by
  rintro ⟨r, e, hread, c, n, hreplays, -⟩
  rw [stays, hread, Option.bind_some, Option.all_some, hreplays] at h
  cases h

/-- The host has its handshake, and a request when the daemon is lost for good. -/
theorem framed_abandoned : ∃ p, (pipeMachine texts).Reachable (fun p a ↦ ¬p.Joins texts a) p ∧
    p.relay.verdict = some .lost ∧ p.relay.told.length = 2 ∧
      ∀ rest, ¬IsRest newline (p.relay.told.map (Told.bytes errorText)).flatten rest := by
  have hrun : (((pipeMachine texts).runIf Pipe.stays (pipeMachine texts).start
      [.host (initializeText ++ newline :: listText) none none,
        .daemon (answerText ++ [newline]), .hostBuffered none none, .host [newline] none none,
        .lost .closed none]).any fun p ↦
          decide (p.relay.verdict = some .lost ∧ p.relay.told.length = 2)) = true := by
    decide +kernel
  obtain ⟨p, hp, h⟩ := (Option.any_eq_true ..).1 hrun
  have hreach : (pipeMachine texts).Reachable (fun p a ↦ ¬p.Joins texts a) p :=
    ⟨_, runs_of_runIf Pipe.not_joins_of_stays hp⟩
  have hp := of_decide_eq_true h
  exact ⟨p, hreach, hp.1, hp.2, (framed hreach errorText newline_not_mem_errorText).2.2⟩

/-- **Two messages become one line.** The host's last line is its `notifications/initialized`,
without a newline; the daemon is lost, and the next one gets that line with the request that waits
after it. -/
theorem merged : ∃ p, (pipeMachine texts).Reachable Any p ∧ ∃ wire ∈ p.relay.wires,
    wire.broken = false ∧
      IsLine newline wire.written.flatten (initializedText ++ listText ++ [newline]) ∧
      ¬IsLine newline p.taken (initializedText ++ listText ++ [newline]) := by
  have hrun : (((pipeMachine texts).run (pipeMachine texts).start
      [.host (initializeText ++ [newline]) none none, .daemon (answerText ++ [newline]),
        .host (listText ++ [newline]) none none, .host initializedText none none,
        .hostEnd none none, .lost .closed (some 3)]).any fun p ↦
          decide (p.relay.wire.broken = false ∧
            p.relay.wire.written.flatten = initializeText ++ [newline] ++
              (initializedText ++ listText ++ [newline]) ++ [] ∧
            p.taken = [initializeText ++ [newline], listText ++ [newline]].flatten ++
              initializedText)) = true := by
    decide +kernel
  obtain ⟨p, hp, h⟩ := (Option.any_eq_true ..).1 hrun
  obtain ⟨hbroken, hwritten, htaken⟩ := of_decide_eq_true h
  have hinitialize : Ended newline (initializeText ++ [newline]) := ⟨_, by decide +kernel, rfl⟩
  have hlist : Ended newline (listText ++ [newline]) := ⟨_, by decide +kernel, rfl⟩
  refine ⟨p, reachable_of_run hp, p.relay.wire, List.mem_cons_self, hbroken, ?_, ?_⟩
  · refine ⟨⟨initializedText ++ listText, by decide +kernel, rfl⟩, _, _, hwritten, ?_⟩
    exact hinitialize.begins_append (s := [])
  · rw [htaken, Marks.isLine_flatten (fun line hline ↦ ?_) (by decide +kernel)]
    · decide +kernel
    · rcases List.mem_cons.1 hline with rfl | hline
      · exact hinitialize
      · exact List.mem_singleton.1 hline ▸ hlist

end RustCodeMcp.Relay
