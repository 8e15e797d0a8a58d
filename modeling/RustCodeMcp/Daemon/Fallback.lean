import RustCodeMcp.Daemon.Bytes

/-!
# Falling back

When the relay returns `Ok(false)` the session is served in-process, from the same input. Nothing of
it is missing then, as long as the connection is not lost in the middle of the host's first line
(`Pipe.Tears`), and no daemon speaks before the host has (`Pipe.Speaks`): `fallback_whole`.
Otherwise the relay has taken bytes that the server does not see (`fallback_torn`): what it calls
consumed are whole lines.

**What was consumed is decided by lines, what is missing by bytes.** The relay may have read half a
line when the connection is lost; the session is given back all the same, for no line was taken from
the host, and the server then begins in the middle of it. The two notions differ exactly between the
first byte of the host's first line and its end, and `Tears` names a failure there.

A daemon that speaks first is the other way to lose something: its line makes the host's input
appear untouched while the conversation has moved on.
-/

namespace RustCodeMcp.Relay

open Machine
open DaemonKey (Byte)

variable {Line Value : Type*} [DecidableEq Value]

namespace State

variable {json : Json Line Value} {s t : State Line Value} {e : Event Line}

/-- A step is a turn, or a line of the daemon. -/
theorem turned_of_freeStep (hstep : s.freeStep json e = some t) : s.verdict = none ∧
    ((∃ line, e = .daemonLine line ∧ t = s.halfClose.deliver json line) ∨
      (∀ line, e ≠ .daemonLine line) ∧ Turned json s.halfClose e t) := by
  by_cases hline : ∃ line, e = .daemonLine line
  · obtain ⟨line, rfl⟩ := hline
    rw [freeStep] at hstep
    split_ifs at hstep with hverdict
    exact ⟨by simpa using hverdict, .inl ⟨line, rfl, (Option.some.inj hstep).symm⟩⟩
  · have hline : ∀ line, e ≠ .daemonLine line := fun line heq ↦ hline ⟨line, heq⟩
    rw [freeStep_eq hline] at hstep
    obtain ⟨hverdict, hturned⟩ := turned_of_step hstep
    exact ⟨hverdict, .inr ⟨hline, hturned⟩⟩

theorem consumed_lost (s : State Line Value) (reason : String) (dial : Dial) :
    (s.lost reason dial).conversation.consumed = s.conversation.consumed := by
  obtain ⟨-, -, heq⟩ | heq | ⟨_, heq⟩ | ⟨q, n, heq⟩ := s.lost_cases reason dial <;> rw [heq] <;> rfl

theorem consumed_deliver (s : State Line Value) (line : Line) :
    (s.deliver json line).conversation.consumed = s.conversation.consumed := by
  show (s.conversation.fromDaemon json line).2.consumed = _
  rcases hid : responseId json line with - | id
  · rw [Conversation.fromDaemon_of_none hid]
  · rw [Conversation.fromDaemon_of_some hid]
    split_ifs <;> rfl

theorem consumed_consume (s : State Line Value) (line : Line) :
    (s.consume json line).conversation.consumed = true := by
  rw [show (s.consume json line).conversation = _ from s.conversation.fromHost_eq line json]

/-- The session is given back only when the host has sent no line. -/
theorem unserved_of_lost (hverdict : s.verdict = none) {reason : String} {dial : Dial}
    (h : (s.lost reason dial).verdict = some .unserved) :
    s.conversation.consumed = false ∧
      (s.inputOpen = true ∨ s.conversation.pending ≠ []) := by
  unfold State.lost at h
  split at h
  case isTrue => cases h
  case isFalse hopen =>
    split at h
    case isTrue hunserved =>
      rw [Bool.and_eq_true, Bool.not_eq_true', List.isEmpty_iff, not_and_or, Bool.not_eq_false]
        at hopen
      exact ⟨by simpa using hunserved, hopen⟩
    case isFalse =>
      generalize (if s.delivered then 1 else s.quickLosses + 1) = q at h
      simp only at h
      split_ifs at h
      · cases h
      · rcases dial with - | n
        · cases h
        · rw [show (s.reconnect q n).verdict = none from hverdict] at h
          cases h

/-- A connection that is lost before the first line ends the session. -/
theorem lost_of_empty (h : s.conversation = .empty) (reason : String) (dial : Dial) :
    s.lost reason dial =
      { s with verdict := some (if s.inputOpen then .unserved else .served) } := by
  unfold State.lost
  rw [h]
  cases s.inputOpen <;> rfl

/-- What was consumed stays so, and a line of the host is. -/
theorem consumed_of_freeStep (hstep : s.freeStep json e = some t)
    (h : t.conversation.consumed = false) :
    s.conversation.consumed = false ∧ ∀ line failure dial, e ≠ .hostLine line failure dial := by
  obtain ⟨-, ⟨line, rfl, rfl⟩ | ⟨-, hturned⟩⟩ := turned_of_freeStep hstep
  · rw [consumed_deliver, s.halfClose_eq] at h
    exact ⟨h, nofun⟩
  · have hconsumed : s.halfClose.conversation.consumed = s.conversation.consumed := by
      rw [s.halfClose_eq]
    rw [← hconsumed]
    generalize s.halfClose = u at hturned
    cases hturned with
    | hostClosed | ticked | drained => exact ⟨h, nofun⟩
    | written line dial => exact absurd ((u.consumed_consume line).symm.trans h) nofun
    | unwritten line error dial reason =>
      rw [consumed_lost, consumed_consume] at h
      cases h
    | delivered line =>
      rw [consumed_deliver] at h
      exact ⟨h, nofun⟩
    | readLost loss dial =>
      rw [consumed_lost] at h
      exact ⟨h, nofun⟩
    | moved n =>
      unfold move at h
      simp only at h
      split_ifs at h <;> exact ⟨h, nofun⟩

/-- A session is given back in one way: the connection is lost before any line was taken. -/
theorem unserved_of_freeStep (hstep : s.freeStep json e = some t)
    (h : t.verdict = some .unserved) : t.conversation.consumed = false ∧
      ∃ loss dial, e = .readLost loss dial ∧
        (s.inputOpen = true ∨ s.conversation.pending ≠ []) := by
  obtain ⟨hverdict, ⟨line, rfl, rfl⟩ | ⟨-, hturned⟩⟩ := turned_of_freeStep hstep
  · rw [show (s.halfClose.deliver json line).verdict = s.halfClose.verdict from rfl,
      s.halfClose_eq, hverdict] at h
    cases h
  · have heq := s.halfClose_eq
    have hv : s.halfClose.verdict = none := by rwa [heq]
    have hinput : s.halfClose.inputOpen = s.inputOpen := by rw [heq]
    have hpending : s.halfClose.conversation = s.conversation := by rw [heq]
    rw [← hinput, ← hpending]
    generalize s.halfClose = u at hturned hv
    cases hturned with
    | hostClosed | ticked | written | delivered => exact absurd (hv.symm.trans h) nofun
    | unwritten line error dial reason =>
      have hv : (u.consume json line).verdict = none := hv
      have hconsumed := (unserved_of_lost hv h).1
      rw [consumed_consume] at hconsumed
      cases hconsumed
    | readLost loss dial =>
      obtain ⟨hconsumed, hrest⟩ := unserved_of_lost hv h
      exact ⟨(u.consumed_lost _ _).trans hconsumed, loss, dial, rfl, hrest⟩
    | moved n =>
      unfold move at h
      simp only at h
      split_ifs at h <;> exact absurd (hv.symm.trans h) nofun
    | drained => cases h

/-- Before its first line, what is not a line leaves the conversation as it was. -/
theorem empty_of_freeStep (hstep : s.freeStep json e = some t) (hempty : s.conversation = .empty)
    (hhost : ∀ line failure dial, e ≠ .hostLine line failure dial)
    (hdaemon : ∀ line, e ≠ .daemonLine line) : t.conversation = .empty ∧ t.told = s.told := by
  obtain ⟨-, ⟨line, rfl, -⟩ | ⟨-, hturned⟩⟩ := turned_of_freeStep hstep
  · exact absurd rfl (hdaemon line)
  · have heq := s.halfClose_eq
    have hempty : s.halfClose.conversation = .empty := by rwa [heq]
    have htold : s.halfClose.told = s.told := by rw [heq]
    rw [← htold]
    generalize s.halfClose = u at hturned hempty
    cases hturned with
    | hostClosed | ticked | drained => exact ⟨hempty, rfl⟩
    | written line dial => exact absurd rfl (hhost line none dial)
    | unwritten line error dial => exact absurd rfl (hhost line (some error) dial)
    | delivered line => exact absurd rfl (hdaemon line)
    | readLost loss dial =>
      rw [lost_of_empty hempty]
      exact ⟨hempty, rfl⟩
    | moved n =>
      have hreplay : u.conversation.replay.2 = .empty := by
        rw [hempty]
        rfl
      unfold move
      simp only
      split_ifs
      · refine ⟨?_, rfl⟩
        show { u.conversation.replay.2 with swallow := none } = Conversation.empty
        rw [hreplay]
        rfl
      · exact ⟨hreplay, rfl⟩

end State

namespace Pipe

variable (p : Pipe Value)

/-- The connection or the host's input fails in the middle of the host's first line. -/
def Tears (a : Arrival) : Prop :=
  p.relay.conversation.consumed = false ∧ p.relay.inputOpen = true ∧ p.hostBuf ≠ [] ∧
    (a = .hostFailed ∨ ∃ loss dial, a = .lost loss dial)

/-- A daemon's line is complete before the host's first. -/
def Speaks (a : Arrival) : Prop :=
  p.relay.conversation.consumed = false ∧ ∃ r line, p.read a = some (r, some (.daemonLine line))

/-- Before the host's first line there is only the beginning of it. -/
structure Untouched : Prop where
  fresh : p.relay.conversation.consumed = false →
    p.relay.conversation = .empty ∧ p.relay.told = [] ∧ p.taken = p.hostBuf ∧ p.input = []
  unserved : p.relay.verdict = some .unserved →
    p.relay.conversation.consumed = false ∧ p.hostBuf = []

variable {p} {q r : Pipe Value} {a : Arrival} {e : Option (Event (List Byte))}
  {json : Json (List Byte) Value}

omit [DecidableEq Value] in
/-- What is read and does not complete a line of the host goes to its buffer. -/
theorem Untouched.read (h : p.Untouched) (hverdict : p.relay.verdict = none)
    (hread : p.Reads a (r, e)) (he : ∀ line failure dial, e ≠ some (.hostLine line failure dial)) :
    r.Untouched ∧ r.relay = p.relay ∧ (e ≠ none → r.hostBuf = p.hostBuf) := by
  have hnone : ∀ {u : Pipe Value}, u.relay = p.relay → u.relay.verdict = some .unserved → False :=
    fun hrelay hv ↦ by
      rw [hrelay, hverdict] at hv
      cases hv
  generalize hr : (r, e) = x at hread
  cases hread with
  | host u failure dial hopen hfilled =>
    have hu : u.relay = p.relay ∧ (p.relay.conversation.consumed = false →
        u.taken = u.hostBuf ++ u.input) := by
      obtain rfl | ⟨chunk, hinput, -, rfl⟩ := hfilled
      · exact ⟨rfl, fun hc ↦ by rw [(h.fresh hc).2.2.1, (h.fresh hc).2.2.2, List.append_nil]⟩
      · exact ⟨rfl, fun hc ↦ by rw [(h.fresh hc).2.2.1]⟩
    obtain ⟨-, heq⟩ | ⟨line, rest, -, -, heq⟩ := u.scanHost_spec failure dial
    · obtain ⟨rfl, rfl⟩ := Prod.mk.inj (hr.trans heq)
      refine ⟨⟨fun hc ↦ ?_, fun hv ↦ (hnone hu.1 hv).elim⟩, hu.1, fun hne ↦ absurd rfl hne⟩
      have hc : p.relay.conversation.consumed = false := hu.1 ▸ hc
      obtain ⟨hconv, htold, -, -⟩ := h.fresh hc
      exact ⟨hu.1 ▸ hconv, hu.1 ▸ htold, hu.2 hc, rfl⟩
    · obtain ⟨rfl, rfl⟩ := Prod.mk.inj (hr.trans heq)
      exact absurd rfl (he _ _ _)
  | daemon u hheard =>
    have hu : u.relay = p.relay ∧ u.taken = p.taken ∧ u.hostBuf = p.hostBuf ∧
      u.input = p.input := by
      obtain rfl | ⟨chunk, -, rfl⟩ := hheard <;> exact ⟨rfl, rfl, rfl, rfl⟩
    obtain ⟨hrelay, htaken, hbuf, hinput⟩ := hu
    have hfresh : u.relay.conversation.consumed = false → u.relay.conversation = .empty ∧
        u.relay.told = [] ∧ u.taken = u.hostBuf ∧ u.input = [] := by
      rw [hrelay, htaken, hbuf, hinput]
      exact h.fresh
    obtain ⟨-, heq⟩ | ⟨line, rest, -, -, heq⟩ := u.scanDaemon_spec
    all_goals
      obtain ⟨rfl, rfl⟩ := Prod.mk.inj (hr.trans heq)
      exact ⟨⟨hfresh, fun hv ↦ (hnone hrelay hv).elim⟩, hrelay, fun _ ↦ hbuf⟩
  | closed hinput hzero =>
    obtain ⟨rfl, rfl⟩ := Prod.mk.inj hr
    exact ⟨⟨h.fresh, fun hv ↦ (hnone rfl hv).elim⟩, rfl, fun _ ↦ rfl⟩
  | final failure dial =>
    obtain ⟨-, rfl⟩ := Prod.mk.inj hr
    exact absurd rfl (he _ _ _)
  | turn hturns =>
    obtain ⟨rfl, rfl⟩ := Prod.mk.inj hr
    exact ⟨h, rfl, fun _ ↦ rfl⟩

omit [DecidableEq Value] in
/-- What the relay does with an event leaves the bytes alone. -/
theorem turned_eq (p : Pipe Value) (relay : State (List Byte) Value) :
    (p.turned relay).relay = relay ∧ (p.turned relay).hostBuf = p.hostBuf ∧
      (p.turned relay).taken = p.taken ∧ (p.turned relay).input = p.input ∧
      (p.turned relay).ended = p.ended := by
  rw [turned]
  split_ifs <;> exact ⟨rfl, rfl, rfl, rfl, rfl⟩

omit [DecidableEq Value] in
theorem arrival_of_readLost {x : Pipe Value} {loss : Loss} {dial : Dial}
    (h : p.Reads a (x, some (.readLost loss dial))) : a = .lost loss dial := by
  generalize hr : (x, some (Event.readLost loss dial)) = y at h
  cases h with
  | host u failure dial =>
    obtain ⟨-, heq⟩ | ⟨line, rest, -, -, heq⟩ := u.scanHost_spec failure dial
    all_goals cases hr.trans heq
  | daemon u =>
    obtain ⟨-, heq⟩ | ⟨line, rest, -, -, heq⟩ := u.scanDaemon_spec
    all_goals cases hr.trans heq
  | closed | final => cases hr
  | turn hturns =>
    obtain ⟨-, heq⟩ := Prod.mk.inj hr
    cases hturns <;> cases heq
    rfl

theorem Untouched.step (h : p.Untouched) (htears : ¬p.Tears a) (hspeaks : ¬p.Speaks a)
    (hstep : p.step json a = some q) : q.Untouched := by
  obtain ⟨hverdict, -, ⟨rfl, hopen, rfl⟩ | hread | ⟨r, e, t, hread, ht, rfl⟩⟩ := step_cases hstep
  · rw [fail]
    split_ifs with hconsumed
    · exact ⟨h.fresh, h.unserved⟩
    · rw [Bool.not_eq_true] at hconsumed
      refine ⟨h.fresh, fun _ ↦ ⟨hconsumed, ?_⟩⟩
      exact not_not.1 fun hne ↦ htears ⟨hconsumed, hopen, hne, .inl rfl⟩
  · exact (h.read hverdict (reads_of_read hread) nofun).1
  · obtain ⟨hrelay, hbuf, htaken, hinput, -⟩ := r.turned_eq t
    have hreads := reads_of_read hread
    have hconsumed := State.consumed_of_freeStep ht
    have hfresh : t.conversation.consumed = false → r.Untouched ∧ r.relay = p.relay ∧
        r.hostBuf = p.hostBuf := by
      intro hc
      obtain ⟨hr, hsame, hkept⟩ := h.read hverdict hreads fun line failure dial heq ↦
        (hconsumed hc).2 line failure dial (Option.some.inj heq)
      exact ⟨hr, hsame, hkept nofun⟩
    constructor
    · rw [hrelay, hbuf, htaken, hinput]
      intro hc
      obtain ⟨hr, hsame, hkept⟩ := hfresh hc
      obtain ⟨hconv, htold, hrest⟩ := hr.fresh (hconsumed hc).1
      have hkeeps := State.empty_of_freeStep ht hconv (hconsumed hc).2 fun line heq ↦
        hspeaks ⟨hsame ▸ (hconsumed hc).1, r, line, heq ▸ hread⟩
      exact ⟨hkeeps.1, hkeeps.2.trans htold, hrest⟩
    · rw [hrelay, hbuf]
      intro hv
      obtain ⟨hc, loss, dial, rfl, hinput⟩ := State.unserved_of_freeStep ht hv
      obtain ⟨hr, hsame, hkept⟩ := hfresh hc
      obtain ⟨hconv, -, -⟩ := hr.fresh (hconsumed hc).1
      rw [hconv] at hinput
      have hopen : p.relay.inputOpen = true := hsame ▸ hinput.resolve_right fun hne ↦ hne rfl
      refine ⟨hc, not_not.1 fun hne ↦
        htears ⟨hsame ▸ (hconsumed hc).1, hopen, hkept ▸ hne, .inr ?_⟩⟩
      exact ⟨loss, dial, arrival_of_readLost hreads⟩

theorem untouched_start : (pipeMachine json).start.Untouched :=
  ⟨fun _ ↦ ⟨rfl, rfl, rfl, rfl⟩, nofun⟩

end Pipe

/-- **Nothing is missing when the session is given back**, in the runs in which the host's first
line is not torn and no daemon speaks before it. -/
theorem fallback_whole {json : Json (List Byte) Value} {p : Pipe Value}
    (h : (pipeMachine json).Reachable (fun p a ↦ ¬p.Tears a ∧ ¬p.Speaks a) p)
    (hunserved : p.relay.verdict = some .unserved) : p.taken = [] ∧ p.relay.told = [] := by
  have huntouched : p.Untouched := h.invariant Pipe.untouched_start
    fun _ _ _ hok hstep ih ↦ ih.step hok.1 hok.2 hstep
  obtain ⟨hconsumed, hbuf⟩ := huntouched.unserved hunserved
  obtain ⟨-, htold, htaken, -⟩ := huntouched.fresh hconsumed
  exact ⟨htaken.trans hbuf, htold⟩

/-- The daemon closes the connection at once. -/
theorem fallback_whole_closed : ∃ p, (pipeMachine texts).Reachable
    (fun p a ↦ ¬p.Tears a ∧ ¬p.Speaks a) p ∧ p.relay.verdict = some .unserved ∧
      p.taken = [] ∧ p.relay.told = [] := by
  have htears : ¬(pipeMachine texts).start.Tears (.lost .closed none) := fun h ↦ h.2.2.1 rfl
  have hspeaks : ¬(pipeMachine texts).start.Speaks (.lost .closed none) := by
    rintro ⟨-, r, line, hread⟩
    cases hread
  have hreach : (pipeMachine texts).Reachable (fun p a ↦ ¬p.Tears a ∧ ¬p.Speaks a) _ :=
    Reachable.start.step ⟨htears, hspeaks⟩ rfl
  exact ⟨_, hreach, rfl, fallback_whole hreach rfl⟩

/-- **The beginning of a line is lost.** The daemon closes the connection while the host is writing
its first line. -/
theorem fallback_torn : ∃ p, (pipeMachine texts).Reachable Any p ∧
    p.relay.verdict = some .unserved ∧ p.taken ≠ [] := by
  have hrun : (((pipeMachine texts).run (pipeMachine texts).start
      [.host (DaemonKey.ascii "\x7b\"jsonrpc\":\"2.0\"") none none, .lost .closed none]).any fun p ↦
        decide (p.relay.verdict = some .unserved ∧ p.taken ≠ [])) = true := by
    decide +kernel
  obtain ⟨p, hp, h⟩ := (Option.any_eq_true ..).1 hrun
  exact ⟨p, reachable_of_run hp, of_decide_eq_true h⟩

end RustCodeMcp.Relay
