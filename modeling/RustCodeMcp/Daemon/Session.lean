import RustCodeMcp.Daemon.Wires

/-!
# What each daemon is sent

The relay of `machine` has a host that does not break. A `Session` is the relay with any host: its
input cannot be read any more at some point, or what it is told cannot be written to it, and the
session ends with that turn. Nothing has been written to the daemon in such a turn
(`State.untold_cases`), so what is known of the connections stays true (`Session.Sound.step`,
`Session.Ordered.step`).

`sent_of_reachable` says of every session how often a request goes to a daemon and when a connection
is left; and, where nothing is written to a connection after a write to it has failed, what goes
over each connection. Without that a line in the middle can be missing (`skipped_line`).

**A host that breaks ends the session, and nothing else.** The turn in which that is found out has
not written to the daemon, since the line of the host never came or the line for it could not be
passed on; so such a turn is the relay's own turn, cut short, and every fact about connections
carries over (`step_cases`). What no longer holds after it is the relay's memory of who waits, which
nobody reads any more.
-/

namespace RustCodeMcp.Relay

open Machine

variable {Line Value : Type*} [DecidableEq Value] {json : Json Line Value}

/-- The relay, and whether its host is broken. -/
structure Session (Line Value : Type*) where
  relay : State Line Value
  hostBroken : Bool

/-- A turn of the relay, or one in which the host breaks, which ends the session. -/
inductive Turn (Line : Type*)
  | relay (e : Event Line)
  /-- Reading from the host fails. -/
  | unread
  /-- What the turn has for the host cannot be written to it. -/
  | untold (e : Event Line)

/-- A turn up to what it has for the host: a line of the daemon, or the answers that the relay gives
itself before it writes to the next connection. -/
def State.untold (json : Json Line Value) (s : State Line Value) :
    Event Line → Option (State Line Value)
  | .daemonLine line =>
    if ((responseId json line).all fun id ↦ s.wire.owes json id) &&
        (s.conversation.fromDaemon json line).1 then
      some { s.deliver json line with told := s.told }
    else none
  | .hostLine line (some error) dial =>
    let s := s.consume json line
    if s.inputOpen && (s.lost (Loss.writing error).reason dial).verdict.isNone then some s else none
  | .readLost loss dial => if (s.lost loss.reason dial).verdict.isNone then some s else none
  | _ => none

namespace Session

/-- The relay's own step, or the end of a session whose host is broken. -/
def step (json : Json Line Value) (s : Session Line Value) (t : Turn Line) :
    Option (Session Line Value) :=
  if s.hostBroken || s.relay.verdict.isSome then none
  else match t with
    | .relay e => (s.relay.step json e).map (⟨·, false⟩)
    | .unread => if s.relay.inputOpen then some { s with hostBroken := true } else none
    | .untold e => (s.relay.halfClose.untold json e).map (⟨·, true⟩)

/-- The host's request ids are distinct. -/
def Distinct (json : Json Line Value) (s : Session Line Value) : Turn Line → Prop
  | .relay e | .untold e => s.relay.Distinct json e
  | .unread => True

/-- Nothing is written to a connection after a write to it has failed. -/
def Intact (s : Session Line Value) : Turn Line → Prop
  | .relay e => s.relay.Intact e
  | .unread | .untold _ => True

end Session

/-- Whether the turn begins with the loss of the connection. -/
def Turn.loses : Turn Line → Bool
  | .relay e => e.loses
  | .unread | .untold _ => false

/-- The sessions of the relay, with any host. -/
def sessions (json : Json Line Value) : Machine (Session Line Value) (Turn Line) where
  start := ⟨(machine json).start, false⟩
  step := Session.step json

namespace Session

variable {s s' : Session Line Value} {t : Turn Line}

/-- **What a turn of a session can do.** -/
theorem step_cases (h : s.step json t = some s') : s.hostBroken = false ∧
    ((∃ e relay, t = .relay e ∧ s.relay.step json e = some relay ∧ s' = ⟨relay, false⟩) ∨
      (t = .unread ∧ s' = ⟨s.relay, true⟩) ∨
      ∃ e relay, t = .untold e ∧ s.relay.halfClose.untold json e = some relay ∧
        s' = ⟨relay, true⟩) := by
  unfold Session.step at h
  obtain ⟨hgoing, h⟩ := Option.ite_none_left_eq_some.1 h
  refine ⟨Bool.eq_false_iff.2 fun hbroken ↦ hgoing (by rw [hbroken]; rfl), ?_⟩
  cases t with
  | relay e =>
    obtain ⟨relay, hrelay, rfl⟩ := Option.map_eq_some_iff.1 h
    exact .inl ⟨e, relay, rfl, hrelay, rfl⟩
  | unread =>
    obtain ⟨-, heq⟩ := Option.ite_none_right_eq_some.1 h
    exact .inr (.inl ⟨rfl, (Option.some.inj heq).symm⟩)
  | untold e =>
    obtain ⟨relay, hrelay, rfl⟩ := Option.map_eq_some_iff.1 h
    exact .inr (.inr ⟨e, relay, rfl, hrelay, rfl⟩)

end Session

/-- A turn that the host breaks in has written nothing to the daemon. -/
theorem State.untold_cases {s s' : State Line Value} {e : Event Line}
    (h : s.untold json e = some s') :
    (∃ line, s' = { s.deliver json line with told := s.told }) ∨
      (∃ line error dial, e = .hostLine line (some error) dial ∧ s' = s.consume json line) ∨
      s' = s := by
  unfold State.untold at h
  split at h
  · obtain ⟨-, heq⟩ := Option.ite_none_right_eq_some.1 h
    exact .inl ⟨_, (Option.some.inj heq).symm⟩
  · obtain ⟨-, heq⟩ := Option.ite_none_right_eq_some.1 h
    exact .inr (.inl ⟨_, _, _, rfl, (Option.some.inj heq).symm⟩)
  · obtain ⟨-, heq⟩ := Option.ite_none_right_eq_some.1 h
    exact .inr (.inr (Option.some.inj heq).symm)
  · cases h

/-- What holds of a session; the relay's memory matters only until the host breaks. -/
structure Session.Sound (json : Json Line Value) (s : Session Line Value) : Prop where
  sent : s.relay.Sent json
  inv : s.hostBroken = false → s.relay.Inv json
  drains : s.hostBroken = false → s.relay.Drains

theorem Session.Sound.step {s s' : Session Line Value} {t : Turn Line} (h : s.Sound json)
    (hdistinct : s.Distinct json t) (hstep : s.step json t = some s') : s'.Sound json := by
  obtain ⟨hhost, ⟨e, relay, rfl, hrelay, rfl⟩ | ⟨rfl, rfl⟩ | ⟨e, relay, rfl, hrelay, rfl⟩⟩ :=
    Session.step_cases hstep
  · have hinv := h.inv hhost
    exact ⟨h.sent.step hinv hdistinct hrelay, fun _ ↦ hinv.step hdistinct hrelay,
      fun _ ↦ (h.drains hhost).step hrelay⟩
  · exact ⟨h.sent, nofun, nofun⟩
  · refine ⟨?_, nofun, nofun⟩
    have hsent : s.relay.halfClose.Sent json := by
      rw [s.relay.halfClose_eq]
      exact h.sent.congr rfl rfl (List.Subset.refl _)
    obtain ⟨line, rfl⟩ | ⟨line, error, dial, rfl, rfl⟩ | rfl := State.untold_cases hrelay
    · exact (hsent.deliver line).congr rfl rfl (List.Subset.refl _)
    · refine hsent.consume fun id hid ↦ ?_
      rw [s.relay.halfClose_eq]
      exact hdistinct line (some error) dial id rfl hid
    · exact hsent

/-- What goes over the connections of a session. -/
structure Session.Ordered (json : Json Line Value) (s : Session Line Value) : Prop where
  before : ∀ wire ∈ s.relay.wires, wire.before <+: s.relay.read
  follows : ∀ wire ∈ s.relay.wires, wire.Follows json s.relay.read
  relay : s.hostBroken = false → s.relay.Ordered json

theorem Session.Ordered.step {s s' : Session Line Value} {t : Turn Line} (h : s.Ordered json)
    (hsound : s.Sound json) (hdistinct : s.Distinct json t) (hintact : s.Intact t)
    (hstep : s.step json t = some s') : s'.Ordered json := by
  obtain ⟨hhost, ⟨e, relay, rfl, hrelay, rfl⟩ | ⟨rfl, rfl⟩ | ⟨e, relay, rfl, hrelay, rfl⟩⟩ :=
    Session.step_cases hstep
  · have hordered := (h.relay hhost).step (hsound.inv hhost) hdistinct hintact hrelay
    exact ⟨hordered.before, hordered.follows, fun _ ↦ hordered⟩
  · exact ⟨h.before, h.follows, nofun⟩
  · have hordered := (h.relay hhost).halfClose
    obtain ⟨line, rfl⟩ | ⟨line, error, dial, rfl, rfl⟩ | rfl := State.untold_cases hrelay
    · refine ⟨fun wire hwire ↦ ?_, fun wire hwire ↦ ?_, nofun⟩ <;>
        rcases List.mem_cons.1 hwire with rfl | hwire
      · exact hordered.before s.relay.halfClose.wire List.mem_cons_self
      · exact hordered.before wire (List.mem_cons_of_mem _ hwire)
      · exact hordered.follows s.relay.halfClose.wire List.mem_cons_self
      · exact hordered.follows wire (List.mem_cons_of_mem _ hwire)
    · exact ⟨hordered.consume_before line, hordered.consume_follows line, nofun⟩
    · exact ⟨hordered.before, hordered.follows, nofun⟩

theorem sound_start : (sessions json).start.Sound json where
  sent := by
    refine ⟨fun wire hwire ↦ ?_, nofun, nofun⟩
    obtain rfl := List.mem_singleton.1 hwire
    exact List.Subset.refl _
  inv _ := inv_start
  drains _ := nofun

theorem ordered_start : (sessions json).start.Ordered json := by
  have hordered : (machine json).start.Ordered json := by
    refine ⟨fun wire hwire ↦ ?_, fun wire hwire ↦ ?_, fun _ _ ↦ ⟨[], List.Sublist.refl _, rfl⟩⟩
    all_goals obtain rfl := List.mem_singleton.1 hwire
    · exact List.prefix_refl _
    · exact ⟨[], List.Sublist.refl _, List.prefix_refl _⟩
  exact ⟨hordered.before, hordered.follows, fun _ ↦ hordered⟩

omit [DecidableEq Value] in
/-- Only a `tools/call` names a tool. -/
theorem method_of_tool {line : Line} {id : Value} {method tool : String}
    (h : classify json line = .request id method (some tool)) : method = "tools/call" := by
  unfold classify at h
  split at h
  next => cases h
  next map _ =>
    split_ifs at h
    simp only at h
    split at h
    next =>
      obtain ⟨-, rfl, htool⟩ := Frame.request.inj h
      by_contra hne
      rw [if_neg hne] at htool
      cases htool
    all_goals cases h

omit [DecidableEq Value] in
/-- A call of a state-changing tool is no `initialize`. -/
theorem isInitialize_of_stateChanging {line : Line}
    (h : (stateChangingTool json line).isSome = true) : isInitialize json line = false := by
  unfold stateChangingTool at h
  unfold isInitialize
  split at h
  next id method tool heq =>
    rcases tool with - | tool
    · cases h
    · obtain rfl := method_of_tool heq
      rfl
  next => cases h

/-- **What each daemon is sent**: a state-changing call goes to one connection at most, any other
request but an `initialize` to two; a connection that was not lost is left, or the session ended on
it, only when nothing waits or the host breaks; and as long as nothing can be written to a
connection after a write to it has failed, what goes over a connection is the handshake, some of the
requests without an answer, what the host sends from then on. -/
theorem sent_of_reachable {s : Session Line Value}
    (h : (sessions json).Reachable (fun s t ↦ s.Distinct json t) s) :
    (∀ line ∈ s.relay.read, ∀ id, requestId json line = some id →
      (isInitialize json line = false → s.relay.connections json id ≤ 2) ∧
      ((stateChangingTool json line).isSome = true → s.relay.connections json id ≤ 1)) ∧
    (∀ (t : Turn Line) (s' : Session Line Value), s.step json t = some s' → t.loses = false →
      s'.hostBroken = false →
      s'.relay.wire.no ≠ s.relay.wire.no ∨ s'.relay.verdict.isSome = true →
      ∀ id, Waits json s.relay.read id → 0 < answers json id s.relay.told) ∧
    ((sessions json).Reachable (fun s t ↦ s.Distinct json t ∧ s.Intact t) s →
      ∀ wire ∈ s.relay.wires,
        wire.before <+: s.relay.read ∧ wire.Follows json s.relay.read) := by
  have hsound : s.Sound json := Reachable.invariant h sound_start
    fun s t s' hdistinct hstep hsound ↦ hsound.step hdistinct hstep
  refine ⟨fun line hline id hid ↦ ⟨fun hi ↦ (hsound.sent.read line hline id hid hi).1,
    fun hsc ↦ ?_⟩, fun t s' hstep hloses hhost hleft id hwaits ↦ ?_, fun hintact wire hwire ↦ ?_⟩
  · exact (hsound.sent.read line hline id hid (isInitialize_of_stateChanging hsc)).2 hsc
  · obtain ⟨hhost', ⟨e, relay, rfl, hrelay, rfl⟩ | ⟨-, rfl⟩ | ⟨e, relay, -, -, rfl⟩⟩ :=
      Session.step_cases hstep
    · exact (hsound.drains hhost').left (hsound.inv hhost') hrelay hloses hleft hwaits
    · cases hhost
    · cases hhost
  · obtain ⟨-, hordered⟩ : s.Sound json ∧ s.Ordered json := Reachable.invariant
      (P := fun s ↦ s.Sound json ∧ s.Ordered json) hintact ⟨sound_start, ordered_start⟩
      fun s t s' hok hstep hboth ↦ ⟨hboth.1.step hok.1 hstep,
        hboth.2.step hboth.1 hok.1 hok.2 hstep⟩
    exact ⟨hordered.before wire hwire, hordered.follows wire hwire⟩

/-- Turns that the host does not break in. -/
def unbroken (events : List (Event Doc)) : List (Turn Doc) :=
  events.map .relay

/-- The ids of the host are new. -/
def Session.fresh (s : Session Doc Doc) : Turn Doc → Bool
  | .relay e | .untold e => s.relay.fresh e
  | .unread => true

theorem Session.distinct_of_fresh (s : Session Doc Doc) (t : Turn Doc) (h : s.fresh t = true) :
    s.Distinct docs t := by
  cases t with
  | relay e | untold e => exact s.relay.distinct_of_fresh e h
  | unread => trivial

/-- Nobody writes to a connection after a failure. -/
def Session.sound (s : Session Doc Doc) (t : Turn Doc) : Bool :=
  s.fresh t && !(s.relay.wire.broken && match t with
    | .relay (.hostLine _ none _) => true
    | _ => false)

theorem Session.ok_of_sound (s : Session Doc Doc) (t : Turn Doc) (h : s.sound t = true) :
    s.Distinct docs t ∧ s.Intact t := by
  obtain ⟨hfresh, hsound⟩ := Bool.and_eq_true_iff.1 h
  refine ⟨s.distinct_of_fresh t hfresh, ?_⟩
  cases t with
  | relay e =>
    rintro line dial rfl
    simpa using hsound
  | unread | untold => trivial

/-- What the second of the three daemons is sent, and when it is left for the third. -/
theorem sent_handshaken : ∃ s s', (sessions docs).Reachable (fun s t ↦ s.Distinct docs t) s ∧
    s.relay.wire.no = 1 ∧ s.relay.connections docs (.number 2) ≤ 2 ∧
    s.relay.wire.Follows docs s.relay.read ∧
    s.step docs (.relay (.tick true (some 1))) = some s' ∧ s'.relay.wire.no = 2 ∧
    Waits docs s.relay.read (.number 2) ∧ 0 < answers docs (.number 2) s.relay.told := by
  have hrun := Option.some_get (by decide : ((sessions docs).runIf Session.sound
    (sessions docs).start (unbroken (handshaken ++
      [.hostLine (.object (some 2) (some "tools/list")) none none, .readLost .closed (some 2),
        .daemonLine (.object (some 1) none), .daemonLine (.object (some 2) none)]))).isSome = true)
  have hreach : (sessions docs).Reachable (fun s t ↦ s.Distinct docs t ∧ s.Intact t) _ :=
    ⟨_, runs_of_runIf Session.ok_of_sound hrun.symm⟩
  have hdistinct := hreach.mono fun _ _ h ↦ h.1
  obtain ⟨hcount, hleft, hfollows⟩ := sent_of_reachable hdistinct
  have hwaits : Waits docs [.object (some 1) (some "initialize"),
      .object (some 2) (some "tools/list")] (.number 2) :=
    ⟨[.object (some 1) (some "initialize")], .object (some 2) (some "tools/list"), [], rfl, rfl,
      nofun⟩
  exact ⟨_, _, hdistinct, rfl, (hcount (.object (some 2) (some "tools/list"))
    (List.mem_cons_of_mem _ List.mem_cons_self) _ rfl).1 rfl,
    (hfollows hreach _ List.mem_cons_self).2, rfl, rfl, hwaits,
    hleft (.relay (.tick true (some 1))) _ rfl rfl rfl (.inl (by decide)) _ hwaits⟩

/-- **A line is skipped.** Of the handshake, only the `initialize` can be written to the second
daemon, and then the next line of the host. A host that has sent no `initialize` does not get its
`notifications/initialized` sent again. And when reading from the host fails, the session ends on a
connection that still owes an answer. -/
theorem skipped_line :
    (∃ s, (sessions docs).Reachable (fun s t ↦ s.Distinct docs t) s ∧
      ¬s.relay.wire.Follows docs s.relay.read) ∧
    (∃ s, (sessions docs).Reachable (fun s t ↦ s.Distinct docs t ∧ s.Intact t) s ∧
      s.relay.wire.before = [.object none (some "notifications/initialized"),
        .object (some 2) (some "tools/list")] ∧
      s.relay.wire.written = [.object (some 2) (some "tools/list")]) ∧
    ∃ s s', (sessions docs).Reachable (fun s t ↦ s.Distinct docs t ∧ s.Intact t) s ∧
      s.step docs .unread = some s' ∧ s'.hostBroken = true ∧
      Waits docs s.relay.read (.number 1) ∧ answers docs (.number 1) s.relay.told = 0 := by
  refine ⟨?_, ?_, ?_⟩
  · have hrun := Option.some_get (by decide : ((sessions docs).runIf Session.fresh
      (sessions docs).start (unbroken (handshaken ++
        [.hostLine (.object none (some "notifications/initialized")) none none,
          .readLost .closed (some 1),
          .hostLine (.object (some 2) (some "tools/list")) none none]))).isSome = true)
    refine ⟨_, ⟨_, runs_of_runIf Session.distinct_of_fresh hrun.symm⟩, ?_⟩
    rintro ⟨repeated, hsub, hpre⟩
    obtain rfl : repeated = [] := List.sublist_nil.1 hsub
    exact absurd hpre (by decide)
  · have hrun := Option.some_get (by decide : ((sessions docs).runIf Session.sound
      (sessions docs).start
      (unbroken [.hostLine (.object none (some "notifications/initialized")) none none,
        .hostLine (.object (some 2) (some "tools/list")) none none,
        .readLost .closed (some 2)])).isSome = true)
    exact ⟨_, ⟨_, runs_of_runIf Session.ok_of_sound hrun.symm⟩, rfl, rfl⟩
  · have hrun := Option.some_get (by decide : ((sessions docs).runIf Session.sound
      (sessions docs).start
      (unbroken [.hostLine (.object (some 1) (some "initialize")) none none])).isSome = true)
    exact ⟨_, _, ⟨_, runs_of_runIf Session.ok_of_sound hrun.symm⟩, rfl, rfl,
      ⟨[], _, [], rfl, rfl, nofun⟩, rfl⟩

end RustCodeMcp.Relay
