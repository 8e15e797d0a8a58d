import RustCodeMcp.Daemon.WatchdogRuns
import RustCodeMcp.Machine.Pool

/-!
# Sessions and the end of a daemon

The daemon counts the connections it serves, and every session that ends leaves behind when it did.
The loop of the daemon reads the count and the mark one after the other while sessions go on to
end, so a session leaves its mark first and is counted out second. What a retired daemon, and one
that nobody needs, may conclude from the two is proved over all interleavings.

Two sessions that end together can leave their marks in the other order than they looked at the
clock. How long a session takes from its look to its mark is therefore a part of what is proved.
A clock that is set back is left out, as are the sessions that end because the daemon does. Times
are in nanoseconds.

**The order of two writes is the whole point.** A session that is over stores the time first and
takes itself off the count second. A loop that reads the count as zero therefore finds a mark that
is at least as late as every session's, up to the time a session needs between its look at the clock
and the store (`State.Inv.leaveMark`); were the order the other one, the count could be zero with
the mark still that of an earlier client.

The clock of the model is advanced by steps of its own, between any two steps of the loop or of a
session, so nothing is assumed of how long anything takes but this one bound (`Prompt`).
-/

namespace RustCodeMcp.Departures

open Machine Watchdog

/-- What becomes of a session: served, over, marked, counted out; or lost with its thread. -/
inductive Session
  | serving
  /-- Served, with the time of its look at the clock. -/
  | departing (time : ℕ)
  /-- The mark is left. -/
  | marked (time : ℕ)
  /-- Counted out. -/
  | left (time : ℕ)
  /-- The task of the session panicked; nothing counts it out. -/
  | lost
  deriving DecidableEq

namespace Session

/-- The session has been counted out. -/
def isLeft : Session → Bool
  | left _ => true
  | _ => false

/-- The time of a mark that is left. -/
def mark? : Session → Option ℕ
  | marked time | left time => some time
  | _ => none

/-- The time of a look at the clock. -/
def time? : Session → Option ℕ
  | departing time | marked time | left time => some time
  | _ => none

theorem time?_of_mark? {session : Session} {time : ℕ} (h : session.mark? = some time) :
    session.time? = some time := by
  cases session with
  | marked | left => exact h
  | serving | departing | lost => exact absurd h (by simp [mark?])

end Session

/-- Why the loop ends. -/
inductive Reason
  | signal
  | acceptFailed
  /-- "last client left after retiring; shutting down" -/
  | lastLeft
  /-- "exiting anyway on the … deadline", with what the clock said. -/
  | deadline (now : ℕ)
  /-- "no clients for …, shutting down", with what the clock said. -/
  | idle (now : ℕ)
  deriving DecidableEq

/-- Where the loop is. -/
inductive Phase
  /-- `tokio::select!` -/
  | selecting
  | watching
  /-- Before `launch.replacement()`. -/
  | comparing
  | lastLeft
  | deadline
  /-- Before the look at the count that the idle exit takes. -/
  | counting
  | reading
  | judging (now : ℕ)
  | ending (reason : Reason)
  | gone (reason : Reason)
  deriving DecidableEq

namespace Phase

/-- The daemon has ended. -/
def isGone : Phase → Bool
  | gone _ => true
  | _ => false

/-- The reason for which the loop ends or has ended. -/
def reason? : Phase → Option Reason
  | ending reason | gone reason => some reason
  | _ => none

end Phase

/-- The times that the daemon is configured with, and its way to retire. -/
structure Settings where
  /-- `0` never ends a daemon. -/
  idle : ℕ
  /-- `0` waits forever. -/
  retireGrace : ℕ
  limits : WatchdogLimits

/-- The daemon: its clock, its sessions, the count and the mark, and where its loop is. -/
structure State where
  clock : ℕ
  live : ℕ
  /-- In seconds. -/
  idleSince : ℕ
  sessions : List Session
  retiring : Bool
  retiringSince : Option ℕ
  /-- How often this daemon has removed the file at its socket's path. -/
  unlinks : ℕ
  phase : Phase
  deriving DecidableEq

/-- What may happen next: time passes, a session goes on, or the loop does. -/
inductive Action
  | pass (n : ℕ)
  | accept
  /-- `IDLE_TICK` is over. -/
  | tick
  | signal
  | acceptFails
  | watch (reading : Option MemoryReading) (sinceUnload sinceTrim : Option ℕ)
    (after : MemoryReading)
  /-- `replaced` is whether there is another binary at the launch path. -/
  | compare (replaced : Bool)
  /-- The loop goes on. -/
  | go
  /-- A session has been served, and looks at the clock. -/
  | depart (i : ℕ)
  | mark (i : ℕ)
  | leave (i : ℕ)
  | panic (i : ℕ)

/-- `retire_grace_expired` -/
def retireGraceExpired (retiringFor : Option ℕ) (grace : ℕ) : Bool :=
  if grace = 0 then false else retiringFor.any (grace ≤ ·)

/-- `as i64` of a `u64` -/
def asI64 (n : ℕ) : ℤ :=
  (n : ℤ).bmod (2 ^ 64)

namespace State

variable (s : State)

/-- The socket is removed, and the daemon serves the clients it has. -/
def retire : State :=
  { s with retiring := true, retiringSince := some s.clock, unlinks := s.unlinks + 1 }

/-- Retire, if that was decided. -/
def retireIf (retires : Bool) : State :=
  if retires then s.retire else s

/-- What the watchdog decides. -/
def retires (settings : Settings) (reading : MemoryReading) (sinceUnload sinceTrim : Option ℕ)
    (after : MemoryReading) : Bool :=
  (watchdogTick reading settings.limits sinceUnload sinceTrim s.retiring after).action =
    .retireAndUnload

/-- The loop goes on by itself. -/
def go (settings : Settings) : Option State :=
  match s.phase with
  | .lastLeft =>
    some { s with phase := if s.retiring && s.live = 0 then .ending .lastLeft else .deadline }
  | .deadline => some { s with
      phase :=
        if s.retiring && retireGraceExpired (s.retiringSince.bind (elapsed s.clock))
            settings.retireGrace then
          .ending (.deadline s.clock)
        else .counting }
  | .counting =>
    some { s with phase := if settings.idle ≠ 0 ∧ s.live = 0 then .reading else .selecting }
  | .reading => some { s with phase := .judging s.clock }
  | .judging now => some { s with
      phase :=
        if asI64 (settings.idle / second) ≤ (now / second : ℕ) - s.idleSince then
          .ending (.idle now)
        else .selecting }
  | .ending reason => some { s with
      unlinks := if s.retiring then s.unlinks else s.unlinks + 1
      phase := .gone reason }
  | .selecting | .watching | .comparing | .gone _ => none

/-- One step of the daemon, of a session or of the clock; none if it cannot happen. -/
def step (settings : Settings) : Action → Option State
  | .pass n => some { s with clock := s.clock + n }
  | .accept =>
    if s.phase = .selecting then some { s with
        live := s.live + 1
        sessions := s.sessions ++ [.serving]
        phase := .watching }
    else none
  | .tick => if s.phase = .selecting then some { s with phase := .watching } else none
  | .signal => if s.phase = .selecting then some { s with phase := .ending .signal } else none
  | .acceptFails =>
    if s.phase = .selecting then some { s with phase := .ending .acceptFailed } else none
  | .watch reading sinceUnload sinceTrim after =>
    if s.phase = .watching then
      let retires := reading.any (s.retires settings · sinceUnload sinceTrim after)
      some { s.retireIf retires with phase := .comparing }
    else none
  | .compare replaced =>
    if s.phase = .comparing then
      some { s.retireIf (!s.retiring && replaced) with phase := .lastLeft }
    else none
  | .go => s.go settings
  | .depart i =>
    if s.sessions[i]? = some .serving then
      some { s with sessions := s.sessions.set i (.departing s.clock) }
    else none
  | .mark i =>
    match s.sessions[i]? with
    | some (.departing time) => some { s with
        idleSince := time / second
        sessions := s.sessions.set i (.marked time) }
    | _ => none
  | .leave i =>
    match s.sessions[i]? with
    | some (.marked time) => some { s with
        live := s.live - 1
        sessions := s.sessions.set i (.left time) }
    | _ => none
  | .panic i =>
    if s.sessions[i]? = some .serving then
      some { s with sessions := s.sessions.set i .lost }
    else none

end State

/-- A daemon that is started at that time. -/
def machine (settings : Settings) (start : ℕ) : Machine State Action where
  start :=
    { clock := start
      live := 0
      idleSince := start / second
      sessions := []
      retiring := false
      retiringSince := none
      unlinks := 0
      phase := .selecting }
  step s := s.step settings

variable {settings : Settings} {start lag : ℕ} {s t : State} {a : Action} {session : Session}
  {i time : ℕ} {reason : Reason}

/-! ### What may be concluded -/

/-- A session leaves its mark within `lag` of its look at the clock. -/
def Prompt (lag : ℕ) (s : State) (a : Action) : Prop :=
  ∀ i time, a = .mark i → s.sessions[i]? = some (.departing time) → s.clock ≤ time + lag

/-- Everybody has been counted out. -/
def State.Deserted (s : State) : Prop :=
  ∀ session ∈ s.sessions, ∃ time, session = .left time

/-- Since a time no earlier than `time - lag`, seen in whole seconds, the idle time has passed. -/
def Waited (settings : Settings) (lag time now : ℕ) : Prop :=
  (time : ℤ) + asI64 (settings.idle / second) * second < now + lag + second

/-- What has to hold for a daemon to end. A signal or a failed accept may come at any time. -/
def Reason.Holds (settings : Settings) (start lag : ℕ) (s : State) : Reason → Prop
  | signal | acceptFailed => True
  | lastLeft => s.retiring = true ∧ s.Deserted
  | deadline now => ∃ since, s.retiringSince = some since ∧ settings.retireGrace ≠ 0 ∧
    since + settings.retireGrace ≤ now
  | idle now => settings.idle ≠ 0 ∧ s.Deserted ∧ Waited settings lag start now ∧
    ∀ session ∈ s.sessions, ∀ time, session.time? = some time → Waited settings lag time now

/-- What holds of a daemon at any time: the count is that of the sessions it has not counted out,
the file is removed once — when the daemon retires, or else when it ends — and the daemon ends for a
reason. -/
structure State.Lives (settings : Settings) (start lag : ℕ) (s : State) : Prop where
  live : s.live = s.sessions.countP (!·.isLeft)
  since : s.retiringSince.isSome = s.retiring
  unlinks : s.unlinks = (s.retiring || s.phase.isGone).toNat
  reason : ∀ reason, s.phase.reason? = some reason → reason.Holds settings start lag s

/-- The loop is on its way to the idle exit. -/
def Phase.Leaves : Phase → Prop
  | reading | judging _ => True
  | _ => False

/-- What carries `Lives`: the mark is a look at the clock, and none that left a mark was later by
more than `lag`. -/
structure State.Inv (settings : Settings) (start lag : ℕ) (s : State) : Prop
    extends s.Lives settings start lag where
  start_le : start ≤ s.clock
  time_le : ∀ session ∈ s.sessions, ∀ time, session.time? = some time → time ≤ s.clock
  mark : ∃ look, s.idleSince = look / second ∧ start ≤ look + lag ∧
    ∀ session ∈ s.sessions, ∀ time, session.mark? = some time → time ≤ look + lag
  leaves : s.phase.Leaves → settings.idle ≠ 0 ∧ s.Deserted

theorem deserted_of_live (h : s.live = s.sessions.countP (!·.isLeft)) (hlive : s.live = 0) :
    s.Deserted := by
  intro session hsession
  have hleft := List.countP_eq_zero.1 (h.symm.trans hlive) session hsession
  cases session with
  | left time => exact ⟨time, rfl⟩
  | serving | departing | marked | lost => exact absurd rfl hleft

theorem State.Deserted.isLeft (h : s.Deserted) (hi : s.sessions[i]? = some session) :
    session.isLeft = true := by
  obtain ⟨time, rfl⟩ := h session (List.mem_of_getElem? hi)
  rfl

/-- Nobody who is there can end a daemon that nobody was left of. -/
theorem Reason.Holds.deadline_of_not_isLeft (h : reason.Holds settings start lag s)
    (hi : s.sessions[i]? = some session) (hsession : session.isLeft = false)
    (ht : t.retiringSince = s.retiringSince) : reason.Holds settings start lag t := by
  cases reason with
  | signal | acceptFailed => trivial
  | lastLeft =>
    rw [h.2.isLeft hi] at hsession
    exact absurd hsession (by decide)
  | deadline now => simpa only [Reason.Holds, ht] using h
  | idle now =>
    rw [h.2.1.isLeft hi] at hsession
    exact absurd hsession (by decide)

/-- A look at the clock, and the time that has passed since the mark, in whole seconds. -/
theorem Waited.of_look {look now : ℕ} (htime : time ≤ look + lag)
    (h : asI64 (settings.idle / second) ≤ (now / second : ℕ) - (look / second : ℕ)) :
    Waited settings lag time now := by
  rw [Waited]
  have hpos : 0 < second := by decide
  generalize asI64 (settings.idle / second) = secs at h ⊢
  generalize second = second at h hpos ⊢
  have hnow := Nat.div_mul_le_self now second
  have hlook := Nat.lt_div_mul_add (a := look) (b := second) hpos
  have hmul := Int.mul_le_mul_of_nonneg_right h (Int.natCast_nonneg second)
  rw [Int.sub_mul] at hmul
  have hnow' : ((now / second : ℕ) : ℤ) * second ≤ now := by exact_mod_cast hnow
  have hlook' : (look : ℤ) < (look / second : ℕ) * second + second := by exact_mod_cast hlook
  have htime' : (time : ℤ) ≤ look + lag := by exact_mod_cast htime
  omega

theorem holds_deadline (h : retireGraceExpired (s.retiringSince.bind (elapsed s.clock))
    settings.retireGrace = true) : (Reason.deadline s.clock).Holds settings start lag s := by
  rw [retireGraceExpired] at h
  split_ifs at h with hgrace
  cases hpassed : s.retiringSince.bind (elapsed s.clock) with
  | none => exact absurd h (by simp [hpassed])
  | some passed =>
    obtain ⟨since, hsince, helapsed⟩ := Option.bind_eq_some_iff.1 hpassed
    rw [elapsed] at helapsed
    split_ifs at helapsed with hle
    have hpassed' : settings.retireGrace ≤ passed := by simpa [hpassed] using h
    have hsub := Option.some.inj helapsed
    exact ⟨since, hsince, hgrace, by omega⟩

/-- A retired daemon does not retire again. -/
theorem retiring_of_retires {reading after : MemoryReading} {sinceUnload sinceTrim : Option ℕ}
    (h : s.retires settings reading sinceUnload sinceTrim after = true) : s.retiring = false := by
  have haction := of_decide_eq_true h
  rcases watchdogTick_cases reading after settings.limits sinceUnload sinceTrim s.retiring with
    ⟨-, htick⟩ | htick | ⟨-, htick⟩
  · rw [htick] at haction
    exact retiring_of_retireAndUnload haction
  · rw [htick] at haction
    exact absurd haction (by decide)
  · rw [htick] at haction
    exact retiring_of_retireAndUnload haction

@[simp]
theorem phase_retireIf (s : State) (retires : Bool) : (s.retireIf retires).phase = s.phase := by
  cases retires <;> rfl

namespace State.Inv

/-- The loop goes elsewhere. -/
theorem goto (h : s.Inv settings start lag) {phase : Phase} (hgone : phase.isGone = s.phase.isGone)
    (hreason : ∀ reason, phase.reason? = some reason → reason.Holds settings start lag s)
    (hleaves : phase.Leaves → settings.idle ≠ 0 ∧ s.Deserted) :
    State.Inv settings start lag { s with phase := phase } where
  live := h.live
  since := h.since
  unlinks := by rw [hgone]; exact h.unlinks
  reason := hreason
  start_le := h.start_le
  time_le := h.time_le
  mark := h.mark
  leaves := hleaves

/-- The loop goes on, and not towards an exit. -/
theorem goOn (h : s.Inv settings start lag) {phase : Phase} (hold : s.phase.isGone = false)
    (hreason : phase.reason? = none) (hleaves : ¬phase.Leaves) :
    State.Inv settings start lag { s with phase := phase } := by
  refine h.goto ?_ (fun _ h ↦ absurd (hreason.symm.trans h) (by simp)) fun h ↦ absurd h hleaves
  cases phase with
  | gone => exact absurd hreason (by simp [Phase.reason?])
  | _ => exact hold.symm

/-- The loop ends. -/
theorem endFor (h : s.Inv settings start lag) (hold : s.phase.isGone = false)
    (hreason : reason.Holds settings start lag s) :
    State.Inv settings start lag { s with phase := .ending reason } :=
  h.goto hold.symm (fun _ h ↦ Option.some.inj h ▸ hreason) False.elim

theorem pass (h : s.Inv settings start lag) (n : ℕ) :
    State.Inv settings start lag { s with clock := s.clock + n } where
  live := h.live
  since := h.since
  unlinks := h.unlinks
  reason := h.reason
  start_le := Nat.le_add_right_of_le h.start_le
  time_le session hsession time htime :=
    Nat.le_add_right_of_le (h.time_le session hsession time htime)
  mark := h.mark
  leaves := h.leaves

theorem accept (h : s.Inv settings start lag) (hphase : s.phase = .selecting) :
    State.Inv settings start lag { s with
      live := s.live + 1
      sessions := s.sessions ++ [.serving]
      phase := .watching } where
  live := by
    rw [List.countP_append, ← h.live]
    rfl
  since := h.since
  unlinks := by
    have hunlinks := h.unlinks
    rw [hphase] at hunlinks
    exact hunlinks
  reason := fun reason hreason ↦ absurd hreason (by simp [Phase.reason?])
  start_le := h.start_le
  time_le session hsession time htime := by
    rcases List.mem_append.1 hsession with hsession | hsession
    · exact h.time_le session hsession time htime
    · rw [List.mem_singleton.1 hsession] at htime
      exact absurd htime (by simp [Session.time?])
  mark := by
    obtain ⟨look, hlook, hstart, hmarks⟩ := h.mark
    refine ⟨look, hlook, hstart, fun session hsession time htime ↦ ?_⟩
    rcases List.mem_append.1 hsession with hsession | hsession
    · exact hmarks session hsession time htime
    · rw [List.mem_singleton.1 hsession] at htime
      exact absurd htime (by simp [Session.mark?])
  leaves := False.elim

/-- The daemon retires, which it has not done before. -/
theorem retire (h : s.Inv settings start lag) (hretiring : s.retiring = false)
    (hphase : s.phase.reason? = none) (hgone : s.phase.isGone = false) :
    s.retire.Inv settings start lag where
  live := h.live
  since := rfl
  unlinks := by
    have hunlinks := h.unlinks
    rw [hretiring, hgone] at hunlinks
    rw [State.retire, hunlinks]
    rfl
  reason := fun reason hreason ↦ absurd (hphase.symm.trans hreason) (by simp)
  start_le := h.start_le
  time_le := h.time_le
  mark := h.mark
  leaves := h.leaves

theorem retireIf (h : s.Inv settings start lag) {retires : Bool}
    (hretires : retires = true → s.retiring = false) (hphase : s.phase.reason? = none)
    (hgone : s.phase.isGone = false) : (s.retireIf retires).Inv settings start lag := by
  rw [State.retireIf]
  split
  · exact h.retire (hretires ‹_›) hphase hgone
  · exact h

/-- A session goes on that has not been counted out. -/
theorem put (h : s.Inv settings start lag) (hi : s.sessions[i]? = some session)
    (hsession : session.isLeft = false) {session' : Session} {live idleSince look : ℕ}
    (hlive : live + 1 = s.live + (!session'.isLeft).toNat)
    (htime : ∀ time, session'.time? = some time → time ≤ s.clock)
    (hlook : idleSince = look / second) (hstart : start ≤ look + lag)
    (hmarks : ∀ session ∈ s.sessions, ∀ time, session.mark? = some time → time ≤ look + lag)
    (hmark : ∀ time, session'.mark? = some time → time ≤ look + lag) :
    State.Inv settings start lag { s with
      live := live
      idleSince := idleSince
      sessions := s.sessions.set i session' } where
  live := by
    have hcount := Pool.countP_set_add (fun session : Session ↦ !session.isLeft) session' hi
    rw [hsession] at hcount
    have hold := h.live
    simp only [Bool.not_false, Bool.toNat_true] at hcount ⊢
    omega
  since := h.since
  unlinks := h.unlinks
  reason := fun reason hreason ↦ (h.reason reason hreason).deadline_of_not_isLeft hi hsession rfl
  start_le := h.start_le
  time_le other hother time hother' := by
    rcases List.mem_or_eq_of_mem_set hother with hmem | rfl
    · exact h.time_le other hmem time hother'
    · exact htime time hother'
  mark := by
    refine ⟨look, hlook, hstart, fun other hother time hother' ↦ ?_⟩
    rcases List.mem_or_eq_of_mem_set hother with hmem | rfl
    · exact hmarks other hmem time hother'
    · exact hmark time hother'
  leaves := fun hleaves ↦ by
    rw [(h.leaves hleaves).2.isLeft hi] at hsession
    exact absurd hsession (by decide)

theorem depart (h : s.Inv settings start lag) (hi : s.sessions[i]? = some .serving) :
    State.Inv settings start lag { s with sessions := s.sessions.set i (.departing s.clock) } := by
  obtain ⟨look, hlook, hstart, hmarks⟩ := h.mark
  refine h.put hi rfl rfl (fun time htime ↦ ?_) hlook hstart hmarks
    fun time htime ↦ absurd htime (by simp [Session.mark?])
  exact Nat.le_of_eq (Option.some.inj htime).symm

theorem panic (h : s.Inv settings start lag) (hi : s.sessions[i]? = some .serving) :
    State.Inv settings start lag { s with sessions := s.sessions.set i .lost } := by
  obtain ⟨look, hlook, hstart, hmarks⟩ := h.mark
  exact h.put hi rfl rfl (fun time htime ↦ absurd htime (by simp [Session.time?])) hlook hstart
    hmarks fun time htime ↦ absurd htime (by simp [Session.mark?])

theorem leave (h : s.Inv settings start lag) (hi : s.sessions[i]? = some (.marked time)) :
    State.Inv settings start lag { s with
      live := s.live - 1
      sessions := s.sessions.set i (.left time) } := by
  obtain ⟨look, hlook, hstart, hmarks⟩ := h.mark
  have hmem := List.mem_of_getElem? hi
  have hpos := Pool.countP_pos_of_getElem? (p := fun session : Session ↦ !session.isLeft) hi rfl
  have hlive := h.live
  refine h.put hi rfl ?_ (fun t ht ↦ h.time_le _ hmem t ht) hlook hstart hmarks
    fun t ht ↦ hmarks _ hmem t ht
  show s.live - 1 + 1 = s.live + 0
  omega

/-- The last mark is no earlier than any other by more than a session takes to leave its own. -/
theorem leaveMark (h : s.Inv settings start lag) (hi : s.sessions[i]? = some (.departing time))
    (hprompt : s.clock ≤ time + lag) : State.Inv settings start lag { s with
      idleSince := time / second
      sessions := s.sessions.set i (.marked time) } := by
  have htime := h.time_le _ (List.mem_of_getElem? hi)
  refine h.put hi rfl rfl htime rfl (Nat.le_trans h.start_le hprompt)
    (fun other hother time' hmark ↦ ?_) fun time' hmark ↦ Nat.le_trans (htime time' hmark) hprompt
  exact Nat.le_trans (h.time_le other hother time' (Session.time?_of_mark? hmark)) hprompt

/-- The loop goes on. -/
theorem go (h : s.Inv settings start lag) (hgo : s.go settings = some t) :
    t.Inv settings start lag := by
  obtain ⟨look, hlook, hstart, hmarks⟩ := h.mark
  cases hphase : s.phase with
  | selecting | watching | comparing | gone => exact absurd hgo (by simp [State.go, hphase])
  | lastLeft =>
    rw [State.go, hphase] at hgo
    obtain rfl := Option.some.inj hgo
    split
    · rename_i hlast
      obtain ⟨hretiring, hlive⟩ : s.retiring = true ∧ s.live = 0 := by simpa using hlast
      exact h.endFor (by rw [hphase]; rfl) ⟨hretiring, deserted_of_live h.live hlive⟩
    · exact h.goOn (by rw [hphase]; rfl) rfl id
  | deadline =>
    rw [State.go, hphase] at hgo
    obtain rfl := Option.some.inj hgo
    split
    · rename_i hexpired
      exact h.endFor (by rw [hphase]; rfl) (holds_deadline (Bool.and_eq_true_iff.1 hexpired).2)
    · exact h.goOn (by rw [hphase]; rfl) rfl id
  | counting =>
    rw [State.go, hphase] at hgo
    obtain rfl := Option.some.inj hgo
    split
    · rename_i hidle
      exact h.goto (by rw [hphase]; rfl) (fun _ hreason ↦ absurd hreason (by simp [Phase.reason?]))
        fun _ ↦ ⟨hidle.1, deserted_of_live h.live hidle.2⟩
    · exact h.goOn (by rw [hphase]; rfl) rfl id
  | reading =>
    rw [State.go, hphase] at hgo
    obtain rfl := Option.some.inj hgo
    exact h.goto (by rw [hphase]; rfl) (fun _ hreason ↦ absurd hreason (by simp [Phase.reason?]))
      fun _ ↦ h.leaves (by rw [hphase]; trivial)
  | judging now =>
    rw [State.go, hphase] at hgo
    obtain rfl := Option.some.inj hgo
    obtain ⟨hidle, hdeserted⟩ := h.leaves (by rw [hphase]; trivial)
    split
    · rename_i hwaited
      rw [hlook] at hwaited
      refine h.endFor (by rw [hphase]; rfl) ⟨hidle, hdeserted, .of_look hstart hwaited,
        fun session hsession time htime ↦ ?_⟩
      -- A session that is counted out has left its mark.
      obtain ⟨time', rfl⟩ := hdeserted session hsession
      exact .of_look (hmarks _ hsession time htime) hwaited
    · exact h.goOn (by rw [hphase]; rfl) rfl id
  | ending reason =>
    rw [State.go, hphase] at hgo
    obtain rfl := Option.some.inj hgo
    refine ⟨⟨h.live, h.since, ?_, fun reason' hreason ↦ ?_⟩, h.start_le, h.time_le, h.mark,
      False.elim⟩
    · have hunlinks := h.unlinks
      rw [hphase] at hunlinks
      cases hretiring : s.retiring <;> simp_all [Phase.isGone]
    · exact h.reason reason' (by rw [hphase]; exact hreason)

theorem step (h : s.Inv settings start lag) (hprompt : Prompt lag s a)
    (hstep : s.step settings a = some t) : t.Inv settings start lag := by
  cases a with
  | pass n =>
    obtain rfl := Option.some.inj hstep
    exact h.pass n
  | accept =>
    rw [State.step] at hstep
    split_ifs at hstep with hphase
    obtain rfl := Option.some.inj hstep
    exact h.accept hphase
  | tick =>
    rw [State.step] at hstep
    split_ifs at hstep with hphase
    obtain rfl := Option.some.inj hstep
    exact h.goOn (by rw [hphase]; rfl) rfl id
  | signal =>
    rw [State.step] at hstep
    split_ifs at hstep with hphase
    obtain rfl := Option.some.inj hstep
    exact h.endFor (by rw [hphase]; rfl) trivial
  | acceptFails =>
    rw [State.step] at hstep
    split_ifs at hstep with hphase
    obtain rfl := Option.some.inj hstep
    exact h.endFor (by rw [hphase]; rfl) trivial
  | watch reading sinceUnload sinceTrim after =>
    rw [State.step] at hstep
    split_ifs at hstep with hphase
    obtain rfl := Option.some.inj hstep
    -- The watch retires a daemon that serves, not one that has already retired.
    have hretires : reading.any (s.retires settings · sinceUnload sinceTrim after) = true →
        s.retiring = false := fun hany ↦ by
      cases reading with
      | none => exact absurd hany (by simp)
      | some reading => exact retiring_of_retires hany
    exact (h.retireIf hretires (by rw [hphase]; rfl) (by rw [hphase]; rfl)).goOn
      (by rw [phase_retireIf, hphase]; rfl) rfl id
  | compare replaced =>
    rw [State.step] at hstep
    split_ifs at hstep with hphase
    obtain rfl := Option.some.inj hstep
    have hretires : (!s.retiring && replaced) = true → s.retiring = false := fun hand ↦ by
      simpa using (Bool.and_eq_true_iff.1 hand).1
    exact (h.retireIf hretires (by rw [hphase]; rfl) (by rw [hphase]; rfl)).goOn
      (by rw [phase_retireIf, hphase]; rfl) rfl id
  | go => exact h.go hstep
  | depart i =>
    rw [State.step] at hstep
    split_ifs at hstep with hi
    obtain rfl := Option.some.inj hstep
    exact h.depart hi
  | mark i =>
    cases hi : s.sessions[i]? with
    | none => exact absurd hstep (by simp [State.step, hi])
    | some session =>
      cases session with
      | departing time =>
        simp only [State.step, hi] at hstep
        obtain rfl := Option.some.inj hstep
        -- The one step whose lateness the assumption on the scheduler bounds.
        exact h.leaveMark hi (hprompt i time rfl hi)
      | serving | marked | left | lost => exact absurd hstep (by simp [State.step, hi])
  | leave i =>
    cases hi : s.sessions[i]? with
    | none => exact absurd hstep (by simp [State.step, hi])
    | some session =>
      cases session with
      | marked time =>
        simp only [State.step, hi] at hstep
        obtain rfl := Option.some.inj hstep
        exact h.leave hi
      | serving | departing | left | lost => exact absurd hstep (by simp [State.step, hi])
  | panic i =>
    rw [State.step] at hstep
    split_ifs at hstep with hi
    obtain rfl := Option.some.inj hstep
    exact h.panic hi

end State.Inv

theorem inv_start : (machine settings start).start.Inv settings start lag where
  live := rfl
  since := rfl
  unlinks := rfl
  reason := fun _ hreason ↦ absurd hreason (by simp [machine, Phase.reason?])
  start_le := Nat.le_refl _
  time_le := fun _ hsession ↦ absurd hsession List.not_mem_nil
  mark := ⟨start, rfl, Nat.le_add_right _ _, fun _ hsession ↦ absurd hsession List.not_mem_nil⟩
  leaves := False.elim

/-- **The end of a daemon, over whole runs.** However the sessions end beside the loop, the count
is that of the sessions that have not been counted out, and the socket's file is removed once. A
signal ends the daemon at any time, as does an accept that fails. One that ends without either has
retired and its last client has left, or has retired and its grace is over, or has been idle: it has
had no client for the idle time — less a second, for the clock is read in whole ones, and less what
a session takes from its look at the clock to its mark. -/
theorem lives_of_reachable (h : (machine settings start).Reachable (Prompt lag) s) :
    s.Lives settings start lag :=
  (h.invariant inv_start fun _ _ _ hprompt hstep ih ↦ ih.step hprompt hstep).toLives

/-- Whether a mark is left in time. -/
def isPrompt (lag : ℕ) (s : State) : Action → Bool
  | .mark i =>
    match s.sessions[i]? with
    | some (.departing time) => s.clock ≤ time + lag
    | _ => true
  | _ => true

theorem prompt_of_isPrompt (s : State) (a : Action) (h : isPrompt lag s a = true) :
    Prompt lag s a := by
  rintro i time rfl hi
  simp only [isPrompt, hi] at h
  exact of_decide_eq_true h

/-- Two seconds without a client end the daemon. -/
def brief : Settings where
  idle := 2 * second
  retireGrace := 0
  limits := defaultLimits

/-- A turn of the loop in which the memory cannot be read and the binary is the same. -/
def quiet : List Action :=
  [.watch none none none ⟨0, none, by decide⟩, .compare false, .go, .go, .go]

/-- Two sessions end a second apart, and the first to look at the clock is the last to leave its
mark. -/
def crossing : List Action :=
  .accept :: quiet ++ .accept :: quiet ++
  [.depart 0, .pass second, .depart 1, .mark 1, .mark 0, .leave 0, .leave 1, .pass second, .tick] ++
  quiet ++ [.go, .go, .go]

/-- The daemon ends a second after its last client has left. -/
theorem lives_crossing : ∃ s, (machine brief 0).Reachable (Prompt second) s ∧
    s.phase = .gone (.idle (2 * second)) ∧ .left second ∈ s.sessions ∧ s.Lives brief 0 second := by
  have hrun : (((machine brief 0).runIf (isPrompt second) (machine brief 0).start crossing).any
      fun s ↦ decide (s.phase = .gone (.idle (2 * second)) ∧ .left second ∈ s.sessions)) =
        true := by
    decide
  obtain ⟨s, hs, h⟩ := (Option.any_eq_true ..).1 hrun
  have hreach : (machine brief 0).Reachable (Prompt second) s :=
    ⟨crossing, runs_of_runIf prompt_of_isPrompt hs⟩
  obtain ⟨hphase, hleft⟩ := of_decide_eq_true h
  exact ⟨s, hreach, hphase, hleft, lives_of_reachable hreach⟩

end RustCodeMcp.Departures
