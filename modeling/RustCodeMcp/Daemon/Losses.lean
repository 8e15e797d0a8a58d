import RustCodeMcp.Daemon.Answers
import RustCodeMcp.Machine.Counting

/-!
# How often a lost daemon is replaced

The relay counts the connections that are lost in a row without a line of their daemon, and gives up
after three. Any line counts, also the answer to a replayed handshake, which the host does not see;
and the count begins anew when the session moves. So at most three daemons are dialed for lost
connections between two of these (`losses_le`), but a daemon that dies after its handshake is
replaced for ever (`respawned_forever`).

Here the daemons send what they like.

**Patience is what is left of three.** Each loss for which a daemon is dialed takes one away, and
nothing gives one back but a line of a daemon or a move; so a run in which neither happens dials
three times at most, and each of these events allows for three more. The statement counts, over any
run, dials on one side and such events on the other.

That any line counts is what lets a daemon be replaced without end: it answers the replayed
handshake, which the host never sees, and is lost again.
-/

namespace RustCodeMcp.Relay

open Machine

variable {Line Value : Type*} [DecidableEq Value] (json : Json Line Value)

namespace State

variable (s : State Line Value)

/-- A turn, with any line of the daemon. -/
def freeTurn : Event Line → Option (State Line Value)
  | .daemonLine line => some (s.deliver json line)
  | e => s.turn json e

/-- One turn, and none once the relay has returned. -/
def freeStep (e : Event Line) : Option (State Line Value) :=
  if s.verdict.isSome then none else s.halfClose.freeTurn json e

/-- A lost connection comes to the dial. -/
def redials : Bool :=
  (s.inputOpen || !s.conversation.pending.isEmpty) && s.conversation.consumed &&
    decide ((if s.delivered then 1 else s.quickLosses + 1) ≤ quickLossesBeforeGivingUp)

/-- A daemon is dialed since the connection is lost. -/
def dialsForLoss : Event Line → Bool
  | .readLost _ _ => s.halfClose.redials
  | .hostLine line (some _) _ => (s.halfClose.consume json line).redials
  | _ => false

/-- The count of losses begins anew: a line of the daemon, or a move. -/
def countsAnew : Event Line → Bool
  | .daemonLine _ => true
  | .tick superseded (some n) => superseded && s.halfClose.conversation.pending.isEmpty &&
      !(s.halfClose.dialed s.halfClose.conversation.replay.1.toDaemon n).broken
  | _ => false

/-- The host sends nothing, and no line of a daemon is forwarded to it. -/
def Quiet (e : Event Line) : Prop :=
  match e with
  | .hostLine _ _ _ => False
  | .daemonLine line => (s.conversation.fromDaemon json line).1 = false
  | _ => True

end State

/-- The relay, with daemons that send what they like. -/
def freeMachine : Machine (State Line Value) (Event Line) where
  start := (machine json).start
  step := State.freeStep json

variable {json}

namespace State

variable {s t : State Line Value} {e : Event Line}

/-- How many more losses the relay takes. -/
def patience (s : State Line Value) : ℕ :=
  if s.verdict.isSome then 0
  else if s.delivered then quickLossesBeforeGivingUp
  else quickLossesBeforeGivingUp - s.quickLosses

omit [DecidableEq Value] in
theorem patience_le (s : State Line Value) : s.patience ≤ 3 := by
  rw [patience, quickLossesBeforeGivingUp]
  split_ifs <;> omega

omit [DecidableEq Value] in
theorem patience_of_verdict (h : s.verdict.isSome) : s.patience = 0 :=
  if_pos h

omit [DecidableEq Value] in
/-- How often in a row, with this one. -/
theorem patience_succ (hverdict : s.verdict = none)
    (h : (if s.delivered then 1 else s.quickLosses + 1) ≤ 3) :
    3 - (if s.delivered then 1 else s.quickLosses + 1) + 1 ≤ s.patience := by
  rw [patience, hverdict, quickLossesBeforeGivingUp]
  show _ ≤ if s.delivered then 3 else 3 - s.quickLosses
  split_ifs at h ⊢ <;> omega

/-- A loss takes one, if a daemon is dialed for it. -/
theorem patience_lost (hverdict : s.verdict = none) (reason : String) (dial : Dial) :
    s.redials.toNat + (s.lost reason dial).patience ≤ s.patience := by
  rw [lost]
  split
  case isTrue hserved =>
    have hnot : s.redials = false := by
      simp only [Bool.and_eq_true, Bool.not_eq_true'] at hserved
      simp [redials, hserved]
    rw [hnot, patience_of_verdict rfl]
    exact Nat.zero_le _
  case isFalse hopen =>
    split
    case isTrue hunserved =>
      have hnot : s.redials = false := by
        simp only [Bool.not_eq_true'] at hunserved
        simp [redials, hunserved]
      rw [hnot, patience_of_verdict rfl]
      exact Nat.zero_le _
    case isFalse hconsumed =>
      have hsucc := patience_succ hverdict
      have hredials : s.redials.toNat ≤ 1 := Bool.toNat_le _
      have hmany : 3 < (if s.delivered then 1 else s.quickLosses + 1) → s.redials = false :=
        fun hlt ↦ by
          rw [redials, quickLossesBeforeGivingUp, decide_eq_false (Nat.not_le.2 hlt),
            Bool.and_false]
      simp only
      generalize (if s.delivered then 1 else s.quickLosses + 1) = q at hsucc hmany
      split
      case isTrue hlt =>
        rw [hmany hlt, patience_of_verdict rfl]
        exact Nat.zero_le _
      case isFalse hle =>
        have hsucc := hsucc (Nat.not_lt.1 hle)
        rcases dial with - | n
        · simp only [patience_of_verdict (s := s.abandon _) rfl]
          omega
        · have hnext : (s.reconnect q n).patience = 3 - q := by
            rw [patience, show (s.reconnect q n).verdict = none from hverdict]
            rfl
          simp only [hnext]
          omega

omit [DecidableEq Value] in
theorem patience_halfClose (s : State Line Value) : s.halfClose.patience = s.patience := by
  rw [s.halfClose_eq]
  rfl

theorem freeStep_eq (h : ∀ line, e ≠ .daemonLine line) : s.freeStep json e = s.step json e := by
  rw [freeStep, step]
  cases e with
  | daemonLine line => exact absurd rfl (h line)
  | _ => rfl

/-- A quiet step takes one if a daemon is dialed for a loss, and fills up when the count begins
anew. -/
theorem patience_step (hquiet : s.Quiet json e) (hstep : s.freeStep json e = some t) :
    (s.dialsForLoss json e).toNat + t.patience ≤ s.patience + 3 * (s.countsAnew e).toNat := by
  rw [← s.patience_halfClose]
  by_cases hline : ∃ line, e = .daemonLine line
  · obtain ⟨line, rfl⟩ := hline
    have := t.patience_le
    show 0 + _ ≤ _ + 3 * 1
    omega
  · rw [freeStep_eq fun line heq ↦ hline ⟨line, heq⟩] at hstep
    obtain ⟨hverdict, hturned⟩ := turned_of_step hstep
    have hverdict : s.halfClose.verdict = none := by rwa [s.halfClose_eq]
    cases hturned with
    | hostClosed | ticked => exact Nat.zero_add _ ▸ Nat.le_add_right _ _
    | written | unwritten => exact hquiet.elim
    | delivered line => exact absurd ⟨line, rfl⟩ hline
    | readLost loss dial => exact patience_lost hverdict _ dial
    | drained =>
      rw [patience_of_verdict rfl]
      exact Nat.zero_le _
    | moved n hpending =>
      show 0 + _ ≤ _ + 3 * Bool.toNat (_ && _ && _)
      rw [move, hpending]
      split
      case isTrue hbroken =>
        have hstay : ∀ next, (s.halfClose.stay next).patience = s.halfClose.patience := fun _ ↦ rfl
        rw [hstay]
        omega
      case isFalse hwhole =>
        have := (s.halfClose.moveTo
          (s.halfClose.dialed s.halfClose.conversation.replay.1.toDaemon n)).patience_le
        rw [eq_false_of_ne_true hwhole]
        show 0 + _ ≤ _ + 3 * 1
        omega

end State

/-- **Three lost daemons are replaced at most**, and three more for each time that the count begins
anew, once the host sends nothing and no line of a daemon is forwarded to it. -/
theorem losses_le (json : Json Line Value) (s t : State Line Value) (es : List (Event Line))
    (h : (freeMachine json).Runs (State.Quiet json) s es t) :
    (freeMachine json).count (State.dialsForLoss json) s es ≤
      3 * (1 + (freeMachine json).count State.countsAnew s es) := by
  have hcount : (freeMachine json).count (State.dialsForLoss json) s es + t.patience ≤
      s.patience + 3 * (freeMachine json).count State.countsAnew s es :=
    h.count_le State.patience fun _ _ _ ↦ State.patience_step
  have := s.patience_le
  omega

/-! ### A daemon that dies after its handshake -/

/-- The host has its handshake, and waits for nothing. -/
structure State.Served (s : State Doc Doc) : Prop where
  verdict : s.verdict = none
  inputOpen : s.inputOpen = true
  delivered : s.delivered = true
  conversation : s.conversation =
    { handshake := some ⟨.number 1, .object (some 1) (some "initialize"), true⟩
      initialized := none
      pending := []
      swallow := none
      consumed := true }

/-- The connection is lost, and the next daemon answers the handshake. -/
def dying : List (Event Doc) :=
  [.readLost .closed (some 1), .daemonLine (.object (some 1) none)]

/-- One lost daemon is replaced, by one that answers the handshake. -/
theorem losses_le_dying : ∃ s : State Doc Doc, s.Served ∧
    (freeMachine docs).count (State.dialsForLoss docs) s dying ≤
      3 * (1 + (freeMachine docs).count State.countsAnew s dying) := by
  have hserved : State.Served ((freeMachine docs).run (freeMachine docs).start handshaken |>.get
      (by decide)) := ⟨rfl, rfl, rfl, rfl⟩
  exact ⟨_, hserved, losses_le docs _ _ _ (Runs.cons trivial rfl (Runs.cons rfl rfl .nil))⟩

theorem State.Served.dying {s : State Doc Doc} (h : s.Served) : ∃ t : State Doc Doc, t.Served ∧
    (freeMachine docs).Runs (State.Quiet docs) s dying t ∧
      (freeMachine docs).count (State.dialsForLoss docs) s dying = 1 := by
  obtain ⟨conversation, wire, delivered, halfClosed, inputOpen, draining,
    quickLosses, verdict, left, read, told⟩ := s
  obtain ⟨rfl, rfl, rfl, rfl⟩ := h
  exact ⟨_, ⟨rfl, rfl, rfl, rfl⟩, Runs.cons trivial rfl (Runs.cons rfl rfl .nil), rfl⟩

/-- Ever more daemons are dialed, none of which forwards a line to the host. -/
theorem State.Served.exists_run {s : State Doc Doc} (h : s.Served) (n : ℕ) : ∃ es t,
    t.Served ∧ (freeMachine docs).Runs (State.Quiet docs) s es t ∧
      (freeMachine docs).count (State.dialsForLoss docs) s es = n := by
  induction n with
  | zero => exact ⟨[], s, h, .nil, rfl⟩
  | succ n ih =>
    obtain ⟨es, t, ht, hruns, hcount⟩ := ih
    obtain ⟨u, hu, hruns', hcount'⟩ := ht.dying
    exact ⟨es ++ RustCodeMcp.Relay.dying, u, hu, hruns.append hruns', by
      rw [hruns.count_append, hcount, hcount']⟩

/-- **A daemon that dies after its handshake is replaced for ever.** -/
theorem respawned_forever : ¬∃ bound, ∀ s : State Doc Doc,
    (freeMachine docs).Reachable Any s → ∀ es t, (freeMachine docs).Runs (State.Quiet docs) s es t →
      (freeMachine docs).count (State.dialsForLoss docs) s es ≤ bound := by
  rintro ⟨bound, h⟩
  have hrun := Option.some_get (by decide : ((freeMachine docs).run (freeMachine docs).start
    handshaken).isSome = true)
  have hserved : State.Served ((freeMachine docs).run (freeMachine docs).start handshaken |>.get
      (by decide)) := ⟨rfl, rfl, rfl, rfl⟩
  obtain ⟨es, t, -, hruns, hcount⟩ := hserved.exists_run (bound + 1)
  have := h _ (reachable_of_run hrun.symm) es t hruns
  omega

end RustCodeMcp.Relay
