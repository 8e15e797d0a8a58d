import RustCodeMcp.Daemon.Answers

/-!
# What goes over a connection

Three invariants of the relay, each by its own step lemma.

* `State.Sent`: a request goes to two connections at most, and a call of a state-changing tool to
  one. This counts what `Pending.sent` counts.
* `State.Drains`: the end of a connection is waited for only once nothing is pending, so a
  connection that was not lost is left only when nobody waits (`Drains.left`).
* `State.Ordered`: what goes over a connection is the handshake, some of the requests without an
  answer, and what the host sends from then on (`Wire.Follows`).

The first two hold of every run with distinct request ids. The last one rests on nothing being
written to a connection after a write to it has failed (`State.Intact`), which is how a connection
behaves that is gone.
-/

namespace RustCodeMcp.Relay

open Machine

variable {Line Value : Type*} [DecidableEq Value] {json : Json Line Value}

/-- The handshake of the host: its `initialize`, and its `notifications/initialized` after that. -/
def handshakeOf (json : Json Line Value) (before : List Line) : List Line :=
  match (before.filter (isInitialize json)).getLast? with
  | some line => line :: ((before.filter (isInitialized json)).getLast?).toList
  | none => []

/-- The requests that the host has not been told the answer to. -/
def unansweredOf (json : Json Line Value) (before : List Line)
    (told : List (Told Line Value)) : List Line :=
  before.filter fun line ↦ (requestId json line).any fun id ↦ answers json id told = 0

/-- What was written to the connection is the beginning of: the handshake, some of the requests
without an answer, what the host has sent since. -/
def Wire.Follows (json : Json Line Value) (wire : Wire Line Value) (read : List Line) : Prop :=
  ∃ repeated : List Line, repeated.Sublist (unansweredOf json wire.before wire.told) ∧
    wire.written <+: handshakeOf json wire.before ++ repeated ++ read.drop wire.before.length

theorem drop_concat {α : Type*} {l l' : List α} (h : l' <+: l) (a : α) :
    (l ++ [a]).drop l'.length = l.drop l'.length ++ [a] :=
  List.drop_append_of_le_length h.length_le

theorem Wire.Follows.concat {wire : Wire Line Value} {read : List Line} (h : wire.Follows json read)
    (hbefore : wire.before <+: read) (line : Line) : wire.Follows json (read ++ [line]) := by
  obtain ⟨repeated, hsub, hpre⟩ := h
  refine ⟨repeated, hsub, ?_⟩
  rw [drop_concat hbefore, ← List.append_assoc]
  exact hpre.trans (List.prefix_append _ _)

/-- Whether the event is the loss of the connection. -/
def Event.loses : Event Line → Bool
  | .readLost _ _ | .hostLine _ (some _) _ => true
  | _ => false

namespace State

/-- The connections there have been. -/
def wires (s : State Line Value) : List (Wire Line Value) :=
  s.wire :: s.left

/-- How many connections the request was written to. -/
def connections (json : Json Line Value) (s : State Line Value) (id : Value) : ℕ :=
  s.wires.countP fun wire ↦ id ∈ requests json wire.written

/-- Nothing is written to a connection after a write to it has failed. -/
def Intact (s : State Line Value) (e : Event Line) : Prop :=
  ∀ (line : Line) (dial : Dial), e = .hostLine line none dial → s.wire.broken = false

/-! ### How often -/

/-- A pending request has gone over no more connections than it notes, no request over more than
two, and a call of a state-changing tool over one. -/
structure Sent (json : Json Line Value) (s : State Line Value) : Prop where
  known : ∀ wire ∈ s.wires, requests json wire.written ⊆ requests json s.read
  /-- `sent` counts the connections of what may be repeated. -/
  pending : ∀ p ∈ s.conversation.pending, isInitialize json p.line = false →
    1 ≤ p.sent ∧ s.connections json p.id ≤ p.sent ∧ p.sent ≤ 2 ∧
      (p.stateChanging.isSome = true → p.sent = 1)
  read : ∀ line ∈ s.read, ∀ id, requestId json line = some id → isInitialize json line = false →
    s.connections json id ≤ 2 ∧
      ((stateChangingTool json line).isSome = true → s.connections json id ≤ 1)

variable {s s' : State Line Value} {line : Line} {id : Value} {e : Event Line}

theorem Sent.connections_eq_zero (h : s.Sent json) (hid : id ∉ requests json s.read) :
    s.connections json id = 0 := by
  refine List.countP_eq_zero.2 fun wire hwire hmem ↦ hid (h.known wire hwire ?_)
  exact of_decide_eq_true hmem

/-- Only what was written, what the host has sent and what is pending matters. -/
theorem Sent.congr (h : s.Sent json) (hwires : s'.wires.map Wire.written = s.wires.map Wire.written)
    (hread : s'.read = s.read) (hpending : s'.conversation.pending ⊆ s.conversation.pending) :
    s'.Sent json := by
  have hconn : s'.connections json = s.connections json := by
    funext id
    have hmap : ∀ t : State Line Value, t.connections json id =
        (t.wires.map Wire.written).countP fun written ↦ id ∈ requests json written := by
      intro t
      rw [List.countP_map]
      rfl
    rw [hmap, hmap, hwires]
  refine ⟨fun wire hwire ↦ ?_, fun p hp hi ↦ hconn ▸ h.pending p (hpending hp) hi,
    fun line hline id hid hi ↦ hconn ▸ h.read line (hread ▸ hline) id hid hi⟩
  have hmem : wire.written ∈ s.wires.map Wire.written := hwires ▸ List.mem_map_of_mem hwire
  obtain ⟨old, hold, heq⟩ := List.mem_map.1 hmem
  rw [← heq, hread]
  exact h.known old hold

/-- A new line of the host is pending for the first time. -/
theorem Sent.consume (h : s.Sent json)
    (hnew : ∀ id, requestId json line = some id → id ∉ requests json s.read) :
    (s.consume json line).Sent json := by
  have hconv := s.conversation.fromHost_eq line json
  have hread : requests json s.read ⊆ requests json (s.read ++ [line]) :=
    requests_subset (List.subset_append_left _ _)
  refine ⟨fun wire hwire id hid ↦ hread (h.known wire hwire hid), fun p hp hi ↦ ?_,
    fun l hl id hid hi ↦ ?_⟩
  · rw [show (s.consume json line).conversation = _ from hconv] at hp
    rcases List.mem_append.1 hp with hp | hp
    · exact h.pending p ((s.conversation.uncancelled_sublist line json).subset hp) hi
    · obtain ⟨-, hsent, hid, -⟩ := mem_ofLine hp
      have hzero : (s.consume json line).connections json p.id = 0 :=
        h.connections_eq_zero (hnew _ hid)
      rw [hsent, hzero]
      omega
  · rcases List.mem_append.1 hl with hl | hl
    · exact h.read l hl id hid hi
    · obtain rfl := List.mem_singleton.1 hl
      have hzero : (s.consume json l).connections json id = 0 := h.connections_eq_zero (hnew _ hid)
      rw [hzero]
      omega

/-- The line is written to the connection in use. -/
theorem Sent.write (h : s.Sent json) (hline : line ∈ s.read)
    (hnew : ∀ id, requestId json line = some id → s.connections json id = 0) :
    (s.write line).Sent json := by
  have hconn : ∀ id, (s.write line).connections json id =
      if requestId json line = some id then 1 else s.connections json id := by
    intro id
    have hmem : id ∈ requests json (s.wire.written ++ [line]) ↔
        id ∈ requests json s.wire.written ∨ requestId json line = some id := by
      rw [requests_append, requests_singleton, List.mem_append, Option.mem_toList]
    have hwritten : (s.write line).connections json id =
        s.left.countP (fun wire ↦ id ∈ requests json wire.written) +
          if id ∈ requests json (s.wire.written ++ [line]) then 1 else 0 := by
      simp only [connections, wires, List.countP_cons, decide_eq_true_eq]
      rfl
    have hold : s.connections json id = s.left.countP (fun wire ↦ id ∈ requests json wire.written) +
        if id ∈ requests json s.wire.written then 1 else 0 := by
      simp only [connections, wires, List.countP_cons, decide_eq_true_eq]
    split_ifs with hid
    · have hzero := hnew id hid
      rw [hwritten, if_pos (hmem.2 (.inr hid))]
      omega
    · rw [hwritten, hold]
      refine congrArg (_ + ·) (if_congr ?_ rfl rfl)
      rw [hmem]
      exact or_iff_left hid
  refine ⟨fun wire hwire ↦ ?_, fun p hp hi ↦ ?_, fun l hl id hid hi ↦ ?_⟩
  · rcases List.mem_cons.1 hwire with rfl | hwire
    · show requests json (s.wire.written ++ [line]) ⊆ _
      rw [requests_append, List.append_subset]
      exact ⟨h.known s.wire List.mem_cons_self,
        requests_subset (List.cons_subset.2 ⟨hline, List.nil_subset _⟩)⟩
    · exact h.known wire (List.mem_cons_of_mem _ hwire)
  · obtain ⟨hone, hle, hrest⟩ := h.pending p hp hi
    refine ⟨hone, ?_, hrest⟩
    rw [hconn]
    split_ifs
    · exact hone
    · exact hle
  · have hold := h.read l hl id hid hi
    rw [hconn]
    split_ifs
    · exact ⟨by omega, fun _ ↦ Nat.le_refl 1⟩
    · exact hold

/-- A request with the id of the handshake is an `initialize`. -/
theorem Inv.isInitialize_of_id (h : s.Inv json) {hs : Handshake Line Value}
    (heq : s.conversation.handshake = some hs) (hline : line ∈ s.read)
    (hid : requestId json line = some hs.id) : isInitialize json line = true := by
  obtain ⟨hmem, hinit⟩ := h.handshake_mem heq
  obtain rfl := eq_of_requestId h.nodup hline hmem hid (h.handshakeId hs heq)
  exact hinit

omit [DecidableEq Value] in
/-- What may be repeated was sent once, and changes nothing. -/
theorem sent_of_refusal {p : Pending Line Value} (h : p.refusal = none) :
    p.sent < 2 ∧ p.stateChanging = none := by
  unfold Pending.refusal at h
  split at h
  next => cases h
  next hsc =>
    split_ifs at h with hle
    exact ⟨Nat.lt_of_not_le hle, hsc⟩

/-- A request that is carried over, and is not an `initialize`, was sent to one connection less. -/
theorem Sent.carried (h : s.Sent json) (hinv : s.Inv json) (n : ℕ) (hline : line ∈ s.read)
    (hid : requestId json line = some id) (hi : isInitialize json line = false)
    (hmem : id ∈ requests json (s.dialed s.conversation.replay.1.toDaemon n).written) :
    s.connections json id ≤ 1 ∧ stateChangingTool json line = none := by
  have hmem' := requests_subset (List.take_subset _ _) hmem
  rw [hinv.requests_toDaemon] at hmem'
  rcases List.mem_append.1 hmem' with hmem' | hmem'
  · obtain ⟨hs, hhs, rfl⟩ := List.mem_map.1 hmem'
    rw [hinv.isInitialize_of_id (Option.mem_toList.1 hhs) hline hid] at hi
    cases hi
  · obtain ⟨p, hp, rfl⟩ := List.mem_map.1 hmem'
    obtain ⟨hp, hrep⟩ := List.mem_filter.1 hp
    obtain ⟨hpid, hpsc⟩ := hinv.pending p hp
    have hsame := eq_of_requestId hinv.nodup hline
      (hinv.sublist.subset (List.mem_map_of_mem hp)) hid hpid
    obtain ⟨hsent, hsc⟩ := sent_of_refusal
      (Option.isNone_iff_eq_none.1 (Bool.and_eq_true_iff.1 hrep).2)
    obtain ⟨-, hle, -⟩ := h.pending p hp (hsame ▸ hi)
    exact ⟨by omega, by rw [hsame, ← hpsc, hsc]⟩

/-- One more connection, to which the conversation is carried over. -/
theorem Sent.dialed (h : s.Sent json) (hinv : s.Inv json) (n : ℕ) (hread : s'.read = s.read)
    (hpending : s'.conversation.pending = s.conversation.replay.2.pending)
    (hwires : s'.wires.Perm (s.dialed s.conversation.replay.1.toDaemon n :: s.wires)) :
    s'.Sent json := by
  have hconn : ∀ id, s'.connections json id = s.connections json id +
      if id ∈ requests json (s.dialed s.conversation.replay.1.toDaemon n).written then 1
        else 0 := by
    intro id
    refine (hwires.countP_eq _).trans ?_
    simp only [List.countP_cons, decide_eq_true_eq]
    rfl
  refine ⟨fun wire hwire ↦ ?_, fun p hp hi ↦ ?_, fun l hl id hid hi ↦ ?_⟩
  · rw [hread]
    rcases List.mem_cons.1 (hwires.subset hwire) with rfl | hwire
    · exact hinv.written_dialed n
    · exact h.known wire hwire
  · rw [hpending] at hp
    obtain ⟨p', hp', hid, hline, hsc, hcase⟩ := Conversation.mem_replay_pending hp
    rw [hline] at hi
    obtain ⟨hone, hle, -⟩ := h.pending p' hp' hi
    rcases hcase with ⟨hh, -⟩ | ⟨-, hr, hsent⟩
    · -- The handshake is an `initialize`.
      obtain ⟨hs, heq, hid'⟩ := (Option.any_eq_true _ _).1 hh
      have hrid := (hinv.pending p' hp').1
      rw [← of_decide_eq_true hid'] at hrid
      rw [hinv.isInitialize_of_id heq (hinv.sublist.subset (List.mem_map_of_mem hp')) hrid] at hi
      cases hi
    · obtain ⟨hlt, hnone⟩ := sent_of_refusal hr
      rw [hconn, hid, hsent, hsc, hnone]
      refine ⟨by omega, ?_, by omega, nofun⟩
      split_ifs <;> omega
  · obtain ⟨htwo, hone⟩ := h.read l (hread ▸ hl) id hid hi
    rw [hconn]
    split_ifs with hmem
    · obtain ⟨hle, hnone⟩ := h.carried hinv n (hread ▸ hl) hid hi hmem
      rw [hnone]
      exact ⟨by omega, nofun⟩
    · exact ⟨htwo, hone⟩

theorem Sent.reconnect (h : s.Sent json) (hinv : s.Inv json) (q n : ℕ) :
    (s.reconnect q n).Sent json :=
  h.dialed hinv n rfl rfl ((List.perm_append_singleton _ _).cons _)

theorem Sent.move (h : s.Sent json) (hinv : s.Inv json) (n : ℕ) : (s.move n).Sent json := by
  unfold State.move
  simp only
  split_ifs
  · refine h.dialed hinv n rfl rfl ?_
    exact ((List.perm_append_singleton _ _).cons _).trans (List.Perm.swap _ _ _)
  · exact h.dialed hinv n rfl rfl ((List.perm_append_singleton _ _).cons _)

/-- A lost connection is replaced, or the session ends. -/
theorem Sent.lost (h : s.Sent json) (hinv : s.Inv json) (reason : String) (dial : Dial) :
    (s.lost reason dial).Sent json := by
  obtain ⟨-, -, heq⟩ | heq | ⟨_, heq⟩ | ⟨q, n, heq⟩ := s.lost_cases reason dial <;> rw [heq]
  · exact h.congr rfl rfl (List.Subset.refl _)
  · exact h.congr rfl rfl (List.Subset.refl _)
  · exact h.congr rfl rfl (List.nil_subset _)
  · exact h.reconnect hinv q n

theorem Sent.deliver (h : s.Sent json) (line : Line) : (s.deliver json line).Sent json := by
  refine h.congr rfl rfl ?_
  rw [s.deliver_pending]
  exact List.filter_sublist.subset

/-- **Every step keeps the count.** -/
theorem Sent.step (h : s.Sent json) (hinv : s.Inv json)
    (hdistinct : s.Distinct json e) (hstep : s.step json e = some s') : s'.Sent json := by
  obtain ⟨-, hturned⟩ := turned_of_step hstep
  have hread : s.halfClose.read = s.read := by rw [s.halfClose_eq]
  have hclosed : s.halfClose.Sent json := by
    rw [s.halfClose_eq]
    exact h.congr rfl rfl (List.Subset.refl _)
  have hinv := hinv.halfClose
  generalize s.halfClose = t at hclosed hinv hturned hread
  cases hturned with
  | hostClosed | ticked | drained => exact hclosed.congr rfl rfl (List.Subset.refl _)
  | written line dial =>
    have hnew : ∀ id, requestId json line = some id → id ∉ requests json t.read := fun id hid ↦
      hread ▸ hdistinct line none dial id rfl hid
    refine (hclosed.consume hnew).write (List.mem_append_right _ (List.mem_singleton_self _))
      fun id hid ↦ ?_
    exact hclosed.connections_eq_zero (hnew id hid)
  | unwritten line error dial reason =>
    have hnew : ∀ id, requestId json line = some id → id ∉ requests json t.read := fun id hid ↦
      hread ▸ hdistinct line (some error) dial id rfl hid
    exact (hclosed.consume hnew).lost (hinv.consume hnew) reason dial
  | delivered line howes => exact hclosed.deliver line
  | readLost loss dial => exact hclosed.lost hinv _ dial
  | moved n hpending => exact hclosed.move hinv n

/-! ### When a connection is left -/

/-- The end of a connection is waited for only when nothing is pending. -/
def Drains (s : State Line Value) : Prop :=
  s.draining = true → s.inputOpen = false ∧ s.conversation.pending = []

omit [DecidableEq Value] in
/-- The end of the input is passed on when nobody waits. -/
theorem Drains.halfClose (h : s.Drains) : s.halfClose.Drains := by
  intro hd
  unfold State.halfClose at hd ⊢
  split_ifs at hd ⊢ with hclose
  · simp only [Bool.and_eq_true, Bool.not_eq_true', List.isEmpty_iff] at hclose
    exact ⟨hclose.1.1, hclose.2⟩
  · exact h hd

theorem Drains.lost (h : s.Drains) (reason : String) (dial : Dial) :
    (s.lost reason dial).Drains := by
  obtain ⟨-, -, heq⟩ | heq | ⟨_, heq⟩ | ⟨q, n, heq⟩ := s.lost_cases reason dial <;> rw [heq]
  · exact h
  · exact h
  · exact fun hd ↦ ⟨(h hd).1, rfl⟩
  · exact nofun

/-- Every step keeps it. -/
theorem Drains.step (h : s.Drains) (hstep : s.step json e = some s') : s'.Drains := by
  obtain ⟨-, hturned⟩ := turned_of_step hstep
  have h := h.halfClose
  generalize s.halfClose = t at h hturned
  cases hturned with
  | hostClosed => exact fun hd ↦ ⟨rfl, (h hd).2⟩
  | ticked | drained => exact h
  | written line dial hopen => exact fun hd ↦ absurd (hopen.symm.trans (h hd).1) nofun
  | unwritten line error dial reason hopen =>
    exact Drains.lost (s := t.consume json line)
      (fun hd ↦ absurd (hopen.symm.trans (h hd).1) nofun) reason dial
  | delivered line howes =>
    refine fun hd ↦ ⟨(h hd).1, ?_⟩
    rw [t.deliver_pending, (h hd).2]
    rfl
  | readLost loss dial => exact h.lost _ dial
  | moved n hpending =>
    have hnil : t.conversation.replay.2.pending = [] := by
      show t.conversation.pending.filterMap _ = _
      rw [hpending]
      rfl
    unfold State.move
    simp only
    split_ifs
    · exact fun hd ↦ ⟨(h hd).1, hnil⟩
    · exact fun hd ↦ ⟨(h hd).1, hnil⟩

/-- A connection that was not lost is left, or the session ended on it, when nothing waits any more.
-/
theorem Drains.left (h : s.Drains) (hinv : s.Inv json)
    (hstep : s.step json e = some s') (hloses : e.loses = false)
    (hleft : s'.wire.no ≠ s.wire.no ∨ s'.verdict.isSome = true) (hwaits : Waits json s.read id) :
    0 < answers json id s.told := by
  obtain ⟨hverdict, hturned⟩ := turned_of_step hstep
  have hv : s.halfClose.verdict = none := by rw [s.halfClose_eq]; exact hverdict
  have hsame : s.halfClose.wire = s.wire := by rw [s.halfClose_eq]
  have hdraining := h.halfClose
  have hpending :
    s.halfClose.conversation.pending = s.conversation.pending := by rw [s.halfClose_eq]
  suffices hnil : s.conversation.pending = [] by
    refine (hinv.waits id hwaits).resolve_left ?_
    rw [hnil]
    nofun
  rw [← hpending]
  -- Whatever keeps the connection in use does not end the session.
  have hkept : s'.wire.no = s.halfClose.wire.no → s'.verdict = none → False := by
    intro hno hnone
    rw [hnone, hno, hsame] at hleft
    exact hleft.elim (fun hne ↦ hne rfl) nofun
  generalize s.halfClose = t at hturned hv hdraining hkept
  cases hturned with
  | hostClosed | written | delivered | ticked => exact (hkept rfl hv).elim
  | unwritten | readLost => cases hloses
  | drained hd => exact (hdraining hd).2
  | moved n hnil => exact hnil

/-! ### In which order -/

/-- What is carried over to a new connection. -/
theorem Inv.toDaemon (h : s.Inv json) :
    ∃ repeated : List Line, repeated.Sublist (unansweredOf json s.read s.told) ∧
      s.conversation.replay.1.toDaemon = handshakeOf json s.read ++ repeated := by
  refine ⟨s.conversation.repeated.map Pending.line, ?_, ?_⟩
  · have hsub : (s.conversation.repeated.map Pending.line).Sublist s.read :=
      (List.filter_sublist.map _).trans h.sublist
    rw [← List.filter_eq_self.2 fun line
      (hline : line ∈ s.conversation.repeated.map Pending.line) ↦ ?_]
    · exact hsub.filter _
    · obtain ⟨p, hp, rfl⟩ := List.mem_map.1 hline
      have hp := List.mem_of_mem_filter hp
      rw [(h.pending p hp).1, Option.any_some]
      exact decide_eq_true (h.unanswered p hp)
  · rw [Conversation.replay_toDaemon]
    refine congrArg (· ++ _) ?_
    unfold Conversation.handshakeLines handshakeOf
    rw [← h.handshake, ← h.initialized]
    rcases s.conversation.handshake with - | hs <;> rfl

/-- Every connection was sent a beginning of what it should be; the one in use all of it, unless a
write to it has failed. -/
structure Ordered (json : Json Line Value) (s : State Line Value) : Prop where
  before : ∀ wire ∈ s.wires, wire.before <+: s.read
  follows : ∀ wire ∈ s.wires, wire.Follows json s.read
  /-- Nothing is missing on the connection in use, unless a write to it has failed. -/
  whole : s.verdict = none → s.wire.broken = false →
    ∃ repeated : List Line, repeated.Sublist (unansweredOf json s.wire.before s.wire.told) ∧
      s.wire.written =
        handshakeOf json s.wire.before ++ repeated ++ s.read.drop s.wire.before.length

/-- The connection that the conversation is carried over to. -/
theorem Inv.follows_dialed (h : s.Inv json) (n : ℕ) :
    (s.dialed s.conversation.replay.1.toDaemon n).Follows json s.read := by
  obtain ⟨repeated, hsub, heq⟩ := h.toDaemon
  refine ⟨repeated, hsub, ?_⟩
  show s.conversation.replay.1.toDaemon.take n <+: handshakeOf json s.read ++ repeated ++ _
  rw [heq]
  exact (List.take_prefix _ _).trans (List.prefix_append _ _)

/-- A new connection that has not failed was sent all that is carried over. -/
theorem Inv.whole_dialed (h : s.Inv json) {n : ℕ}
    (hbroken : (s.dialed s.conversation.replay.1.toDaemon n).broken = false) :
    ∃ repeated : List Line, repeated.Sublist (unansweredOf json s.read s.told) ∧
      (s.dialed s.conversation.replay.1.toDaemon n).written =
        handshakeOf json s.read ++ repeated ++ s.read.drop s.read.length := by
  obtain ⟨repeated, hsub, heq⟩ := h.toDaemon
  refine ⟨repeated, hsub, ?_⟩
  rw [List.drop_length, List.append_nil, ← heq]
  exact List.take_of_length_le (Nat.le_of_not_lt (of_decide_eq_false hbroken))

/-- A line of the host that is not written, or not yet: the connection is not whole any more. -/
theorem Ordered.consume_before (h : s.Ordered json) (line : Line) :
    ∀ wire ∈ s.wires, wire.before <+: s.read ++ [line] :=
  fun wire hwire ↦ (h.before wire hwire).trans (List.prefix_append _ _)

theorem Ordered.consume_follows (h : s.Ordered json) (line : Line) :
    ∀ wire ∈ s.wires, wire.Follows json (s.read ++ [line]) :=
  fun wire hwire ↦ (h.follows wire hwire).concat (h.before wire hwire) line

/-- The line goes to a connection to which every write has succeeded. -/
theorem Ordered.written (h : s.Ordered json) (hverdict : s.verdict = none)
    (hbroken : s.wire.broken = false) (line : Line) :
    ((s.consume json line).write line).Ordered json := by
  have hbefore := h.before s.wire List.mem_cons_self
  obtain ⟨repeated, hsub, heq⟩ := h.whole hverdict hbroken
  have hwhole : s.wire.written ++ [line] =
      handshakeOf json s.wire.before ++ repeated ++
        (s.read ++ [line]).drop s.wire.before.length := by
    rw [heq, drop_concat hbefore, List.append_assoc]
  refine ⟨fun wire hwire ↦ ?_, fun wire hwire ↦ ?_, fun _ _ ↦ ⟨repeated, hsub, hwhole⟩⟩
  · rcases List.mem_cons.1 hwire with rfl | hwire
    · exact hbefore.trans (List.prefix_append _ _)
    · exact h.consume_before line wire (List.mem_cons_of_mem _ hwire)
  · rcases List.mem_cons.1 hwire with rfl | hwire
    · exact ⟨repeated, hsub, hwhole ▸ List.prefix_refl _⟩
    · exact h.consume_follows line wire (List.mem_cons_of_mem _ hwire)

/-- A connection is left for one that the conversation is carried over to, or that one is left at
once. -/
theorem Ordered.dialed (hbefore : ∀ wire ∈ s.wires, wire.before <+: s.read)
    (hfollows : ∀ wire ∈ s.wires, wire.Follows json s.read) (hinv : s.Inv json) (n : ℕ)
    (hread : s'.read = s.read)
    (hwires : s'.wires ⊆ s.dialed s.conversation.replay.1.toDaemon n :: s.wires) :
    (∀ wire ∈ s'.wires, wire.before <+: s'.read) ∧
    ∀ wire ∈ s'.wires, wire.Follows json s'.read := by
  rw [hread]
  constructor <;> intro wire hwire <;> rcases List.mem_cons.1 (hwires hwire) with rfl | hwire
  · exact List.prefix_refl _
  · exact hbefore wire hwire
  · exact hinv.follows_dialed n
  · exact hfollows wire hwire

/-- A connection is replaced by one that the conversation is carried over to. -/
theorem Ordered.lost (hbefore : ∀ wire ∈ s.wires, wire.before <+: s.read)
    (hfollows : ∀ wire ∈ s.wires, wire.Follows json s.read)
    (hinv : s.Inv json) (reason : String) (dial : Dial) : (s.lost reason dial).Ordered json := by
  obtain ⟨-, -, heq⟩ | heq | ⟨_, heq⟩ | ⟨q, n, heq⟩ := s.lost_cases reason dial <;> rw [heq]
  · exact ⟨hbefore, hfollows, nofun⟩
  · exact ⟨hbefore, hfollows, nofun⟩
  · exact ⟨hbefore, hfollows, nofun⟩
  · obtain ⟨hbefore', hfollows'⟩ := Ordered.dialed hbefore hfollows hinv n
      (rfl : (s.reconnect q n).read = s.read)
      ((List.perm_append_singleton _ _).cons _).subset
    exact ⟨hbefore', hfollows', fun _ hbroken ↦ hinv.whole_dialed hbroken⟩

theorem Ordered.move (h : s.Ordered json) (hinv : s.Inv json) (n : ℕ) :
    (s.move n).Ordered json := by
  unfold State.move
  simp only
  split_ifs
  · obtain ⟨hbefore, hfollows⟩ := Ordered.dialed h.before h.follows hinv n
      (rfl : (s.stay _).read = s.read)
      (((List.perm_append_singleton _ _).cons _).trans (List.Perm.swap _ _ _)).subset
    exact ⟨hbefore, hfollows, h.whole⟩
  · obtain ⟨hbefore, hfollows⟩ := Ordered.dialed h.before h.follows hinv n
      (rfl : (s.moveTo _).read = s.read)
      ((List.perm_append_singleton _ _).cons _).subset
    exact ⟨hbefore, hfollows, fun _ hbroken ↦ hinv.whole_dialed hbroken⟩

theorem Ordered.halfClose (h : s.Ordered json) : s.halfClose.Ordered json := by
  rw [s.halfClose_eq]
  exact ⟨h.before, h.follows, h.whole⟩

/-- **Every step in which nobody writes after a failure keeps the order.** -/
theorem Ordered.step (h : s.Ordered json) (hinv : s.Inv json)
    (hdistinct : s.Distinct json e) (hintact : s.Intact e) (hstep : s.step json e = some s') :
    s'.Ordered json := by
  obtain ⟨hverdict, hturned⟩ := turned_of_step hstep
  have hv : s.halfClose.verdict = none := by rw [s.halfClose_eq]; exact hverdict
  have hread : s.halfClose.read = s.read := by rw [s.halfClose_eq]
  have hwire : s.halfClose.wire = s.wire := by rw [s.halfClose_eq]
  have h := h.halfClose
  have hinv := hinv.halfClose
  generalize s.halfClose = t at h hinv hturned hv hread hwire
  cases hturned with
  | hostClosed => exact ⟨h.before, h.follows, h.whole⟩
  | ticked => exact h
  | drained => exact ⟨h.before, h.follows, nofun⟩
  | written line dial => exact h.written hv (hwire ▸ hintact line dial rfl) line
  | unwritten line error dial reason =>
    have hnew : ∀ id, requestId json line = some id → id ∉ requests json t.read := fun id hid ↦
      hread ▸ hdistinct line (some error) dial id rfl hid
    exact Ordered.lost (h.consume_before line) (h.consume_follows line) (hinv.consume hnew) reason
      dial
  | delivered line howes =>
    refine ⟨fun wire hwire ↦ ?_, fun wire hwire ↦ ?_, h.whole⟩
    · rcases List.mem_cons.1 hwire with rfl | hwire
      · exact h.before t.wire List.mem_cons_self
      · exact h.before wire (List.mem_cons_of_mem _ hwire)
    · rcases List.mem_cons.1 hwire with rfl | hwire
      · exact h.follows t.wire List.mem_cons_self
      · exact h.follows wire (List.mem_cons_of_mem _ hwire)
  | readLost loss dial => exact Ordered.lost h.before h.follows hinv _ dial
  | moved n => exact h.move hinv n

end State

end RustCodeMcp.Relay
