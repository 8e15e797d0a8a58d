import RustCodeMcp.Daemon.RelayRuns

/-!
# One answer to each request

An answer comes from the daemon of the moment, or from the relay. What the host has been told and
the daemon still owes is the answer to a replayed `initialize`, and is swallowed: `State.Once`. A
move that fails drops the note of it (`State.Forgets`): the host is told twice (`answered_twice`).
In runs without that, each request is answered at most once, and exactly once when the session ends.

**What would come twice is swallowed.** The invariant says that the host was told no answer twice,
that no request goes over one connection twice, and that an answer still owed to a request that has
its own is the one that is noted for swallowing (`Once`). A move drops the note before it dials, and
if it fails the relay goes on with the daemon that still owes the answer.

"Exactly once" follows from "at most once" and from what the relay does at its end: every request
that still waits is answered with an error (`State.Inv`), unless the host has cancelled it.
-/

namespace RustCodeMcp.Relay

open Machine

variable {Line Value : Type*} [DecidableEq Value] {json : Json Line Value}

namespace State

/-- A move fails while the daemon owes the answer that is to be swallowed. -/
def Forgets (json : Json Line Value) (s : State Line Value) (e : Event Line) : Prop :=
  ∃ (n : ℕ) (id : Value), e = .tick true (some n) ∧ s.conversation.pending = [] ∧
    n < s.conversation.replay.1.toDaemon.length ∧ s.conversation.swallow = some id ∧
    s.wire.owes json id

/-- Nobody has been told twice, and what is owed to a request that has its answer is swallowed. -/
structure Once (json : Json Line Value) (s : State Line Value) : Prop where
  once : ∀ id, answers json id s.told ≤ 1
  nodup : (requests json s.wire.written).Nodup
  /-- What the daemon owes, and the host has been told already, is swallowed. -/
  owed : s.verdict = none → ∀ id, s.wire.owes json id → 0 < answers json id s.told →
    s.conversation.swallow = some id
  handshake : s.verdict = none → ∀ h, s.conversation.handshake = some h →
    0 < answers json h.id s.told → h.answered = true
  ended : s.verdict = some .served ∨ s.verdict = some .lost → s.conversation.pending = []

variable {s s' : State Line Value} {line : Line} {id : Value}

theorem mem_of_owes {wire : Wire Line Value} (h : wire.owes json id) :
    id ∈ requests json wire.written :=
  List.count_pos_iff.1 (Nat.zero_lt_of_lt h)

theorem Once.halfClose (h : s.Once json) : s.halfClose.Once json := by
  rw [s.halfClose_eq]
  exact ⟨h.once, h.nodup, h.owed, h.handshake, h.ended⟩

/-- The handshake of a new line is new. -/
theorem Once.consume (h : s.Once json) (hinv : s.Inv json)
    (hnew : ∀ id, requestId json line = some id → id ∉ requests json s.read)
    (hverdict : s.verdict = none) : (s.consume json line).Once json := by
  have hconv := s.conversation.fromHost_eq line json
  refine ⟨h.once, h.nodup, fun _ id ho hpos ↦ ?_, fun _ hs heq hpos ↦ ?_, fun hv ↦ ?_⟩
  · exact (congrArg Conversation.swallow hconv).trans (h.owed hverdict id ho hpos)
  · replace heq : (if isInitialize json line then _ else _) = some hs :=
      (congrArg Conversation.handshake hconv).symm.trans heq
    split_ifs at heq with hi
    · obtain ⟨id, hid, rfl⟩ := Option.map_eq_some_iff.1 heq
      exact absurd (hinv.known id hpos) (hnew id hid)
    · exact h.handshake hverdict hs heq hpos
  · rw [show (s.consume json line).verdict = none from hverdict] at hv
    exact hv.elim nofun nofun

/-- The line is written: nobody was sent its id before. -/
theorem Once.write (h : s.Once json) (hverdict : s.verdict = none)
    (hnew : ∀ id, requestId json line = some id →
      id ∉ requests json s.wire.written ∧ answers json id s.told = 0) :
    (s.write line).Once json := by
  have hreq : requests json (s.write line).wire.written =
      requests json s.wire.written ++ (requestId json line).toList := by
    rw [← requests_singleton, ← requests_append]
    rfl
  refine ⟨h.once, ?_, fun _ id ho hpos ↦ ?_, h.handshake, h.ended⟩
  · rw [hreq, List.nodup_append]
    refine ⟨h.nodup, ?_, fun a ha b hb hab ↦ ?_⟩
    · rcases requestId json line with - | id
      · exact List.nodup_nil
      · exact List.nodup_singleton _
    · exact (hnew a (hab ▸ Option.mem_toList.1 hb)).1 ha
  · refine h.owed hverdict id ?_ hpos
    have hne : requestId json line ≠ some id := fun hid ↦ by
      have hzero := (hnew id hid).2
      have hpos' : 0 < answers json id s.told := hpos
      omega
    have hcount : (requestId json line).toList.count id = 0 := by
      rw [List.count_eq_zero]
      exact fun hmem ↦ hne (Option.mem_toList.1 hmem)
    show s.wire.answered.count id < _
    have hlt : s.wire.answered.count id < (requests json (s.write line).wire.written).count id := ho
    rwa [hreq, List.count_append, hcount, Nat.add_zero] at hlt

/-- A daemon that has answered a request does not owe it any more. -/
theorem Once.deliver (h : s.Once json) (hverdict : s.verdict = none)
    (howes : ∀ id, responseId json line = some id → s.wire.owes json id) :
    (s.deliver json line).Once json := by
  obtain ⟨hhs, -, hswallow⟩ := s.deliver_handshake line json
  refine ⟨fun id ↦ ?_, h.nodup, fun _ id ho hpos ↦ ?_, fun _ hs heq hpos ↦ ?_, fun hv ↦ ?_⟩
  · rw [s.answers_deliver]
    split_ifs with hand
    · have hzero : ¬0 < answers json id s.told := fun hpos ↦
        hand.2 (h.owed hverdict id (howes id hand.1) hpos)
      omega
    · exact h.once id
  · have hcount : (requests json s.wire.written).count id ≤ 1 :=
      List.nodup_iff_count_le_one.1 h.nodup id
    have hlt : (s.wire.answered ++ (responseId json line).toList).count id <
        (requests json s.wire.written).count id := ho
    rw [List.count_append] at hlt
    have hne : responseId json line ≠ some id := by
      intro hid
      rw [hid, Option.toList_some, List.count_singleton_self] at hlt
      omega
    rw [s.answers_deliver, if_neg fun hand ↦ hne hand.1] at hpos
    have hold : s.wire.owes json id := by
      show s.wire.answered.count id < _
      omega
    have hsw := h.owed hverdict id hold hpos
    rw [hswallow, hsw, if_neg fun hand ↦ hne hand.2.symm]
  · rw [hhs] at heq
    rw [s.answers_deliver] at hpos
    rcases hres : responseId json line with - | id
    · rw [hres] at heq hpos
      exact h.handshake hverdict hs heq (by simpa using hpos)
    · rw [hres] at heq hpos
      obtain ⟨hs', heq', hid, -, hans⟩ := Conversation.exists_of_handshakeAnswered heq
      rw [hans]
      by_cases hthis : hs'.id = id
      · simp [hthis]
      · rw [hid, if_neg fun hand ↦ hthis (Option.some.inj hand.1).symm] at hpos
        rw [h.handshake hverdict hs' heq' hpos]
        rfl
  · rw [show (s.deliver json line).verdict = none from hverdict] at hv
    exact hv.elim nofun nofun

/-- The relay answers only who waits. -/
theorem Once.refuse (h : s.Once json) (hinv : s.Inv json)
    (f : Pending Line Value → Option String) (id : Value) :
    answers json id (s.told ++ refusals f s.conversation.pending) ≤ 1 := by
  rw [answers_append]
  by_cases hpos : 0 < answers json id (refusals f s.conversation.pending)
  · have hle : answers json id (refusals f s.conversation.pending) ≤ 1 :=
      Nat.le_trans (answers_refusals_le f _ id)
        (List.nodup_iff_count_le_one.1 hinv.nodup_pending id)
    obtain ⟨p, hp, -, rfl⟩ := answers_refusals_pos.1 hpos
    rw [hinv.unanswered p hp]
    omega
  · have hle := h.once id
    omega

/-- With no daemon left, who waits is answered by the relay, and nobody else. -/
theorem Once.abandon (h : s.Once json) (hinv : s.Inv json) (reason : String) :
    (s.abandon reason).Once json := by
  refine ⟨fun id ↦ ?_, h.nodup, nofun, nofun, fun _ ↦ rfl⟩
  have htold : (s.abandon reason).told = s.told ++ refusals
    (fun _ ↦ some reason) s.conversation.pending := by
    show s.told ++ s.conversation.pending.map _ = _
    rw [refusals, ← List.filterMap_eq_map]
    rfl
  rw [htold]
  exact h.refuse hinv _ id

/-- On a new connection, the answer to the handshake is swallowed when the host has one. -/
theorem Once.replayed (h : s.Once json) (hinv : s.Inv json) (hverdict : s.verdict = none) (n : ℕ)
    (htold : s'.told = s.told ++ s.conversation.replay.1.toHost)
    (hconv : s'.conversation = s.conversation.replay.2)
    (hwire : s'.wire = s.dialed s.conversation.replay.1.toDaemon n) (hv : s'.verdict = none) :
    s'.Once json := by
  rw [Conversation.replay_toHost] at htold
  -- The handshake is not refused, so what the host has been told of it is from before.
  have hhandshake : ∀ hs, s.conversation.handshake = some hs → 0 < answers json hs.id s'.told →
      hs.answered = true := by
    intro hs heq hpos
    refine h.handshake hverdict hs heq ?_
    rw [htold, answers_append] at hpos
    by_contra hzero
    have hpos' : 0 < answers json hs.id
      (refusals s.conversation.refusal s.conversation.pending) := by omega
    obtain ⟨p, hp, hsome, hid⟩ := answers_refusals_pos.1 hpos'
    have hthis : s.conversation.isHandshake p = true := by
      rw [Conversation.isHandshake, heq, Option.any_some, hid]
      exact decide_eq_true rfl
    rw [Conversation.refusal, if_pos hthis] at hsome
    cases hsome
  refine ⟨fun id ↦ htold ▸ h.refuse hinv _ id, ?_, fun _ id ho hpos ↦ ?_, fun _ hs heq hpos ↦
    ?_, fun hend ↦ ?_⟩
  · rw [hwire]
    exact ((List.take_sublist _ _).filterMap (requestId json)).nodup hinv.nodup_toDaemon
  · rw [hwire] at ho
    have hmem := requests_subset (List.take_subset _ _) (mem_of_owes ho)
    rw [hinv.requests_toDaemon] at hmem
    rcases List.mem_append.1 hmem with hmem | hmem
    · obtain ⟨hs, hhs, rfl⟩ := List.mem_map.1 hmem
      have heq := Option.mem_toList.1 hhs
      rw [hconv, Conversation.replay]
      dsimp only
      rw [heq]
      exact if_pos (hhandshake hs heq hpos)
    · obtain ⟨p, hp, rfl⟩ := List.mem_map.1 hmem
      obtain ⟨hp, hrep⟩ := List.mem_filter.1 hp
      obtain ⟨hnot, hnone⟩ := Bool.and_eq_true_iff.1 hrep
      rw [htold, answers_append, hinv.unanswered p hp, Nat.zero_add] at hpos
      obtain ⟨q, hq, hsome, hid⟩ := answers_refusals_pos.1 hpos
      obtain rfl := hinv.eq_of_id hq hp hid
      rw [Conversation.refusal, if_neg (by simpa using hnot),
        Option.isNone_iff_eq_none.1 hnone] at hsome
      cases hsome
  · rw [hconv] at heq
    exact hhandshake hs heq hpos
  · rw [hv] at hend
    rcases hend with hend | hend
    · cases hend
    · cases hend

/-- A lost connection is replaced, or everybody who waits is answered. -/
theorem Once.lost (h : s.Once json) (hinv : s.Inv json)
    (hverdict : s.verdict = none) (reason : String)
    (dial : Dial) : (s.lost reason dial).Once json := by
  obtain ⟨-, hpending, heq⟩ | heq | ⟨_, heq⟩ | ⟨q, n, heq⟩ := s.lost_cases reason dial <;> rw [heq]
  · exact ⟨h.once, h.nodup, nofun, nofun, fun _ ↦ hpending⟩
  · exact ⟨h.once, h.nodup, nofun, nofun, fun hend ↦ hend.elim nofun nofun⟩
  · exact h.abandon hinv _
  · exact h.replayed hinv hverdict n rfl rfl rfl hverdict

theorem Once.move (h : s.Once json) (hinv : s.Inv json) (hverdict : s.verdict = none)
    (hpending : s.conversation.pending = []) (n : ℕ)
    (hforgets : ¬s.Forgets json (.tick true (some n))) : (s.move n).Once json := by
  have htold : s.told = s.told ++ s.conversation.replay.1.toHost := by
    rw [Conversation.replay_toHost, hpending]
    exact (List.append_nil _).symm
  unfold State.move
  simp only
  split_ifs with hbroken
  · refine ⟨h.once, h.nodup, fun _ id ho hpos ↦ ?_, h.handshake, fun hend ↦ ?_⟩
    · exact absurd ⟨n, id, rfl, hpending, of_decide_eq_true hbroken,
        h.owed hverdict id ho hpos, ho⟩ hforgets
    · rw [show (s.stay _).verdict = none from hverdict] at hend
      exact hend.elim nofun nofun
  · exact h.replayed hinv hverdict n htold rfl rfl hverdict

/-- **Every step that forgets nothing keeps the answers single.** -/
theorem Once.step {e : Event Line} (h : s.Once json) (hinv : s.Inv json)
    (hdistinct : s.Distinct json e)
    (hforgets : ¬s.Forgets json e) (hstep : s.step json e = some s') : s'.Once json := by
  obtain ⟨hverdict, hturned⟩ := turned_of_step hstep
  have hv : s.halfClose.verdict = none := by rw [s.halfClose_eq]; exact hverdict
  have hread : s.halfClose.read = s.read := by rw [s.halfClose_eq]
  replace hforgets : ¬s.halfClose.Forgets json e := by rw [s.halfClose_eq]; exact hforgets
  have h := h.halfClose
  have hinv := hinv.halfClose
  generalize s.halfClose = t at h hinv hturned hv hread hforgets
  cases hturned with
  | hostClosed => exact ⟨h.once, h.nodup, h.owed, h.handshake, h.ended⟩
  | ticked => exact h
  | drained => exact ⟨h.once, h.nodup, nofun, nofun, fun hend ↦ hend.elim nofun nofun⟩
  | written line dial =>
    have hnew : ∀ id, requestId json line = some id → id ∉ requests json t.read := fun id hid ↦
      hread ▸ hdistinct line none dial id rfl hid
    refine (h.consume hinv hnew hv).write hv fun id hid ↦ ⟨fun hmem ↦ ?_, ?_⟩
    · exact hnew id hid (hinv.written hmem)
    · by_contra hne
      exact hnew id hid (hinv.known id (Nat.pos_of_ne_zero hne))
  | unwritten line error dial reason =>
    have hnew : ∀ id, requestId json line = some id → id ∉ requests json t.read := fun id hid ↦
      hread ▸ hdistinct line (some error) dial id rfl hid
    exact (h.consume hinv hnew hv).lost (hinv.consume hnew) hv reason dial
  | delivered line howes => exact h.deliver hv howes
  | readLost loss dial => exact h.lost hinv hv _ dial
  | moved n hpending => exact h.move hinv hv hpending n hforgets

end State

theorem once_start : (machine json).start.Once json where
  once _ := Nat.zero_le _
  nodup := List.nodup_nil
  owed _ _ ho := absurd ho (Nat.not_lt_zero _)
  handshake _ _ heq := nomatch heq
  ended h := h.elim nofun nofun

/-- **As long as no move fails while the answer to a replayed handshake is owed**, the host is told
at most one answer to each request, and exactly one to each that it has not cancelled when the
session ends. -/
theorem answered_once_of_reachable {s : State Line Value}
    (h : (machine json).Reachable (fun s e ↦ s.Distinct json e ∧ ¬s.Forgets json e) s) :
    (∀ id, answers json id s.told ≤ 1) ∧
      (s.verdict = some .served ∨ s.verdict = some .lost →
        ∀ id, Waits json s.read id → answers json id s.told = 1) := by
  obtain ⟨hinv, honce⟩ : s.Inv json ∧ s.Once json :=
    Reachable.invariant (P := fun s ↦ s.Inv json ∧ s.Once json) h ⟨inv_start, once_start⟩
      fun t e u hok hstep hboth ↦
        ⟨hboth.1.step hok.1 hstep, hboth.2.step hboth.1 hok.1 hok.2 hstep⟩
  refine ⟨honce.once, fun hended id hwaits ↦ ?_⟩
  have hle := honce.once id
  rcases hinv.waits id hwaits with hmem | hpos
  · rw [honce.ended hended] at hmem
    cases hmem
  · omega

/-! ### A host and its daemons -/

/-- The documents of a short session: an object has an id and a method, or one of them. -/
inductive Doc
  | number (n : ℕ)
  | string (s : String)
  | object (id : Option ℕ) (method : Option String)
  deriving DecidableEq

/-- A line stands for the document it holds. -/
def docs : Json Doc Doc where
  fromSlice := some
  isObject
    | .object _ _ => true
    | _ => false
  isNull _ := false
  get
    | .object id _, "id" => id.map .number
    | .object _ method, "method" => method.map .string
    | _, _ => none
  asStr
    | .string s => some s
    | _ => none

/-- The handshake, and its answer. -/
def handshaken : List (Event Doc) :=
  [.hostLine (.object (some 1) (some "initialize")) none none, .daemonLine (.object (some 1) none)]

/-- The next line of the host has a new id. -/
def State.fresh (s : State Doc Doc) : Event Doc → Bool
  | .hostLine line _ _ => (requestId docs line).all fun id ↦ id ∉ requests docs s.read
  | _ => true

theorem State.distinct_of_fresh (s : State Doc Doc) (e : Event Doc) (h : s.fresh e = true) :
    s.Distinct docs e := by
  rintro line failure dial id rfl hid
  rw [State.fresh, hid, Option.all_some] at h
  exact of_decide_eq_true h

/-- The relay stays with its daemon. -/
def State.settled (s : State Doc Doc) : Event Doc → Bool
  | .tick _ _ => false
  | e => s.fresh e

theorem State.ok_of_settled (s : State Doc Doc) (e : Event Doc) (h : s.settled e = true) :
    s.Distinct docs e ∧ ¬s.Forgets docs e := by
  refine ⟨s.distinct_of_fresh e ?_, ?_⟩
  · cases e <;> first | exact h | cases h
  · rintro ⟨n, id, rfl, -⟩
    cases h

/-- A daemon is lost with a request under way, and the next one answers it. -/
theorem answered_once_handshaken :
    ∃ s, (machine docs).Reachable (fun s e ↦ s.Distinct docs e ∧ ¬s.Forgets docs e) s ∧
      s.verdict = some .served ∧ answers docs (.number 2) s.told = 1 := by
  have hrun := Option.some_get (by decide : ((machine docs).runIf State.settled (machine docs).start
    (handshaken ++ [.hostLine (.object (some 2) (some "tools/list")) none none,
      .readLost .closed (some 2),
      .daemonLine (.object (some 1) none), .daemonLine (.object (some 2) none), .hostClosed,
      .readLost .closed none])).isSome = true)
  have hreach : (machine docs).Reachable (fun s e ↦ s.Distinct docs e ∧ ¬s.Forgets docs e) _ :=
    ⟨_, runs_of_runIf State.ok_of_settled hrun.symm⟩
  refine ⟨_, hreach, rfl, (answered_once_of_reachable hreach).2 (.inl rfl) _ ?_⟩
  exact ⟨[.object (some 1) (some "initialize")], .object (some 2) (some "tools/list"),
    [], rfl, rfl, nofun⟩

/-- **The host is told twice.** A daemon is lost, the handshake is replayed to the next one, and
before its answer a move fails. -/
theorem answered_twice :
    ∃ s, (machine docs).Reachable (fun s e ↦ s.Distinct docs e) s ∧
      answers docs (.number 1) s.told = 2 := by
  have hrun := Option.some_get (by decide : ((machine docs).runIf State.fresh (machine docs).start
    (handshaken ++ [.readLost .closed (some 1), .tick true (some 0),
      .daemonLine (.object (some 1) none)])).isSome = true)
  exact ⟨_, ⟨_, runs_of_runIf State.distinct_of_fresh hrun.symm⟩, rfl⟩

end RustCodeMcp.Relay
