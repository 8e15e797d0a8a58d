import Mathlib.Data.List.Nodup
import RustCodeMcp.Daemon.Relay

/-!
# What the relay remembers is what the host waits for

In every run with distinct request ids, the conversation is what the host's lines and the answers
told so far make of it: `State.Inv`. It says what is in `pending`, which `initialize` is the
handshake, and that nobody answers a request that the host has not sent.

**Ids are what ties the two sides together.** The host chooses them, and the relay looks for nothing
else in a line; so a run is judged under the assumption that the host does not use one twice
(`State.Distinct`), and from it a pending request is told by its id, an answer by the request it is
for, and a line by the id it has. Without it two requests of one id could not be told apart by
anybody.

The invariant is proved piece by piece. A turn takes in a line, delivers one, replays the
conversation on a new connection, or ends the session, and each of these has a lemma; `Turned` lists
them, so that no later induction takes the turn apart again.
-/

namespace RustCodeMcp.Relay

variable {Line Value : Type*} {json : Json Line Value}

/-! ### Lines -/

/-- The host's `initialize`. -/
def isInitialize (json : Json Line Value) (line : Line) : Bool :=
  match classify json line with
  | .request _ method _ => method = "initialize"
  | _ => false

/-- The host's `notifications/initialized`. -/
def isInitialized (json : Json Line Value) (line : Line) : Bool :=
  match classify json line with
  | .notification "notifications/initialized" _ => true
  | _ => false

/-- The state-changing tool that the line calls. -/
def stateChangingTool (json : Json Line Value) (line : Line) : Option String :=
  match classify json line with
  | .request _ _ tool => tool.filter (· ∈ stateChangingTools)
  | _ => none

/-- The request of the line, as it is remembered at first. -/
def Pending.ofLine (json : Json Line Value) (line : Line) : Option (Pending Line Value) :=
  (requestId json line).map fun id ↦
    { id, line, stateChanging := stateChangingTool json line, sent := 1 }

theorem requestId_of_isInitialized {line : Line} (h : isInitialized json line = true) :
    requestId json line = none := by
  unfold isInitialized at h
  unfold requestId
  split at h
  next heq => rw [heq]
  next => cases h

theorem exists_requestId_of_isInitialize {line : Line} (h : isInitialize json line = true) :
    ∃ id, requestId json line = some id := by
  unfold isInitialize at h
  unfold requestId
  rcases hframe : classify json line with ⟨id, method, tool⟩ | _ | _ | _ <;> rw [hframe] at h
  · exact ⟨id, rfl⟩
  all_goals cases h

@[simp]
theorem requests_append (lines lines' : List Line) :
    requests json (lines ++ lines') = requests json lines ++ requests json lines' :=
  List.filterMap_append

theorem requests_singleton (line : Line) : requests json [line] = (requestId json line).toList := by
  unfold requests
  rcases h : requestId json line with - | id <;> simp [h]

theorem mem_requests {lines : List Line} {id : Value} :
    id ∈ requests json lines ↔ ∃ line ∈ lines, requestId json line = some id :=
  List.mem_filterMap

theorem requests_subset {lines lines' : List Line} (h : lines ⊆ lines') :
    requests json lines ⊆ requests json lines' := by
  intro id hid
  obtain ⟨line, hline, heq⟩ := mem_requests.1 hid
  exact mem_requests.2 ⟨line, h hline, heq⟩

/-- Among lines with distinct ids, the id tells the line. -/
theorem eq_of_requestId {lines : List Line} (h : (requests json lines).Nodup)
    {line line' : Line} {id : Value}
    (hline : line ∈ lines) (hline' : line' ∈ lines) (hid : requestId json line = some id)
    (hid' : requestId json line' = some id) : line = line' := by
  induction lines with
  | nil => cases hline
  | cons l lines ih =>
    have hsplit : requests json (l :: lines) = (requestId json l).toList ++
      requests json lines := by
      rw [← requests_singleton, ← requests_append, List.singleton_append]
    rw [hsplit, List.nodup_append] at h
    obtain ⟨-, hnodup, hdisj⟩ := h
    rcases List.mem_cons.1 hline with rfl | hin <;> rcases List.mem_cons.1 hline' with rfl | hin'
    · rfl
    · exact absurd rfl (hdisj id (by rw [hid]; simp) id (mem_requests.2 ⟨line', hin', hid'⟩))
    · exact absurd rfl (hdisj id (by rw [hid']; simp) id (mem_requests.2 ⟨line, hin, hid⟩))
    · exact ih hnodup hin hin'

theorem not_waits_nil (id : Value) : ¬Waits json [] id := by
  rintro ⟨earlier, line, later, h, -⟩
  simp at h

/-- One more line of the host. -/
theorem waits_concat {read : List Line} {line : Line} {id : Value}
    (h : Waits json (read ++ [line]) id) :
    requestId json line = some id ∨ Waits json read id ∧ cancelled json line ≠ some id := by
  obtain ⟨earlier, l, later, heq, hid, hlater⟩ := h
  rcases List.eq_nil_or_concat later with rfl | ⟨later, last, rfl⟩
  · obtain ⟨-, hl⟩ := List.append_inj' heq rfl
    obtain rfl : line = l := List.singleton_injective hl
    exact .inl hid
  · have heq' : read ++ [line] = (earlier ++ l :: later) ++ [last] := by simpa using heq
    obtain ⟨rfl, hlast⟩ := List.append_inj' heq' rfl
    obtain rfl : line = last := List.singleton_injective hlast
    exact .inr ⟨⟨earlier, l, later, rfl, hid, fun l' hl' ↦ hlater l' (by simp [hl'])⟩,
      hlater line (by simp)⟩

variable [DecidableEq Value]

/-! ### Answers -/

@[simp]
theorem answers_append (id : Value) (told told' : List (Told Line Value)) :
    answers json id (told ++ told') = answers json id told + answers json id told' :=
  List.countP_append

theorem answers_relayed (id : Value) (line : Line) :
    answers json id [.relayed line] = if responseId json line = some id then 1 else 0 := by
  simp [answers, Told.answers, List.countP_cons]

theorem answers_pos {id : Value} {told : List (Told Line Value)} :
    0 < answers json id told ↔ ∃ t ∈ told, t.answers json id = true :=
  List.countP_pos_iff

/-- The relay's own answers to some of the requests. -/
def refusals (f : Pending Line Value → Option String) (l : List (Pending Line Value)) :
    List (Told Line Value) :=
  l.filterMap fun p ↦ (f p).map (errorLine p.id)

/-- The relay answers exactly the requests that it refuses. -/
theorem answers_refusals_pos {f : Pending Line Value → Option String}
    {l : List (Pending Line Value)}
    {id : Value} : 0 < answers json id (refusals f l) ↔
    ∃ p ∈ l, (f p).isSome = true ∧ p.id = id := by
  rw [answers_pos]
  constructor
  · rintro ⟨t, ht, hid⟩
    obtain ⟨p, hp, heq⟩ := List.mem_filterMap.1 ht
    obtain ⟨message, hm, rfl⟩ := Option.map_eq_some_iff.1 heq
    exact ⟨p, hp, by rw [hm]; rfl, of_decide_eq_true hid⟩
  · rintro ⟨p, hp, hsome, rfl⟩
    obtain ⟨message, hm⟩ := Option.isSome_iff_exists.1 hsome
    exact ⟨errorLine p.id message, List.mem_filterMap.2 ⟨p, hp, by rw [hm]; rfl⟩,
      decide_eq_true rfl⟩

/-- It answers no request more often than it is pending. -/
theorem answers_refusals_le (f : Pending Line Value → Option String) (l : List (Pending Line Value))
    (id : Value) : answers json id (refusals f l) ≤ (l.map Pending.id).count id := by
  induction l with
  | nil => exact Nat.le_refl _
  | cons p l ih =>
    have hcons : refusals f (p :: l) = ((f p).map (errorLine p.id)).toList ++ refusals f l := by
      unfold refusals
      rcases hf : f p with - | message <;> simp [hf]
    rw [hcons, answers_append, List.map_cons, List.count_cons]
    have hone : answers json id ((f p).map (errorLine p.id : String → Told Line Value)).toList ≤
        if p.id == id then 1 else 0 := by
      rcases f p with - | message
      · exact Nat.zero_le _
      · show answers json id [errorLine p.id message] ≤ _
        simp [answers, Told.answers, errorLine, List.countP_cons]
    omega

/-! ### The conversation -/

namespace Conversation

variable (c : Conversation Line Value) (line : Line)

/-- What is pending, less what the line cancels. -/
def uncancelled (json : Json Line Value) (c : Conversation Line Value) (line : Line) :
    List (Pending Line Value) :=
  match cancelled json line with
  | some id => c.pending.filter (·.id ≠ id)
  | none => c.pending

/-- Cancelling leaves the other requests in their order. -/
theorem uncancelled_sublist (json : Json Line Value) :
    (c.uncancelled json line).Sublist c.pending := by
  unfold uncancelled
  split
  · exact List.filter_sublist
  · exact List.Sublist.refl _

variable {c line} in
/-- A request that is not cancelled stays pending. -/
theorem mem_uncancelled {p : Pending Line Value} (h : p ∈ c.pending)
    (hid : cancelled json line ≠ some p.id) : p ∈ c.uncancelled json line := by
  unfold uncancelled
  split
  next id heq => exact List.mem_filter.2 ⟨h, decide_eq_true fun hp ↦ hid (hp ▸ heq)⟩
  next => exact h

/-- What a line of the host changes. -/
theorem fromHost_eq (json : Json Line Value) :
    c.fromHost json line =
      { handshake := if isInitialize json line then
          (requestId json line).map fun id ↦ { id, line, answered := false } else c.handshake
        initialized := if isInitialized json line then some line else c.initialized
        pending := c.uncancelled json line ++ (Pending.ofLine json line).toList
        swallow := c.swallow
        consumed := true } := by
  unfold fromHost isInitialize isInitialized uncancelled cancelled Pending.ofLine
    requestId stateChangingTool
  rcases classify json line with ⟨id, method, tool⟩ | ⟨method, params⟩ | id | -
  · by_cases hm : method = "initialize" <;> simp [hm]
  · by_cases hi : method = "notifications/initialized"
    · subst hi
      simp
    · by_cases hc : method = "notifications/cancelled"
      · subst hc
        rcases hp : params.bind fun params ↦ json.get params "requestId" with - | id <;> simp [hp]
      · simp [hi, hc]
  · simp
  · simp

/-- The handshake once its answer has come. -/
def handshakeAnswered (id : Value) : Option (Handshake Line Value) :=
  c.handshake.map fun handshake ↦
    if handshake.id = id then { handshake with answered := true } else handshake

variable {c line}

/-- A line that answers nothing is passed on, and nothing changes. -/
theorem fromDaemon_of_none (h : responseId json line = none) :
    c.fromDaemon json line = (true, c) := by
  unfold responseId at h
  unfold fromDaemon
  rcases hframe : classify json line with _ | _ | id | _ <;> rw [hframe] at h
  case response => cases h

/-- An answer takes its request off, and is kept from the host if it is to be swallowed. -/
theorem fromDaemon_of_some {id : Value} (h : responseId json line = some id) :
    c.fromDaemon json line =
      if c.swallow = some id then
        (false, { c with handshake := c.handshakeAnswered id, swallow := none })
      else
        (true, { c with
          handshake := c.handshakeAnswered id, pending := c.pending.filter (·.id ≠ id) }) := by
  unfold responseId at h
  unfold fromDaemon
  rcases hframe : classify json line with _ | _ | id' | _ <;> rw [hframe] at h
  case response =>
    obtain rfl := Option.some.inj h
    rfl
  all_goals cases h

/-- The line of the handshake stays the same. -/
theorem handshakeAnswered_line (id : Value) :
    (c.handshakeAnswered id).map Handshake.line = c.handshake.map Handshake.line := by
  rw [handshakeAnswered, Option.map_map]
  refine congrArg (fun f ↦ c.handshake.map f) (funext fun h ↦ ?_)
  rw [Function.comp_apply]
  split_ifs <;> rfl

/-- The handshake with its answer is the one from before. -/
theorem exists_of_handshakeAnswered {id : Value} {h : Handshake Line Value}
    (hh : c.handshakeAnswered id = some h) :
    ∃ h', c.handshake = some h' ∧ h.id = h'.id ∧ h.line = h'.line ∧
      h.answered = (h'.answered || decide (h'.id = id)) := by
  obtain ⟨h', heq, hmap⟩ := Option.map_eq_some_iff.1 hh
  refine ⟨h', heq, ?_⟩
  split_ifs at hmap with hid
  · subst hmap
    simp [hid]
  · subst hmap
    simp [hid]

/-- What still waits after a replay waited before it, and was not refused. -/
theorem mem_replay_pending {p : Pending Line Value} (h : p ∈ c.replay.2.pending) :
    ∃ p' ∈ c.pending, p.id = p'.id ∧ p.line = p'.line ∧ p.stateChanging = p'.stateChanging ∧
      (c.isHandshake p' = true ∧ p.sent = p'.sent ∨
        c.isHandshake p' = false ∧ p'.refusal = none ∧ p.sent = p'.sent + 1) := by
  obtain ⟨p', hp', heq⟩ := List.mem_filterMap.1 h
  refine ⟨p', hp', ?_⟩
  split_ifs at heq with hh hr
  · obtain rfl := Option.some.inj heq
    exact ⟨rfl, rfl, rfl, .inl ⟨hh, rfl⟩⟩
  · obtain rfl := Option.some.inj heq
    exact ⟨rfl, rfl, rfl, .inr ⟨by simpa using hh, by simpa using hr, rfl⟩⟩

/-- Why the pending request is not carried over; the handshake always is. -/
def refusal (c : Conversation Line Value) (p : Pending Line Value) : Option String :=
  if c.isHandshake p then none else p.refusal

/-- Who waited before a replay still waits, or was refused. -/
theorem mem_pending_cases {p : Pending Line Value} (h : p ∈ c.pending) :
    p.id ∈ c.replay.2.pending.map Pending.id ∨
      (c.refusal p).isSome = true := by
  unfold refusal
  by_cases hh : c.isHandshake p = true
  · exact .inl (List.mem_map.2 ⟨p, List.mem_filterMap.2 ⟨p, h, by simp [hh]⟩, rfl⟩)
  · rw [if_neg hh]
    rcases hr : p.refusal with - | message
    · exact .inl (List.mem_map.2
        ⟨{ p with sent := p.sent + 1 }, List.mem_filterMap.2 ⟨p, h, by simp [hh, hr]⟩, rfl⟩)
    · exact .inr rfl

/-- What the host is told in a replay are the refusals. -/
theorem replay_toHost : c.replay.1.toHost = refusals c.refusal c.pending := by
  refine congrArg (fun f ↦ c.pending.filterMap f) (funext fun p ↦ ?_)
  unfold refusal
  split_ifs <;> rfl

/-- The requests that are carried over are sent as they came. -/
theorem replay_pending_line :
    (c.replay.2.pending.map Pending.line).Sublist (c.pending.map Pending.line) := by
  show (List.map _ (c.pending.filterMap _)).Sublist _
  -- Whether a request is the handshake does not depend on the others.
  generalize c.pending = l
  induction l with
  | nil => exact List.Sublist.refl _
  | cons p l ih =>
    simp only [List.filterMap_cons]
    split_ifs
    · exact ih.cons_cons _
    · exact ih.cons _
    · exact ih.cons_cons _

/-- The lines for another daemon: the handshake, and some of the requests that wait. -/
def handshakeLines (c : Conversation Line Value) : List Line :=
  match c.handshake with
  | some handshake => handshake.line :: c.initialized.toList
  | none => []

/-- The requests that are carried over. -/
def repeated (c : Conversation Line Value) : List (Pending Line Value) :=
  c.pending.filter fun p ↦ !c.isHandshake p && p.refusal.isNone

/-- What the new daemon is sent: the handshake, and the requests carried over. -/
theorem replay_toDaemon : c.replay.1.toDaemon = c.handshakeLines ++ c.repeated.map Pending.line :=
  rfl

end Conversation

namespace State

/-- The conversation is what the host has sent, less what it has been told or has cancelled. -/
structure Inv (json : Json Line Value) (s : State Line Value) : Prop where
  nodup : (requests json s.read).Nodup
  sublist : (s.conversation.pending.map Pending.line).Sublist s.read
  pending : ∀ p ∈ s.conversation.pending,
    requestId json p.line = some p.id ∧ p.stateChanging = stateChangingTool json p.line
  /-- The handshake is the last `initialize`. -/
  handshake : s.conversation.handshake.map Handshake.line =
    (s.read.filter (isInitialize json)).getLast?
  handshakeId : ∀ h, s.conversation.handshake = some h → requestId json h.line = some h.id
  initialized : s.conversation.initialized = (s.read.filter (isInitialized json)).getLast?
  /-- The host waits for what is pending. -/
  unanswered : ∀ p ∈ s.conversation.pending, answers json p.id s.told = 0
  waits : ∀ id, Waits json s.read id →
    id ∈ s.conversation.pending.map Pending.id ∨ 0 < answers json id s.told
  /-- Nothing is answered or sent to a daemon that the host has not sent. -/
  known : ∀ id, 0 < answers json id s.told → id ∈ requests json s.read
  written : requests json s.wire.written ⊆ requests json s.read

variable {s s' : State Line Value} {line : Line} {id : Value}

/-- The lines that wait are the requests that wait. -/
theorem Inv.requests_pending (h : s.Inv json) {l : List (Pending Line Value)}
    (hl : l ⊆ s.conversation.pending) : requests json (l.map Pending.line) = l.map Pending.id := by
  induction l with
  | nil => rfl
  | cons p l ih =>
    have hp := (h.pending p (hl List.mem_cons_self)).1
    rw [List.map_cons, requests, List.filterMap_cons_some hp, List.map_cons]
    exact congrArg _ (ih fun q hq ↦ hl (List.mem_cons_of_mem _ hq))

theorem Inv.nodup_pending (h : s.Inv json) : (s.conversation.pending.map Pending.id).Nodup := by
  rw [← h.requests_pending (List.Subset.refl _)]
  exact (h.sublist.filterMap (requestId json)).nodup h.nodup

/-- A pending request is told by its id. -/
theorem Inv.eq_of_id (h : s.Inv json) {p q : Pending Line Value} (hp : p ∈ s.conversation.pending)
    (hq : q ∈ s.conversation.pending) (hid : p.id = q.id) : p = q :=
  List.inj_on_of_nodup_map h.nodup_pending hp hq hid

theorem Inv.pending_known (h : s.Inv json) {p : Pending Line Value}
    (hp : p ∈ s.conversation.pending) : p.id ∈ requests json s.read :=
  mem_requests.2 ⟨p.line, h.sublist.subset (List.mem_map_of_mem hp), (h.pending p hp).1⟩

/-- The handshake is a line of the host. -/
theorem Inv.handshake_mem (h : s.Inv json) {hs : Handshake Line Value}
    (heq : s.conversation.handshake = some hs) :
    hs.line ∈ s.read ∧ isInitialize json hs.line = true := by
  have hlast := h.handshake
  rw [heq] at hlast
  exact List.mem_filter.1 (List.mem_of_getLast? hlast.symm)

theorem Inv.initialized_mem (h : s.Inv json) (heq : s.conversation.initialized = some line) :
    line ∈ s.read ∧ isInitialized json line = true := by
  have hlast := h.initialized
  rw [heq] at hlast
  exact List.mem_filter.1 (List.mem_of_getLast? hlast.symm)

/-! ### Carried over -/

/-- The requests among the lines for another daemon: the handshake's, and those that are repeated.
-/
theorem Inv.requests_toDaemon (h : s.Inv json) :
    requests json s.conversation.replay.1.toDaemon =
      s.conversation.handshake.toList.map Handshake.id ++
      s.conversation.repeated.map Pending.id := by
  rw [Conversation.replay_toDaemon, requests_append,
    h.requests_pending (show s.conversation.repeated ⊆ _ from List.filter_sublist.subset)]
  refine congrArg (· ++ _) ?_
  unfold Conversation.handshakeLines
  rcases heq : s.conversation.handshake with - | hs
  · rfl
  · have hnone : requests json s.conversation.initialized.toList = [] := by
      rcases hi : s.conversation.initialized with - | line
      · rfl
      · rw [Option.toList_some, requests_singleton,
          requestId_of_isInitialized (h.initialized_mem hi).2]
        rfl
    show requests json (hs.line :: _) = [hs.id]
    rw [requests, List.filterMap_cons_some (h.handshakeId hs heq)]
    exact congrArg _ hnone

theorem Inv.requests_toDaemon_subset (h : s.Inv json) :
    requests json s.conversation.replay.1.toDaemon ⊆ requests json s.read := by
  rw [h.requests_toDaemon]
  intro id hid
  rcases List.mem_append.1 hid with hid | hid
  · obtain ⟨hs, hmem, rfl⟩ := List.mem_map.1 hid
    have heq := Option.mem_toList.1 hmem
    exact mem_requests.2 ⟨hs.line, (h.handshake_mem heq).1, h.handshakeId hs heq⟩
  · obtain ⟨p, hp, rfl⟩ := List.mem_map.1 hid
    exact h.pending_known (List.mem_of_mem_filter hp)

theorem Inv.nodup_toDaemon (h : s.Inv json) :
    (requests json s.conversation.replay.1.toDaemon).Nodup := by
  rw [h.requests_toDaemon, List.nodup_append]
  refine ⟨?_, ?_, ?_⟩
  · rcases s.conversation.handshake with - | hs
    · exact List.nodup_nil
    · exact List.nodup_singleton _
  · exact (List.filter_sublist.map Pending.id).nodup h.nodup_pending
  · rintro _ hid _ hid' rfl
    obtain ⟨hs, hmem, rfl⟩ := List.mem_map.1 hid
    obtain ⟨p, hp, heq⟩ := List.mem_map.1 hid'
    -- A request with the id of the handshake is not repeated.
    obtain ⟨-, hrep⟩ := List.mem_filter.1 hp
    rw [Conversation.isHandshake, Option.mem_toList.1 hmem, Option.any_some, heq] at hrep
    simp at hrep

/-! ### What happens in a turn -/

/-- The last element that satisfies something, with one element more. -/
theorem getLast?_filter_concat {α : Type*} (p : α → Bool) (l : List α) (a : α) :
    ((l ++ [a]).filter p).getLast? = if p a then some a else (l.filter p).getLast? := by
  rw [List.filter_append, List.filter_singleton]
  split_ifs with hp
  · rw [hp]
    exact List.getLast?_concat
  · rw [Bool.eq_false_iff.2 hp]
    exact congrArg _ (List.append_nil _)

omit [DecidableEq Value] in
/-- A new request was sent once, and is remembered by its line. -/
theorem mem_ofLine {p : Pending Line Value} (h : p ∈ (Pending.ofLine json line).toList) :
    p.line = line ∧ p.sent = 1 ∧ requestId json line = some p.id ∧
      p.stateChanging = stateChangingTool json line := by
  obtain ⟨id, hid, rfl⟩ := Option.map_eq_some_iff.1 (Option.mem_toList.1 h)
  exact ⟨rfl, rfl, hid, rfl⟩

/-- A line of the host is taken in. -/
theorem Inv.consume (h : s.Inv json)
    (hnew : ∀ id, requestId json line = some id → id ∉ requests json s.read) :
    (s.consume json line).Inv json := by
  have hread : requests json s.read ⊆ requests json (s.read ++ [line]) :=
    requests_subset (List.subset_append_left _ _)
  have hconv := s.conversation.fromHost_eq line json
  have hold := s.conversation.uncancelled_sublist line json
  constructor
  case nodup =>
    show (requests json (s.read ++ [line])).Nodup
    rw [requests_append, requests_singleton]
    rcases heq : requestId json line with - | id
    · rw [Option.toList_none, List.append_nil]
      exact h.nodup
    · rw [Option.toList_some, List.nodup_append]
      -- The host does not use an id twice.
      refine ⟨h.nodup, List.nodup_singleton _, fun a ha b hb hab ↦ hnew id heq ?_⟩
      rwa [← List.mem_singleton.1 hb, ← hab]
  case sublist =>
    show ((s.conversation.fromHost json line).pending.map Pending.line).Sublist (s.read ++ [line])
    rw [hconv, List.map_append]
    -- A cancellation takes requests out, and a request puts its own line at the end.
    refine ((hold.map Pending.line).trans h.sublist).append ?_
    unfold Pending.ofLine
    rcases requestId json line with - | id
    · exact List.nil_sublist _
    · exact List.Sublist.refl _
  case pending =>
    intro p hp
    rw [show (s.consume json line).conversation = _ from hconv] at hp
    rcases List.mem_append.1 hp with hp | hp
    · exact h.pending p (hold.subset hp)
    · obtain ⟨rfl, -, hid, hsc⟩ := mem_ofLine hp
      exact ⟨hid, hsc⟩
  case handshake =>
    show (s.conversation.fromHost json line).handshake.map Handshake.line =
      ((s.read ++ [line]).filter (isInitialize json)).getLast?
    rw [getLast?_filter_concat, ← h.handshake, congrArg Conversation.handshake hconv]
    show (if isInitialize json line then _ else _ : Option (Handshake Line Value)).map _ = _
    -- Only an `initialize` takes the handshake's place, and the last one wins.
    split_ifs with hi
    · obtain ⟨id, hid⟩ := exists_requestId_of_isInitialize hi
      rw [hid]
      rfl
    · rfl
  case handshakeId =>
    intro hs heq
    replace heq : (if isInitialize json line then _ else _) = some hs :=
      (congrArg Conversation.handshake hconv).symm.trans heq
    split_ifs at heq with hi
    · obtain ⟨id, hid, rfl⟩ := Option.map_eq_some_iff.1 heq
      exact hid
    · exact h.handshakeId hs heq
  case initialized =>
    show (s.conversation.fromHost json line).initialized =
      ((s.read ++ [line]).filter (isInitialized json)).getLast?
    rw [getLast?_filter_concat, ← h.initialized, congrArg Conversation.initialized hconv]
  case unanswered =>
    intro p hp
    rw [show (s.consume json line).conversation = _ from hconv] at hp
    rcases List.mem_append.1 hp with hp | hp
    · exact h.unanswered p (hold.subset hp)
    · obtain ⟨-, -, hid, -⟩ := mem_ofLine hp
      -- An id that was answered had been read before, and this one is new.
      by_contra hne
      exact hnew p.id hid (h.known p.id (Nat.pos_of_ne_zero hne))
  case waits =>
    intro id hid
    rw [show (s.consume json line).conversation = _ from hconv]
    rcases waits_concat hid with hline | ⟨hwaits, hcancel⟩
    · refine .inl
        (List.mem_map.2 ⟨{ id, line, stateChanging := stateChangingTool json line, sent := 1 },
        List.mem_append_right _ (Option.mem_toList.2 ?_), rfl⟩)
      exact Option.map_eq_some_iff.2 ⟨id, hline, rfl⟩
    · refine (h.waits id hwaits).imp_left fun hmem ↦ ?_
      obtain ⟨p, hp, rfl⟩ := List.mem_map.1 hmem
      exact List.mem_map_of_mem (List.mem_append_left _ (Conversation.mem_uncancelled hp hcancel))
  case known => exact fun id hid ↦ hread (h.known id hid)
  case written => exact fun id hid ↦ hread (h.written hid)

/-- A line that was taken in is written to the daemon. -/
theorem Inv.write (h : s.Inv json) (hline : line ∈ s.read) : (s.write line).Inv json := by
  refine ⟨h.nodup, h.sublist, h.pending, h.handshake, h.handshakeId, h.initialized, h.unanswered,
    h.waits, h.known, ?_⟩
  show requests json (s.wire.written ++ [line]) ⊆ requests json s.read
  rw [requests_append, List.append_subset]
  exact ⟨h.written, requests_subset (List.cons_subset.2 ⟨hline, List.nil_subset _⟩)⟩

/-- A line of the daemon answers one request at most. -/
theorem answers_deliver (s : State Line Value) (line : Line) (id : Value) :
    answers json id (s.deliver json line).told = answers json id s.told +
      if responseId json line = some id ∧ s.conversation.swallow ≠ some id then 1 else 0 := by
  unfold State.deliver
  rcases hres : responseId json line with - | id'
  · rw [Conversation.fromDaemon_of_none hres]
    show answers json id (s.told ++ [.relayed line]) = _
    rw [answers_append, answers_relayed, hres, if_neg nofun, if_neg (fun h ↦ nomatch h.1)]
  · rw [Conversation.fromDaemon_of_some hres]
    by_cases hs : s.conversation.swallow = some id'
    · rw [if_pos hs]
      show answers json id s.told = _
      rw [if_neg fun h ↦ h.2 (h.1 ▸ hs), Nat.add_zero]
    · rw [if_neg hs]
      show answers json id (s.told ++ [.relayed line]) = _
      rw [answers_append, answers_relayed, hres]
      refine congrArg (_ + ·)
        (if_congr ⟨fun h ↦ ⟨h, fun hs' ↦ hs (hs'.trans h.symm)⟩, And.left⟩ rfl rfl)

/-- It takes that request off, and no other. -/
theorem deliver_pending (s : State Line Value) (line : Line) (json : Json Line Value) :
    (s.deliver json line).conversation.pending = s.conversation.pending.filter fun p ↦
      responseId json line ≠ some p.id ∨ s.conversation.swallow = some p.id := by
  unfold State.deliver
  rcases hres : responseId json line with - | id
  · rw [Conversation.fromDaemon_of_none hres]
    exact (List.filter_eq_self.2 fun p _ ↦ decide_eq_true (.inl nofun)).symm
  · rw [Conversation.fromDaemon_of_some hres]
    by_cases hs : s.conversation.swallow = some id
    · rw [if_pos hs]
      refine (List.filter_eq_self.2 fun p _ ↦ decide_eq_true ?_).symm
      rw [hs]
      exact (em (some id = some p.id)).symm
    · rw [if_neg hs]
      refine List.filter_congr fun p _ ↦ decide_eq_decide.2 ?_
      constructor
      · exact fun hne ↦ .inl fun heq ↦ hne (Option.some.inj heq).symm
      · rintro (hne | heq) rfl
        · exact hne rfl
        · exact hs heq

/-- If it answers the handshake, that has its answer. -/
theorem deliver_handshake (s : State Line Value) (line : Line) (json : Json Line Value) :
    (s.deliver json line).conversation.handshake =
      (responseId json line).elim s.conversation.handshake s.conversation.handshakeAnswered ∧
    (s.deliver json line).conversation.initialized = s.conversation.initialized ∧
    (s.deliver json line).conversation.swallow =
      if (responseId json line).isSome ∧ s.conversation.swallow = responseId json line then none
      else s.conversation.swallow := by
  unfold State.deliver
  rcases hres : responseId json line with - | id
  · rw [Conversation.fromDaemon_of_none hres]
    exact ⟨rfl, rfl, rfl⟩
  · rw [Conversation.fromDaemon_of_some hres]
    by_cases hs : s.conversation.swallow = some id
    · rw [if_pos hs, if_pos ⟨rfl, hs⟩]
      exact ⟨rfl, rfl, rfl⟩
    · rw [if_neg hs, if_neg fun h ↦ hs h.2]
      exact ⟨rfl, rfl, rfl⟩

/-- A line of the daemon, which answers nothing that it was not sent. -/
theorem Inv.deliver (h : s.Inv json)
    (howes : ∀ id, responseId json line = some id → s.wire.owes json id) :
    (s.deliver json line).Inv json := by
  obtain ⟨hhs, hinit, -⟩ := s.deliver_handshake line json
  have hpending := s.deliver_pending line json
  have hold : ∀ {p}, p ∈ (s.deliver json line).conversation.pending →
    p ∈ s.conversation.pending := by
    intro p hp
    rw [hpending] at hp
    exact List.mem_of_mem_filter hp
  -- The daemon owes answers only to what was written to it.
  have hwritten : ∀ id, s.wire.owes json id → id ∈ requests json s.wire.written := fun id hid ↦
    List.count_pos_iff.1 (Nat.zero_lt_of_lt hid)
  refine ⟨h.nodup, ?_, fun p hp ↦ h.pending p (hold hp), ?_, fun hs heq ↦
    ?_, hinit.trans h.initialized, fun p hp ↦ ?_, fun id hid ↦ ?_, fun id hid ↦ ?_, h.written⟩
  · rw [hpending]
    exact (List.filter_sublist.map _).trans h.sublist
  · refine Eq.trans ?_ h.handshake
    rw [hhs]
    rcases responseId json line with - | id
    · rfl
    · exact Conversation.handshakeAnswered_line id
  · rw [hhs] at heq
    rcases hres : responseId json line with - | id
    · rw [hres] at heq
      exact h.handshakeId hs heq
    · rw [hres] at heq
      obtain ⟨hs', heq', hid, hline, -⟩ := Conversation.exists_of_handshakeAnswered heq
      rw [hid, hline]
      exact h.handshakeId hs' heq'
  · have hkept := hp
    rw [hpending] at hkept
    rw [s.answers_deliver, h.unanswered p (hold hp), Nat.zero_add]
    -- A request that is kept was not answered by this line, or its answer was swallowed.
    refine if_neg fun hand ↦ ?_
    rcases of_decide_eq_true (List.mem_filter.1 hkept).2 with hne | heq
    · exact hne hand.1
    · exact hand.2 heq
  · rw [hpending, s.answers_deliver]
    rcases h.waits id hid with hmem | hpos
    · obtain ⟨p, hp, rfl⟩ := List.mem_map.1 hmem
      -- Either the line answers it and the host is told, or it still waits.
      by_cases hand : responseId json line = some p.id ∧ s.conversation.swallow ≠ some p.id
      · rw [if_pos hand]
        exact .inr (Nat.succ_pos _)
      · refine .inl (List.mem_map_of_mem (List.mem_filter.2 ⟨hp, decide_eq_true ?_⟩))
        rw [not_and_or, not_not] at hand
        exact hand
    · exact .inr (Nat.lt_of_lt_of_le hpos (Nat.le_add_right _ _))
  · rw [s.answers_deliver] at hid
    by_cases hpos : 0 < answers json id s.told
    · exact h.known id hpos
    · have hand : responseId json line = some id ∧ s.conversation.swallow ≠ some id := by
        by_contra hne
        rw [if_neg hne] at hid
        exact hpos hid
      exact h.written (hwritten id (howes id hand.1))

/-- Only the conversation, the host's side and what was written to the daemon matter. -/
theorem Inv.congr (h : s.Inv json) (hread : s'.read = s.read) (htold : s'.told = s.told)
    (hpending : s'.conversation.pending = s.conversation.pending)
    (hhandshake : s'.conversation.handshake = s.conversation.handshake)
    (hinitialized : s'.conversation.initialized = s.conversation.initialized)
    (hwritten : requests json s'.wire.written ⊆ requests json s.read) : s'.Inv json := by
  constructor
  case written => exact hread ▸ hwritten
  case handshake => rw [hread, hhandshake]; exact h.handshake
  case handshakeId => rw [hhandshake]; exact h.handshakeId
  case initialized => rw [hread, hinitialized]; exact h.initialized
  all_goals
    first | rw [hpending] | skip
    first | rw [htold] | skip
    first | rw [hread] | skip
  · exact h.nodup
  · exact h.sublist
  · exact h.pending
  · exact h.unanswered
  · exact h.waits
  · exact h.known

/-- The relay answers some of the requests itself. -/
theorem Inv.refuse (h : s.Inv json) (f : Pending Line Value → Option String)
    (hread : s'.read = s.read) (htold : s'.told = s.told ++ refusals f s.conversation.pending)
    (hhandshake : s'.conversation.handshake = s.conversation.handshake)
    (hinitialized : s'.conversation.initialized = s.conversation.initialized)
    (hsublist : (s'.conversation.pending.map Pending.line).Sublist
      (s.conversation.pending.map Pending.line))
    (hkept : ∀ p ∈ s'.conversation.pending, ∃ p' ∈ s.conversation.pending, p.id = p'.id ∧
      p.line = p'.line ∧ p.stateChanging = p'.stateChanging ∧ f p' = none)
    (hcases : ∀ p ∈ s.conversation.pending,
      p.id ∈ s'.conversation.pending.map Pending.id ∨ (f p).isSome = true)
    (hwritten : requests json s'.wire.written ⊆ requests json s.read) : s'.Inv json := by
  constructor
  case nodup => exact hread ▸ h.nodup
  case sublist => exact hread ▸ hsublist.trans h.sublist
  case pending =>
    intro p hp
    obtain ⟨p', hp', hid, hline, hsc, -⟩ := hkept p hp
    rw [hid, hline, hsc]
    exact h.pending p' hp'
  case handshake => rw [hread, hhandshake]; exact h.handshake
  case handshakeId => rw [hhandshake]; exact h.handshakeId
  case initialized => rw [hread, hinitialized]; exact h.initialized
  case written => exact hread ▸ hwritten
  case unanswered =>
    intro p hp
    obtain ⟨p', hp', hid, -, -, hnone⟩ := hkept p hp
    rw [htold, answers_append, hid, h.unanswered p' hp', Nat.zero_add]
    by_contra hne
    -- The answer would be to a request with the same id: to this one.
    obtain ⟨q, hq, hsome, hqid⟩ := answers_refusals_pos.1 (Nat.pos_of_ne_zero hne)
    obtain rfl := h.eq_of_id hq hp' hqid
    rw [hnone] at hsome
    cases hsome
  case waits =>
    intro id hid
    rw [htold, answers_append]
    rcases h.waits id (hread ▸ hid) with hmem | hpos
    · obtain ⟨p, hp, rfl⟩ := List.mem_map.1 hmem
      refine (hcases p hp).imp_right fun hsome ↦ ?_
      have hpos : 0 < answers json p.id (refusals f s.conversation.pending) :=
        answers_refusals_pos.2 ⟨p, hp, hsome, rfl⟩
      omega
    · exact .inr (Nat.lt_of_lt_of_le hpos (Nat.le_add_right _ _))
  case known =>
    intro id hid
    rw [hread]
    rw [htold, answers_append] at hid
    by_cases hpos : 0 < answers json id s.told
    · exact h.known id hpos
    · have hpos' : 0 < answers json id (refusals f s.conversation.pending) := by omega
      obtain ⟨p, hp, -, rfl⟩ := answers_refusals_pos.1 hpos'
      exact h.pending_known hp

/-- Answering everybody who waits keeps the invariant. -/
theorem Inv.abandon (h : s.Inv json) (reason : String) : (s.abandon reason).Inv json := by
  refine h.refuse (fun _ ↦ some reason) rfl ?_ rfl rfl (List.nil_sublist _) nofun
    (fun _ _ ↦ .inr rfl) h.written
  show s.told ++ s.conversation.pending.map _ = _
  rw [refusals, ← List.filterMap_eq_map]
  rfl

/-- What is written to a new connection has come from the host. -/
theorem Inv.written_dialed (h : s.Inv json) (n : ℕ) :
    requests json (s.dialed s.conversation.replay.1.toDaemon n).written ⊆ requests json s.read :=
  List.Subset.trans (requests_subset (List.take_subset _ _)) h.requests_toDaemon_subset

/-- Going on over another connection keeps the invariant. -/
theorem Inv.reconnect (h : s.Inv json) (q n : ℕ) : (s.reconnect q n).Inv json := by
  refine h.refuse s.conversation.refusal rfl
    (congrArg (s.told ++ ·) Conversation.replay_toHost) rfl rfl Conversation.replay_pending_line
    (fun p hp ↦ ?_) (fun p hp ↦ Conversation.mem_pending_cases hp) (h.written_dialed n)
  obtain ⟨p', hp', hid, hline, hsc, hcase⟩ := Conversation.mem_replay_pending hp
  refine ⟨p', hp', hid, hline, hsc, ?_⟩
  rcases hcase with ⟨hh, -⟩ | ⟨hh, hr, -⟩
  · exact if_pos hh
  · exact (if_neg (by simp [hh])).trans hr

/-- What a lost connection leads to. -/
theorem lost_cases (s : State Line Value) (reason : String) (dial : Dial) :
    s.inputOpen = false ∧ s.conversation.pending = [] ∧
        s.lost reason dial = { s with verdict := some .served } ∨
      s.lost reason dial = { s with verdict := some .unserved } ∨
      (∃ reason', s.lost reason dial = s.abandon reason') ∨
      ∃ q n, s.lost reason dial = s.reconnect q n := by
  unfold State.lost
  by_cases hend : (!s.inputOpen && s.conversation.pending.isEmpty) = true
  · rw [if_pos hend]
    rw [Bool.and_eq_true, Bool.not_eq_true', List.isEmpty_iff] at hend
    exact .inl ⟨hend.1, hend.2, rfl⟩
  · rw [if_neg hend]
    by_cases hconsumed : (!s.conversation.consumed) = true
    · rw [if_pos hconsumed]
      exact .inr (.inl rfl)
    · rw [if_neg hconsumed]
      refine .inr (.inr ?_)
      generalize (if s.delivered then 1 else s.quickLosses + 1) = q
      simp only
      split_ifs
      · exact .inl ⟨_, rfl⟩
      · rcases dial with - | n
        · exact .inl ⟨_, rfl⟩
        · exact .inr ⟨_, n, rfl⟩

/-- Losing the connection keeps it. -/
theorem Inv.lost (h : s.Inv json) (reason : String) (dial : Dial) :
    (s.lost reason dial).Inv json := by
  obtain ⟨-, -, heq⟩ | heq | ⟨_, heq⟩ | ⟨q, n, heq⟩ := s.lost_cases reason dial <;> rw [heq]
  · exact h.congr rfl rfl rfl rfl rfl h.written
  · exact h.congr rfl rfl rfl rfl rfl h.written
  · exact h.abandon _
  · exact h.reconnect q n

/-- A move finds nothing pending. -/
theorem Inv.move (h : s.Inv json) (hpending : s.conversation.pending = []) (n : ℕ) :
    (s.move n).Inv json := by
  have hnil : s.conversation.replay.2.pending = s.conversation.pending := by
    show s.conversation.pending.filterMap _ = _
    rw [hpending]
    rfl
  unfold State.move
  simp only
  split_ifs
  · exact h.congr rfl rfl hnil rfl rfl h.written
  · exact h.congr rfl rfl hnil rfl rfl (h.written_dialed n)

omit [DecidableEq Value] in
/-- Passing on the end of the input changes two flags. -/
theorem halfClose_eq (s : State Line Value) :
    s.halfClose =
      { s with halfClosed := s.halfClose.halfClosed, draining := s.halfClose.draining } := by
  unfold State.halfClose
  split_ifs <;> rfl

theorem Inv.halfClose (h : s.Inv json) : s.halfClose.Inv json := by
  rw [s.halfClose_eq]
  exact h.congr rfl rfl rfl rfl rfl h.written

/-- **What a turn can do.** -/
inductive Turned (json : Json Line Value) (s : State Line Value) :
    Event Line → State Line Value → Prop
  | hostClosed : Turned json s .hostClosed { s with inputOpen := false }
  | written (line : Line) (dial : Dial) (hopen : s.inputOpen = true) :
      Turned json s (.hostLine line none dial) ((s.consume json line).write line)
  | unwritten (line : Line) (error : String) (dial : Dial) (reason : String)
    (hopen : s.inputOpen = true) :
      Turned json s (.hostLine line (some error) dial) ((s.consume json line).lost reason dial)
  | delivered (line : Line) (howes : ∀ id, responseId json line = some id → s.wire.owes json id) :
      Turned json s (.daemonLine line) (s.deliver json line)
  | readLost (loss : Loss) (dial : Dial) :
    Turned json s (.readLost loss dial) (s.lost loss.reason dial)
  | ticked (superseded : Bool) (dial : Dial) : Turned json s (.tick superseded dial) s
  | moved (n : ℕ) (hpending : s.conversation.pending = []) :
      Turned json s (.tick true (some n)) (s.move n)
  | drained (hdraining : s.draining = true) :
    Turned json s .drained { s with verdict := some .undrained }

/-- A step is one of these, after the end of the input was passed on. -/
theorem turned_of_step {e : Event Line} (hstep : s.step json e = some s') :
    s.verdict = none ∧ Turned json s.halfClose e s' := by
  unfold State.step at hstep
  split_ifs at hstep with hverdict
  refine ⟨by simpa using hverdict, ?_⟩
  generalize s.halfClose = t at hstep
  cases e with
  | hostClosed =>
    obtain ⟨-, heq⟩ := Option.ite_none_right_eq_some.1 hstep
    obtain rfl := Option.some.inj heq
    exact .hostClosed
  | hostLine line failure dial =>
    obtain ⟨hopen, heq⟩ := Option.ite_none_right_eq_some.1 hstep
    rcases failure with - | error <;> obtain rfl := Option.some.inj heq
    · exact .written line dial hopen
    · exact .unwritten line error dial _ hopen
  | daemonLine line =>
    obtain ⟨howes, heq⟩ := Option.ite_none_right_eq_some.1 hstep
    obtain rfl := Option.some.inj heq
    refine .delivered line fun id hid ↦ ?_
    rw [hid, Option.all_some] at howes
    exact of_decide_eq_true howes
  | readLost loss dial =>
    obtain rfl := Option.some.inj hstep
    exact .readLost loss dial
  | tick superseded dial =>
    obtain ⟨-, heq⟩ := Option.ite_none_right_eq_some.1 hstep
    split_ifs at heq with hmove
    · obtain ⟨hpending, rfl⟩ := Bool.and_eq_true_iff.1 hmove
      obtain rfl := Option.some.inj heq
      rcases dial with - | n
      · exact .ticked true none
      · exact .moved n (List.isEmpty_iff.1 hpending)
    · obtain rfl := Option.some.inj heq
      exact .ticked superseded dial
  | drained =>
    obtain ⟨hdraining, heq⟩ := Option.ite_none_right_eq_some.1 hstep
    obtain rfl := Option.some.inj heq
    exact .drained hdraining

/-- **Every step keeps the invariant** when the host's new id is new. -/
theorem Inv.step {e : Event Line} (h : s.Inv json) (hdistinct : s.Distinct json e)
    (hstep : s.step json e = some s') : s'.Inv json := by
  obtain ⟨-, hturned⟩ := turned_of_step hstep
  have hread : s.halfClose.read = s.read := by rw [s.halfClose_eq]
  have h := h.halfClose
  generalize s.halfClose = t at h hturned hread
  cases hturned with
  | hostClosed | ticked | drained => exact h.congr rfl rfl rfl rfl rfl h.written
  | written line dial =>
    refine (h.consume fun id hid ↦ ?_).write (List.mem_append_right _ (List.mem_singleton_self _))
    exact hread ▸ hdistinct line none dial id rfl hid
  | unwritten line error dial reason =>
    refine (h.consume fun id hid ↦ ?_).lost reason dial
    exact hread ▸ hdistinct line (some error) dial id rfl hid
  | delivered line howes => exact h.deliver howes
  | readLost loss dial => exact h.lost _ dial
  | moved n hpending => exact h.move hpending n

end State

theorem inv_start : (machine json).start.Inv json where
  nodup := List.nodup_nil
  sublist := List.Sublist.refl _
  pending := nofun
  handshake := rfl
  handshakeId := nofun
  initialized := rfl
  unanswered := nofun
  waits id hid := absurd hid (not_waits_nil id)
  known _ hid := absurd hid (Nat.lt_irrefl 0)
  written := List.Subset.refl _

end RustCodeMcp.Relay
