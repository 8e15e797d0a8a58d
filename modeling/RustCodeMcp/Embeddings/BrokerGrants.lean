import RustCodeMcp.Embeddings.BrokerRuns

/-!
# Who gets the session

Two consequences of the invariant, for every order of the threads. A key has one session at most, in
one place, and it goes away only when its run panics or the sweep takes it out (`Exclusive`). And a
free slot does not leave its waiters asleep: the one that freed it is about to wake them, or a
waiter that nobody outranks has been woken (`Woken`), and what a waiter takes nobody of a higher
priority was waiting for.

**Both are statements about states, proved by looking at steps.** That a key has one session says
nothing about time, and follows from the invariant alone. That a session goes away in few ways is
said of a step: whoever held or stored it before holds or stores it after, unless the step is one of
those (`live_or_lost`). That nobody is left asleep is an invariant of its own, because what is
excluded is a state from which nothing would ever happen again.

Priorities order the waiters of one slot and nothing else. A waiter goes back to sleep beside a free
slot only if one of a higher priority waits, and then it is that one's turn; a chain of such waiters
ends with one that nobody outranks (`exists_first`).
-/

namespace RustCodeMcp.GpuBroker

open Machine

variable {K : Type} {a : Thread K}

/-- A grant of the slot at `i`, or a creation for it, is in progress. -/
def Thread.busyAt (i : ℕ) (a : Thread K) : Bool :=
  a.creatingAt i || a.grantedAt i

theorem Thread.busyAt_of_session {i x : ℕ} (h : a.session = some (i, x)) : a.busyAt i = true := by
  cases a <;> simp_all [session, busyAt, creatingAt, grantedAt]

namespace Broker

variable {b b' : Broker K} {owner : EmbeddingOwner} {a a' : Thread K} {c : Slot K}

/-! ### One session a key -/

/-- The session is that of the slot at `i`: idle in it, or in the hands of a thread that has it from
there. One that was taken out to be dropped is not. -/
def Live (b : Broker K) (i x : ℕ) : Prop :=
  (b.stateAt i).idles x = true ∨
    ∃ (t : ℕ) (a : Thread K), b.threads[t]? = some a ∧ a.session = some (i, x)

/-- **Exclusivity.** -/
structure Exclusive (b : Broker K) : Prop where
  /-- A key has one slot. -/
  key : ∀ (i j : ℕ) (c d : Slot K), b.slots[i]? = some c → b.slots[j]? = some d →
    c.key = d.key → i = j
  /-- A slot has one session at most. -/
  session : ∀ i x y, b.Live i x → b.Live i y → x = y
  /-- At most one grant or creation is in progress for a slot. -/
  busy : ∀ (i t t' : ℕ) (a a' : Thread K), b.threads[t]? = some a → b.threads[t']? = some a' →
    a.busyAt i = true → a'.busyAt i = true → t = t'
  /-- No session is idle in a slot and held by a thread. -/
  apart : ∀ (i x t : ℕ) (a : Thread K), (b.stateAt i).idles x = true → b.threads[t]? = some a →
    a.holds x = false
  /-- The waiting counters are the numbers of waiters. -/
  waiting : ∀ (i : ℕ) (c : Slot K) p, b.slots[i]? = some c →
    c.waiting p = b.threads.countP (Thread.waitsAt i p)

theorem Inv.busy_unique (h : b.Inv) {i t t' : ℕ} (ha : b.threads[t]? = some a)
    (ha' : b.threads[t']? = some a') (hbusy : a.busyAt i = true) (hbusy' : a'.busyAt i = true) :
    t = t' := by
  have hcount : b.threads.countP (Thread.busyAt i) ≤ 1 := by
    have hle : b.threads.countP (Thread.busyAt i) ≤
        b.threads.countP (Thread.creatingAt i) + b.threads.countP (Thread.grantedAt i) := by
      induction b.threads with
      | nil => exact Nat.le_refl 0
      | cons a l ih =>
        simp only [List.countP_cons]
        rcases hc : a.creatingAt i with - | - <;> rcases hg : a.grantedAt i with - | - <;>
          simp [Thread.busyAt, hc, hg] <;> omega
    rw [h.creating, h.granted] at hle
    have hone : (b.stateAt i).isCreating.toNat + (b.stateAt i).isGranted.toNat ≤ 1 := by
      cases b.stateAt i <;> simp [SlotState.isCreating, SlotState.isGranted]
    exact Nat.le_trans hle hone
  exact Pool.eq_of_countP_le_one hcount ha hbusy ha' hbusy'

/-- A thread with a session of the slot at `i` keeps the slot from being idle. -/
theorem Inv.not_idles (h : b.Inv) {i t : ℕ} (ha : b.threads[t]? = some a)
    (hbusy : a.busyAt i = true) (x : ℕ) : (b.stateAt i).idles x = false := by
  rcases Bool.or_eq_true_iff.1 hbusy with hcreating | hgranted
  · have hpos := Pool.countP_pos_of_getElem? ha hcreating
    rw [h.creating] at hpos
    cases hstate : b.stateAt i with
    | idle y since => simp [hstate, SlotState.isCreating] at hpos
    | _ => rfl
  · have hpos := Pool.countP_pos_of_getElem? ha hgranted
    rw [h.granted] at hpos
    cases hstate : b.stateAt i with
    | idle y since => simp [hstate, SlotState.isGranted] at hpos
    | _ => rfl

theorem idles_inj {st : SlotState} {x y : ℕ} (hx : st.idles x = true) (hy : st.idles y = true) :
    x = y := by
  cases st with
  | idle z since => exact (of_decide_eq_true hx).symm.trans (of_decide_eq_true hy)
  | _ => cases hx

theorem Inv.exclusive (h : b.Inv) : b.Exclusive where
  key i j c d hc hd heq := by
    have hi : (b.slots.map (·.key))[i]? = some c.key := by rw [List.getElem?_map, hc]; rfl
    have hj : (b.slots.map (·.key))[j]? = some c.key := by rw [List.getElem?_map, hd, heq]; rfl
    obtain ⟨hlt, -⟩ := List.getElem?_eq_some_iff.1 hi
    exact (List.getElem?_inj hlt h.nodup).1 (hi.trans hj.symm)
  session i x y hx hy := by
    rcases hx with hx | ⟨t, a, ha, hx⟩ <;> rcases hy with hy | ⟨t', a', ha', hy⟩
    · exact idles_inj hx hy
    · rw [h.not_idles ha' (Thread.busyAt_of_session hy)] at hx
      cases hx
    · rw [h.not_idles ha (Thread.busyAt_of_session hx)] at hy
      cases hy
    · obtain rfl := h.busy_unique ha ha' (Thread.busyAt_of_session hx) (Thread.busyAt_of_session hy)
      obtain rfl := Option.some.inj (ha.symm.trans ha')
      exact (Prod.mk.inj (Option.some.inj (hx.symm.trans hy))).2
  busy i t t' a a' ha ha' := h.busy_unique ha ha'
  apart i x t a hidle ha := by
    by_contra hholds
    have hthread := Pool.countP_pos_of_getElem? ha (by simpa using hholds)
    have hslot : 0 < b.slots.countP fun slot ↦ slot.state.idles x := by
      rcases hc : b.slots[i]? with - | c
      · rw [stateAt, hc] at hidle
        cases hidle
      · exact Pool.countP_pos_of_getElem? hc (by rwa [← stateAt_eq hc])
    have := h.sessions x
    omega
  waiting i c p hc := by rw [h.waiting i p, waitingAt_eq hc]

/-! ### How a session goes away -/

/-- The three ways a session leaves the broker: a panic of its holder, the sweep, a failed creation.
The last one loses no session that was there. -/
inductive Lost (b : Broker K) (i x : ℕ) : Event K → Prop
  | panicked {t : ℕ} (h : b.threads[t]? = some (.holding i x)) : Lost b i x (.drop t true)
  | swept {t maxIdle : ℕ} (h : b.threads[t]? = some (.called (.takeIdle maxIdle)))
      (hidle : (b.stateAt i).idles x = true) : Lost b i x (.enter t)

theorem Live.move {t i j x : ℕ} {c c' : Slot K} (h : b.Live j x)
    (ha : b.threads[t]? = some a) (hc : b.slots[i]? = some c)
    (hthread : ∀ y, a.session = some (j, y) → j = i ∧
      (c'.state.idles y = true ∨ a'.session = some (i, y)))
    (hslot : ∀ y, c.state.idles y = true → c'.state.idles y = true ∨ a'.session = some (i, y)) :
    (b.move t a' i c').Live j x := by
  have hlt := (List.getElem?_eq_some_iff.1 ha).1
  have hat : (b.move t a' i c').threads[t]? = some a' := List.getElem?_set_self hlt
  rcases h with hidle | ⟨s, d, hd, hsession⟩
  · by_cases hj : j = i
    · subst hj
      rw [stateAt_eq hc] at hidle
      rcases hslot x hidle with hidle' | hsession
      · exact .inl (by rwa [stateAt_move hc, if_pos rfl])
      · exact .inr ⟨t, a', hat, hsession⟩
    · exact .inl (by rwa [stateAt_move hc, if_neg hj])
  · by_cases hs : s = t
    · subst hs
      obtain rfl := Option.some.inj (ha.symm.trans hd)
      obtain ⟨rfl, hidle' | hsession'⟩ := hthread x hsession
      · exact .inl (by rwa [stateAt_move hc, if_pos rfl])
      · exact .inr ⟨s, a', hat, hsession'⟩
    · refine .inr ⟨s, d, ?_, hsession⟩
      show (b.threads.set t a')[s]? = some d
      rw [List.getElem?_set_ne (Ne.symm hs), hd]

/-- A thread that changes alone keeps the sessions it had. -/
theorem Live.thread {t j x : ℕ} (h : b.Live j x) (ha : b.threads[t]? = some a)
    (hsession : ∀ y, a.session = some y → a'.session = some y) :
    ({ b with threads := b.threads.set t a' }).Live j x := by
  rcases h with hidle | ⟨s, d, hd, hx⟩
  · exact .inl hidle
  · by_cases hs : s = t
    · subst hs
      obtain rfl := Option.some.inj (ha.symm.trans hd)
      exact .inr ⟨s, a', List.getElem?_set_self (List.getElem?_eq_some_iff.1 ha).1, hsession _ hx⟩
    · exact .inr ⟨s, d, (List.getElem?_set_ne (Ne.symm hs)).trans hd, hx⟩

theorem session_grantTurn {i now x : ℕ}
    (hidle : c.state.idles x = true) : (grantTurn i owner now c).1.state.idles x = true ∨
      (grantTurn i owner now c).2.session = some (i, x) := by
  unfold grantTurn
  split_ifs
  · exact .inl hidle
  · cases hstate : c.state with
    | idle y since =>
      rw [hstate] at hidle
      obtain rfl : y = x := of_decide_eq_true hidle
      exact .inr rfl
    | _ =>
      rw [hstate] at hidle
      cases hidle

/-- **A session disappears only through a panic of its holder or the idle sweep.** -/
theorem live_or_lost [DecidableEq K] {e : Event K} {i x : ℕ} (h : b.Inv)
    (hstep : b.step e = some b') (hlive : b.Live i x) : b'.Live i x ∨ b.Lost i x e := by
  -- Making a slot for a new key moves no session.
  have hindex : ∀ key, ({ b with slots := (slotIndex b.slots key).2 }).Live i x := by
    intro key
    rcases hlive with hidle | hthread
    · exact .inl (by rwa [stateAt_slotIndex])
    · exact .inr hthread
  cases stepped_of_step hstep with
  | call request =>
    rcases hlive with hidle | ⟨t, a, ha, hx⟩
    · exact .inl (.inl hidle)
    · exact .inl (.inr ⟨t, a, Pool.getElem?_concat _ ha, hx⟩)
  | @grant t j key owner slots c ha hi hc =>
    have hslots := hindex key
    rw [hi] at hslots
    exact .inl (hslots.move (a := Thread.called (.grant key owner)) ha hc (fun y hy ↦ by cases hy)
      fun y hy ↦ session_grantTurn hy)
  | @ensure t j key owner slots c ha hi hc hstate =>
    have hslots := hindex key
    rw [hi] at hslots
    refine .inl (hslots.move (a := Thread.called (.ensure key owner)) ha hc (fun y hy ↦ by cases hy)
      fun y hy ↦ ?_)
    rw [hstate] at hy
    cases hy
  | @ensured t j key owner slots c ha hi hc =>
    have hslots := hindex key
    rw [hi] at hslots
    exact .inl (hslots.move (a := Thread.called (.ensure key owner)) ha hc (fun y hy ↦ by cases hy)
      fun y hy ↦ .inl hy)
  | @takeIdle t maxIdle ha =>
    rcases hlive with hidle | ⟨s, d, hd, hx⟩
    · exact .inr (.swept ha hidle)
    -- The sweeping thread held no session of its own.
    · have hs : s ≠ t := by
        rintro rfl
        obtain rfl := Option.some.inj (ha.symm.trans hd)
        cases hx
      exact .inl (.inr ⟨s, d, (List.getElem?_set_ne (Ne.symm hs)).trans hd, hx⟩)
  | wake ha hc =>
    exact .inl (hlive.move ha hc (fun y hy ↦ by cases hy) fun y hy ↦ session_grantTurn hy)
  | createOk ha => exact .inl (hlive.thread ha fun y hy ↦ by cases hy)
  | createFails ha hc =>
    -- The slot was being created in, so there was no session in it to lose.
    obtain ⟨o, hstate⟩ := h.state_creating ha (decide_eq_true rfl) hc
    refine .inl (hlive.move ha hc (fun y hy ↦ by cases hy) fun y hy ↦ ?_)
    rw [hstate] at hy
    cases hy
  | @handOver t j z owner ensuring c ha hc =>
    obtain ⟨o, hstate⟩ := h.state_creating ha (decide_eq_true rfl) hc
    refine .inl (hlive.move ha hc (fun y hy ↦ ?_) fun y hy ↦ ?_)
    · obtain ⟨rfl, rfl⟩ := Prod.mk.inj (Option.some.inj hy)
      exact ⟨rfl, .inr (by cases ensuring <;> rfl)⟩
    · rw [hstate] at hy
      cases hy
  | uncount ha hc =>
    refine .inl (hlive.move ha hc (fun y hy ↦ ?_) fun y hy ↦ .inl hy)
    obtain ⟨rfl, rfl⟩ := Prod.mk.inj (Option.some.inj hy)
    exact ⟨rfl, .inr rfl⟩
  | @discarded t j z c ha hc =>
    obtain ⟨o, since, hstate⟩ := h.state_granted ha (decide_eq_true rfl) hc
    -- The session the panic unwound through is the one that is lost.
    by_cases hz : i = j ∧ x = z
    · obtain ⟨rfl, rfl⟩ := hz
      exact .inr (.panicked ha)
    · rcases hlive with hidle | ⟨s, d, hd, hx⟩
      · refine .inl (.inl ?_)
        rw [stateAt_move hc]
        split_ifs with hij
        · rw [hij, stateAt_eq hc, hstate] at hidle
          cases hidle
        · exact hidle
      · have hs : s ≠ t := by
          rintro rfl
          obtain rfl := Option.some.inj (ha.symm.trans hd)
          obtain ⟨rfl, rfl⟩ := Prod.mk.inj (Option.some.inj hx)
          exact hz ⟨rfl, rfl⟩
        refine .inl (.inr ⟨s, d, ?_, hx⟩)
        show (b.threads.set t _)[s]? = some d
        rw [List.getElem?_set_ne (Ne.symm hs), hd]
  | @returned t j z c ha hc =>
    obtain ⟨o, since, hstate⟩ := h.state_granted ha (decide_eq_true rfl) hc
    refine .inl (hlive.move ha hc (fun y hy ↦ ?_) fun y hy ↦ ?_)
    · obtain ⟨rfl, rfl⟩ := Prod.mk.inj (Option.some.inj hy)
      exact ⟨rfl, .inl (decide_eq_true rfl)⟩
    · rw [hstate] at hy
      cases hy
  | @notify t j gone ha =>
    have hdrop : ({ b with threads := b.threads.set t (.dropping gone.toList) }).Live i x :=
      hlive.thread ha fun y hy ↦ by cases hy
    rcases hdrop with hidle | ⟨s, d, hd, hx⟩
    · exact .inl (.inl hidle)
    · refine .inl (.inr ⟨s, d, ?_, hx⟩)
      show (notifyAll _)[s]? = some d
      rw [notifyAll, List.getElem?_map, hd]
      -- A wake-up changes only threads that wait, and these hold none.
      cases d <;> first | rfl | cases hx
  | discard ha => exact .inl (hlive.thread ha fun y hy ↦ by cases hy)
  | tick => exact .inl hlive

/-- **One session a key.** In every reachable state of the broker a key has one slot, a slot one
session and one grant or creation at most, no session is idle and held at once, and the counters are
right; and from there a session goes away by a panic of its holder or the sweep alone. -/
theorem exclusive_of_reachable [DecidableEq K] (h : (machine K).Reachable Any b) :
    b.Exclusive ∧ ∀ e b' i x, b.step e = some b' → b.Live i x → b'.Live i x ∨ b.Lost i x e := by
  have hinv := inv_of_reachable h
  exact ⟨hinv.exclusive, fun e b' i x hstep hlive ↦ live_or_lost hinv hstep hlive⟩

theorem exclusive_of_reachable_building :
    (((machine ℕ).run (machine ℕ).start [.call (.grant 0 .index), .enter 0, .createOk 0,
      .call (.grant 0 .search), .enter 1]).get (by decide)).Exclusive :=
  (exclusive_of_reachable (reachable_get (by decide))).1

/-! ### Nobody is left asleep -/

/-- A waiter that nobody outranks has been notified and has not looked at its slot since. -/
def Roused (b : Broker K) (i : ℕ) : Prop :=
  ∃ (t : ℕ) (owner : EmbeddingOwner), b.threads[t]? = some (.waiting i owner true) ∧
    ∀ (t' : ℕ) (owner' : EmbeddingOwner) (n : Bool), b.threads[t']? = some (.waiting i owner' n) →
      (Priority.of owner).rank ≤ (Priority.of owner').rank

/-- A run of a higher priority waits for the slot at `i`. -/
def Outranks (b : Broker K) (i : ℕ) (owner : EmbeddingOwner) : Prop :=
  ∃ (t : ℕ) (owner' : EmbeddingOwner) (n : Bool), b.threads[t]? = some (.waiting i owner' n) ∧
    (Priority.of owner').rank < (Priority.of owner).rank

/-- The slot at `i` was freed and its waiters are about to be notified. -/
def Notifying (b : Broker K) (i : ℕ) : Prop :=
  ∃ (t : ℕ) (gone : Option ℕ), b.threads[t]? = some (.notifying i gone)

/-- Who sleeps beside a free slot is outranked, or about to be woken. -/
def Woken (b : Broker K) : Prop :=
  ∀ (i t : ℕ) (owner : EmbeddingOwner), b.threads[t]? = some (.waiting i owner false) →
    (b.stateAt i).Free → b.Outranks i owner ∨ b.Notifying i

/-- A thread and the slot at `i` change together. -/
theorem Woken.move {t i : ℕ} {c c' : Slot K} (h : b.Woken)
    (ha : b.threads[t]? = some a) (hc : b.slots[i]? = some c)
    (hnot : ∀ j gone, a ≠ .notifying j gone)
    (hat : ∀ j owner n, a = .waiting j owner n ∨ a' = .waiting j owner n → j = i)
    (hfree : c'.state.Free → (∃ gone, a' = .notifying i gone) ∨
      c.state.Free ∧ ∀ owner n, a = .waiting i owner n → ∃ n', a' = .waiting i owner n')
    (hsleep : ∀ owner, a' = .waiting i owner false → c'.state.Free →
      ∃ (s : ℕ) (owner' : EmbeddingOwner) (n : Bool), s ≠ t ∧
        b.threads[s]? = some (.waiting i owner' n) ∧
        (Priority.of owner').rank < (Priority.of owner).rank) :
    (b.move t a' i c').Woken := by
  have hself : (b.move t a' i c').threads[t]? = some a' :=
    List.getElem?_set_self (List.getElem?_eq_some_iff.1 ha).1
  have hother : ∀ {s : ℕ} {d : Thread K}, s ≠ t → b.threads[s]? = some d →
      (b.move t a' i c').threads[s]? = some d :=
    fun hs hd ↦ (List.getElem?_set_ne (Ne.symm hs)).trans hd
  have hnotifying : ∀ {j : ℕ}, b.Notifying j → (b.move t a' i c').Notifying j := by
    rintro j ⟨s, gone, hs⟩
    refine ⟨s, gone, hother ?_ hs⟩
    rintro rfl
    exact hnot j gone (Option.some.inj (ha.symm.trans hs))
  intro j s owner hs hj
  rw [stateAt_move hc] at hj
  rcases Pool.getElem?_set_cases hs with ⟨rfl, heq⟩ | ⟨hne, hold⟩
  · -- The thread that moved went to sleep: somebody else outranks it.
    obtain rfl := hat j owner false (.inr heq.symm)
    rw [if_pos rfl] at hj
    obtain ⟨s', owner', n, hs', hd, hrank⟩ := hsleep owner heq.symm hj
    exact .inl ⟨s', owner', n, hother hs' hd, hrank⟩
  · by_cases hji : j = i
    · subst hji
      rw [if_pos rfl] at hj
      rcases hfree hj with ⟨gone, rfl⟩ | ⟨hold', hkept⟩
      · exact .inr ⟨t, gone, hself⟩
      rcases h j s owner hold (by rwa [stateAt_eq hc]) with ⟨s', owner', n, hd, hrank⟩ | hn
      · by_cases hs' : s' = t
        · subst hs'
          obtain ⟨n', rfl⟩ := hkept owner' n (Option.some.inj (ha.symm.trans hd))
          exact .inl ⟨s', owner', n', hself, hrank⟩
        · exact .inl ⟨s', owner', n, hother hs' hd, hrank⟩
      · exact .inr (hnotifying hn)
    · rw [if_neg hji] at hj
      rcases h j s owner hold hj with ⟨s', owner', n, hd, hrank⟩ | hn
      · refine .inl ⟨s', owner', n, hother ?_ hd, hrank⟩
        rintro rfl
        exact hji (hat j owner' n (.inl (Option.some.inj (ha.symm.trans hd))))
      · exact .inr (hnotifying hn)

/-- A thread changes alone, neither a waiter nor about to notify. -/
theorem Woken.thread {t : ℕ} (h : b.Woken) (ha : b.threads[t]? = some a)
    (hnot : ∀ j gone, a ≠ .notifying j gone)
    (hat : ∀ j owner n, a ≠ .waiting j owner n ∧ a' ≠ .waiting j owner n) :
    ({ b with threads := b.threads.set t a' }).Woken := by
  have hother : ∀ {s : ℕ} {d : Thread K}, s ≠ t → b.threads[s]? = some d →
      (b.threads.set t a')[s]? = some d :=
    fun hs hd ↦ (List.getElem?_set_ne (Ne.symm hs)).trans hd
  intro j s owner hs hj
  rcases Pool.getElem?_set_cases hs with ⟨-, heq⟩ | ⟨-, hold⟩
  · exact absurd heq.symm (hat j owner false).2
  rcases h j s owner hold hj with ⟨s', owner', n, hd, hrank⟩ | ⟨s', gone, hd⟩
  · refine .inl ⟨s', owner', n, hother ?_ hd, hrank⟩
    rintro rfl
    exact (hat j owner' n).1 (Option.some.inj (ha.symm.trans hd))
  · refine .inr ⟨s', gone, hother ?_ hd⟩
    rintro rfl
    exact hnot j gone (Option.some.inj (ha.symm.trans hd))

/-- What outranks a run is a waiter, by the counters. -/
theorem Inv.outranks {i : ℕ} (h : b.Inv)
    (hc : b.slots[i]? = some c) (hout : c.outranked owner = true) : b.Outranks i owner := by
  obtain ⟨p, hp, hpos⟩ := List.any_eq_true.1 hout
  have hrank : p.rank < (Priority.of owner).rank := by
    revert hp
    cases p <;> cases owner <;> decide
  rw [decide_eq_true_eq, ← waitingAt_eq hc, ← h.waiting] at hpos
  obtain ⟨t, a, ha, hat⟩ := Pool.exists_of_countP_pos hpos
  cases a with
  | waiting j owner' n =>
    obtain ⟨hj, rfl⟩ : j = i ∧ Priority.of owner' = p := by simpa [Thread.waitsAt] using hat
    exact ⟨t, owner', n, hj ▸ ha, hrank⟩
  | _ => cases hat

/-- What nobody outranks has the lowest rank of those that wait. -/
theorem Inv.rank_le {i : ℕ} (h : b.Inv)
    (hc : b.slots[i]? = some c) (hout : c.outranked owner = false) {t : ℕ}
    {owner' : EmbeddingOwner} {n : Bool} (ha : b.threads[t]? = some (.waiting i owner' n)) :
    (Priority.of owner).rank ≤ (Priority.of owner').rank := by
  by_contra hlt
  have hmem : Priority.of owner' ∈ Priority.all.take (Priority.of owner).rank := by
    revert hlt
    cases owner <;> cases owner' <;> decide
  have hnone := List.any_eq_false.1 hout _ hmem
  exact hnone (decide_eq_true (h.waiting_pos ha hc))

/-- Counting one's own kind of run does not make one outranked. -/
theorem outranked_enqueue (owner : EmbeddingOwner) (c : Slot K) :
    (c.enqueue owner).outranked owner = c.outranked owner := by
  cases owner <;> rfl

/-- A waiter that goes back to sleep beside a free slot was outranked. -/
theorem outranked_of_grantTurn {i j now : ℕ} {owner owner' : EmbeddingOwner} {n : Bool}
    (hturn : (grantTurn i owner now c).2 = .waiting j owner' n)
    (hfree : (grantTurn i owner now c).1.state.Free) : c.outranked owner = true := by
  by_contra hout
  rw [grantTurn, if_neg hout] at hturn hfree
  cases hstate : c.state with
  | creating o => simp [hstate, SlotState.Free] at hfree
  | granted o since => simp [hstate, SlotState.Free] at hfree
  | _ => simp [hstate] at hturn

/-- A turn of the loop keeps the waiters of a free slot awake. -/
theorem Woken.turn {t i : ℕ} {c d : Slot K} (h : b.Woken)
    (ha : b.threads[t]? = some a) (hc : b.slots[i]? = some c) (hstate : d.state = c.state)
    (ha' : (∃ key, a = .called (.grant key owner)) ∨ ∃ n, a = .waiting i owner n)
    (hout : d.outranked owner = true → b.Outranks i owner) :
    (b.move t (grantTurn i owner b.now d).2 i (grantTurn i owner b.now d).1).Woken := by
  have hwaits : ∀ {o n}, (grantTurn i owner b.now d).2 = .waiting i o n → o = owner := by
    intro o n
    unfold grantTurn
    split_ifs
    · rintro ⟨⟩
      rfl
    · split <;> rintro ⟨⟩
      rfl
  refine h.move ha hc ?_ ?_ ?_ ?_
  · rcases ha' with ⟨key, rfl⟩ | ⟨n, rfl⟩ <;> rintro j gone ⟨⟩
  · rintro j o n (rfl | hwait)
    · rcases ha' with ⟨key, ⟨⟩⟩ | ⟨n, ⟨⟩⟩
      rfl
    · revert hwait
      unfold grantTurn
      split_ifs
      · rintro ⟨⟩
        rfl
      · split <;> rintro ⟨⟩
        rfl
  · intro hfree
    refine .inr ?_
    revert hfree
    unfold grantTurn
    split_ifs
    · intro hfree
      refine ⟨hstate ▸ hfree, fun o n heq ↦ ?_⟩
      rcases ha' with ⟨key, rfl⟩ | ⟨n', rfl⟩ <;> cases heq
      exact ⟨false, rfl⟩
    · cases hd : d.state with
      | creating o => simp [hd, SlotState.Free]
      | granted o since => simp [hd, SlotState.Free]
      | _ => exact fun hfree ↦ hfree.elim
  · intro o hsleep hfree
    obtain rfl := hwaits hsleep
    obtain ⟨s, o', n, hs, hrank⟩ := hout (outranked_of_grantTurn hsleep hfree)
    refine ⟨s, o', n, ?_, hs, hrank⟩
    rintro rfl
    obtain rfl := Option.some.inj (ha.symm.trans hs)
    rcases ha' with ⟨key, ⟨⟩⟩ | ⟨n', ⟨⟩⟩
    exact Nat.lt_irrefl _ hrank

theorem Woken.slotIndex [DecidableEq K] (h : b.Woken) (key : K) :
    ({ b with slots := (GpuBroker.slotIndex b.slots key).2 }).Woken := by
  intro j s owner hs hj
  rw [stateAt_slotIndex] at hj
  exact h j s owner hs hj

/-- **Every step keeps waiters from being left asleep.** -/
theorem Woken.step [DecidableEq K] {e : Event K} (h : b.Woken) (hinv : b.Inv)
    (hstep : b.step e = some b') : b'.Woken := by
  cases stepped_of_step hstep with
  | call request =>
    intro j s owner hs hj
    rcases Pool.getElem?_concat_cases hs with hold | ⟨⟨⟩⟩
    rcases h j s owner hold hj with ⟨s', owner', n, hd, hrank⟩ | ⟨s', gone, hd⟩
    · exact .inl ⟨s', owner', n, Pool.getElem?_concat _ hd, hrank⟩
    · exact .inr ⟨s', gone, Pool.getElem?_concat _ hd⟩
  | @grant t i key owner slots c ha hi hc =>
    have hslots := h.slotIndex key
    have hinv' := hinv.slotIndex key
    rw [hi] at hslots hinv'
    refine hslots.turn ha hc rfl (.inl ⟨key, rfl⟩) fun hout ↦ ?_
    exact hinv'.outranks hc (outranked_enqueue owner c ▸ hout)
  | @ensure t i key owner slots c ha hi hc hstate =>
    have hslots := h.slotIndex key
    rw [hi] at hslots
    refine hslots.move ha hc (by rintro j gone ⟨⟩) ?_ (fun hfree ↦ hfree.elim) (by rintro o ⟨⟩)
    rintro j o n (⟨⟨⟩⟩ | ⟨⟨⟩⟩)
  | @ensured t i key owner slots c ha hi hc =>
    have hslots := h.slotIndex key
    rw [hi] at hslots
    refine hslots.move ha hc (by rintro j gone ⟨⟩) ?_
      (fun hfree ↦ .inr ⟨hfree, ?_⟩) (by rintro o ⟨⟩)
    · rintro j o n (⟨⟨⟩⟩ | ⟨⟨⟩⟩)
    · rintro o n ⟨⟩
  | @takeIdle t maxIdle ha =>
    let gone := b.slots.filterMap (Slot.stale maxIdle b.now)
    have hthread : ({ b with threads := b.threads.set t (.dropping gone) }).Woken :=
      h.thread ha (by rintro j gone ⟨⟩) fun j o n ↦ ⟨by rintro ⟨⟩, by rintro ⟨⟩⟩
    intro j s owner hs hj
    refine hthread j s owner hs ?_
    -- The sweep empties idle slots: what is free afterwards was free before.
    rcases hc : b.slots[j]? with - | c
    · simp [stateAt, hc, SlotState.Free]
    · rw [stateAt_eq (show _ = some (c.swept maxIdle b.now) by simp [hc])] at hj
      show (b.stateAt j).Free
      rw [stateAt_eq hc]
      rcases swept_cases maxIdle b.now c with heq | ⟨x, since, hstate, -⟩
      · rwa [heq] at hj
      · simp [hstate, SlotState.Free]
  | wake ha hc =>
    exact h.turn ha hc rfl (.inr ⟨_, rfl⟩) fun hout ↦ hinv.outranks hc hout
  | createOk ha =>
    exact h.thread ha (by rintro j gone ⟨⟩) fun j o n ↦ ⟨by rintro ⟨⟩, by rintro ⟨⟩⟩
  | createFails ha hc =>
    refine h.move ha hc (by rintro j gone ⟨⟩) ?_ (fun _ ↦ .inl ⟨_, rfl⟩) (by rintro o ⟨⟩)
    rintro j o n (⟨⟨⟩⟩ | ⟨⟨⟩⟩)
  | @handOver t j z owner ensuring c ha hc =>
    have hquiet : ∀ i o n, (if ensuring then Thread.uncounted j z else .holding j z) ≠
        (.waiting i o n : Thread K) := by
      cases ensuring <;> rintro i o n ⟨⟩
    refine h.move ha hc (by rintro j gone ⟨⟩) ?_ (fun hfree ↦ hfree.elim)
      fun o heq ↦ absurd heq (hquiet _ _ _)
    rintro j o n (⟨⟨⟩⟩ | heq)
    exact absurd heq (hquiet _ _ _)
  | uncount ha hc =>
    refine h.move ha hc (by rintro j gone ⟨⟩) ?_ (fun hfree ↦ .inr ⟨hfree, ?_⟩) (by rintro o ⟨⟩)
    · rintro j o n (⟨⟨⟩⟩ | ⟨⟨⟩⟩)
    · rintro o n ⟨⟩
  | discarded ha hc =>
    refine h.move ha hc (by rintro j gone ⟨⟩) ?_ (fun _ ↦ .inl ⟨_, rfl⟩) (by rintro o ⟨⟩)
    rintro j o n (⟨⟨⟩⟩ | ⟨⟨⟩⟩)
  | returned ha hc =>
    refine h.move ha hc (by rintro j gone ⟨⟩) ?_ (fun _ ↦ .inl ⟨_, rfl⟩) (by rintro o ⟨⟩)
    rintro j o n (⟨⟨⟩⟩ | ⟨⟨⟩⟩)
  | @notify t j gone ha =>
    intro i s owner hs hi
    rw [show ∀ l : List (Thread K), (notifyAll l)[s]? = l[s]?.map _ from
      fun l ↦ List.getElem?_map] at hs
    obtain ⟨d, -, hd⟩ := Option.map_eq_some_iff.1 hs
    cases d <;> cases hd
  | discard ha =>
    exact h.thread ha (by rintro j gone ⟨⟩) fun j o n ↦ ⟨by rintro ⟨⟩, by rintro ⟨⟩⟩
  | tick => exact h

theorem woken_of_reachable [DecidableEq K] (h : (machine K).Reachable Any b) : b.Woken := by
  have hboth : b.Inv ∧ b.Woken :=
    h.invariant (P := fun b ↦ b.Inv ∧ b.Woken)
      ⟨inv_of_reachable Reachable.start, fun i t owner ht ↦ by cases ht⟩
      fun b e b' _ hstep hb ↦ ⟨hb.1.step hstep, hb.2.step hb.1 hstep⟩
  exact hboth.2

/-- Of the waiters of a slot, one that nobody outranks. -/
theorem exists_first {i t : ℕ} {n : Bool} (ha : b.threads[t]? = some (.waiting i owner n)) :
    ∃ (s : ℕ) (o : EmbeddingOwner) (m : Bool), b.threads[s]? = some (.waiting i o m) ∧
      ∀ (s' : ℕ) (o' : EmbeddingOwner) (m' : Bool), b.threads[s']? = some (.waiting i o' m') →
        (Priority.of o).rank ≤ (Priority.of o').rank := by
  by_contra hnone
  push Not at hnone
  have hlower : ∀ k (s : ℕ) (o : EmbeddingOwner) (m : Bool), (Priority.of o).rank ≤ k →
      b.threads[s]? ≠ some (.waiting i o m) := by
    intro k
    induction k with
    | zero =>
      intro s o m hle hs
      obtain ⟨s', o', m', -, hlt⟩ := hnone s o m hs
      omega
    | succ k ih =>
      intro s o m hle hs
      obtain ⟨s', o', m', hs', hlt⟩ := hnone s o m hs
      exact ih s' o' m' (by omega) hs'
  exact hlower _ t owner n (Nat.le_refl _) ha

/-- Beside a free slot with waiters, one of the first to go is awake, or all are about to be
woken. -/
theorem Woken.roused (h : b.Woken) {i t : ℕ} {n : Bool}
    (ha : b.threads[t]? = some (.waiting i owner n)) (hfree : (b.stateAt i).Free) :
    b.Roused i ∨ b.Notifying i := by
  obtain ⟨s, o, m, hs, hfirst⟩ := exists_first ha
  cases m with
  | true => exact .inl ⟨s, o, hs, hfirst⟩
  | false =>
    rcases h i s o hs hfree with ⟨s', o', m', hs', hlt⟩ | hn
    · have := hfirst s' o' m' hs'
      omega
    · exact .inr hn

/-! ### In the order of the priorities -/

end Broker

/-- In the loop of `grant` for the slot at `i`, or about to enter it. -/
def Thread.Asks (i : ℕ) (owner : EmbeddingOwner) (a : Thread K) : Prop :=
  (∃ key, a = .called (.grant key owner)) ∨ ∃ n, a = .waiting i owner n

/-- Out of the loop, with the session of the slot at `i` or to build it. -/
def Thread.Takes (i : ℕ) (owner : EmbeddingOwner) (a : Thread K) : Prop :=
  (∃ x, a = .holding i x) ∨ a = .creating i owner false

theorem Thread.Asks.not_takes {i : ℕ} {owner : EmbeddingOwner} (h : a.Asks i owner) :
    ¬a.Takes i owner := by
  rcases h with ⟨key, rfl⟩ | ⟨n, rfl⟩ <;> rintro (⟨x, ⟨⟩⟩ | ⟨⟨⟩⟩)

/-- Who takes the session is not outranked. -/
theorem not_outranked_of_takes {i j now : ℕ} {owner o : EmbeddingOwner} {c : Slot K}
    (h : (grantTurn j o now c).2.Takes i owner) : j = i ∧ c.outranked o = false := by
  revert h
  unfold grantTurn
  split_ifs with hout
  · rintro (⟨x, ⟨⟩⟩ | ⟨⟨⟩⟩)
  · split
    · rintro (⟨x, ⟨⟩⟩ | ⟨⟨⟩⟩)
      exact ⟨rfl, by simpa using hout⟩
    · rintro (⟨x, ⟨⟩⟩ | ⟨⟨⟩⟩)
      exact ⟨rfl, by simpa using hout⟩
    · rintro (⟨x, ⟨⟩⟩ | ⟨⟨⟩⟩)

/-- The thread that took the session is the one that moved. -/
theorem asks_takes_of_set {l : List (Thread K)} {s t i : ℕ} {d d' a a' : Thread K}
    {owner : EmbeddingOwner} (hd : l[s]? = some d) (ha : l[t]? = some a) (hasks : a.Asks i owner)
    (ha' : (l.set s d')[t]? = some a') (htakes : a'.Takes i owner) :
    d.Asks i owner ∧ d'.Takes i owner := by
  rcases Pool.getElem?_set_cases ha' with ⟨rfl, rfl⟩ | ⟨-, hold⟩
  · obtain rfl := Option.some.inj (hd.symm.trans ha)
    exact ⟨hasks, htakes⟩
  · obtain rfl := Option.some.inj (ha.symm.trans hold)
    exact absurd htakes hasks.not_takes

namespace Broker

variable {b b' : Broker K}

/-- A run in `grant` takes the session of the slot at `i`. -/
def Takes (b b' : Broker K) (i : ℕ) (owner : EmbeddingOwner) : Prop :=
  ∃ (t : ℕ) (a a' : Thread K), b.threads[t]? = some a ∧ a.Asks i owner ∧
    b'.threads[t]? = some a' ∧ a'.Takes i owner

/-- **Nobody takes the session before a waiter of a higher priority.** -/
theorem rank_of_takes [DecidableEq K] {e : Event K} {i t' : ℕ} {owner owner' : EmbeddingOwner}
    {n : Bool} (h : b.Inv) (hstep : b.step e = some b') (htakes : b.Takes b' i owner)
    (hwait : b.threads[t']? = some (.waiting i owner' n)) :
    (Priority.of owner).rank ≤ (Priority.of owner').rank := by
  obtain ⟨t, a, a', ha, hasks, ha', htakes⟩ := htakes
  cases stepped_of_step hstep with
  | call request =>
    have hkept := Pool.getElem?_concat (.called request) ha
    obtain rfl := Option.some.inj (hkept.symm.trans ha')
    exact absurd htakes hasks.not_takes
  | @grant s j key o slots c hd hi hc =>
    obtain ⟨⟨key', ⟨⟩⟩ | ⟨n', ⟨⟩⟩, hturn⟩ := asks_takes_of_set hd ha hasks ha' htakes
    obtain ⟨rfl, hout⟩ := not_outranked_of_takes hturn
    have hinv := h.slotIndex key
    rw [hi] at hinv
    rw [outranked_enqueue] at hout
    exact hinv.rank_le hc hout hwait
  | wake hd hc =>
    obtain ⟨⟨key', ⟨⟩⟩ | ⟨n', ⟨⟩⟩, hturn⟩ := asks_takes_of_set hd ha hasks ha' htakes
    obtain ⟨-, hout⟩ := not_outranked_of_takes hturn
    exact h.rank_le hc hout hwait
  | @notify s j gone hd =>
    obtain ⟨d, hset, rfl⟩ : ∃ d, (b.threads.set s (.dropping gone.toList))[t]? = some d ∧ _ = a' :=
      Option.map_eq_some_iff.1 (List.getElem?_map.symm.trans ha')
    have hd' : d.Takes i owner := by
      rcases htakes with ⟨x, heq⟩ | heq <;> cases d <;> cases heq
      · exact .inl ⟨_, rfl⟩
      · exact .inr rfl
    obtain ⟨⟨key', ⟨⟩⟩ | ⟨n', ⟨⟩⟩, -⟩ := asks_takes_of_set hd ha hasks hset hd'
  | tick =>
    obtain rfl := Option.some.inj (ha.symm.trans ha')
    exact absurd htakes hasks.not_takes
  | ensure hd =>
    obtain ⟨⟨key', ⟨⟩⟩ | ⟨n', ⟨⟩⟩, -⟩ := asks_takes_of_set hd ha hasks ha' htakes
  | ensured hd =>
    obtain ⟨⟨key', ⟨⟩⟩ | ⟨n', ⟨⟩⟩, -⟩ := asks_takes_of_set hd ha hasks ha' htakes
  | takeIdle hd | createOk hd | createFails hd | handOver hd | uncount hd | discarded hd
  | returned hd | discard hd =>
    obtain ⟨⟨key', ⟨⟩⟩ | ⟨n', ⟨⟩⟩, -⟩ := asks_takes_of_set hd ha hasks ha' htakes

/-- **Woken, and in order.** In every reachable state a free slot with waiters has one of the first
of them awake, or is about to have all of them notified; and nobody takes a session before a waiter
of a higher priority. -/
theorem roused_of_reachable [DecidableEq K] (h : (machine K).Reachable Any b) :
    (∀ (i t : ℕ) (owner : EmbeddingOwner) (n : Bool), b.threads[t]? = some (.waiting i owner n) →
      (b.stateAt i).Free → b.Roused i ∨ b.Notifying i) ∧
    ∀ (e : Event K) (b' : Broker K) (i t : ℕ) (owner owner' : EmbeddingOwner) (n : Bool),
      b.step e = some b' → b.Takes b' i owner → b.threads[t]? = some (.waiting i owner' n) →
      (Priority.of owner).rank ≤ (Priority.of owner').rank := by
  refine ⟨fun i t owner n ha hfree ↦ (woken_of_reachable h).roused ha hfree, ?_⟩
  intro e b' i t owner owner' n hstep htakes hwait
  exact rank_of_takes (inv_of_reachable h) hstep htakes hwait

/-- Between freeing a slot and notifying its waiters: the session is idle and the only waiter
asleep. -/
theorem not_roused_released :
    ∃ b, (machine ℕ).Reachable Any b ∧ (b.stateAt 0).Free ∧
      b.threads[1]? = some (.waiting 0 .search false) ∧ ¬b.Roused 0 := by
  refine ⟨((machine ℕ).run (machine ℕ).start [.call (.grant 0 .index), .enter 0, .createOk 0,
    .handOver 0, .call (.grant 0 .search), .enter 1, .drop 0 false]).get (by decide),
    reachable_get _, trivial, rfl, ?_⟩
  rintro ⟨t, owner, ht, -⟩
  change [Thread.notifying 0 none, .waiting 0 .search false][t]? = _ at ht
  rcases t with - | - | t <;> cases ht

/-- The same state meets the theorem: its waiters are about to be notified. -/
theorem roused_of_reachable_released :
    ∃ b, (machine ℕ).Reachable Any b ∧ (b.stateAt 0).Free ∧
      b.threads[1]? = some (.waiting 0 .search false) ∧ (b.Roused 0 ∨ b.Notifying 0) := by
  have hreachable := reachable_get
    (by decide : ((machine ℕ).run (machine ℕ).start [.call (.grant 0 .index),
    .enter 0, .createOk 0, .handOver 0, .call (.grant 0 .search), .enter 1,
      .drop 0 false]).isSome = true)
  exact ⟨_, hreachable, trivial, rfl,
    (roused_of_reachable hreachable).1 0 1 .search false rfl trivial⟩

end Broker

end RustCodeMcp.GpuBroker
