import Mathlib.Tactic.Tauto
import RustCodeMcp.Embeddings.GpuBroker
import RustCodeMcp.Machine.Pool

/-!
# Every order of the broker's threads

What a slot says and what the threads do are counted against each other: a slot that says `creating`
has one thread creating, one that says `granted` has one holding, and its waiting counters are the
numbers of threads waiting (`Inv`). A step moves one thread and one slot, and keeps the counts right
when what the thread gains or loses is what the slot says it gains or loses (`Moves`).

**The sums are over threads, the slots are looked up.** What a thread counts for is a function of
its place (`creatingAt`, `grantedAt`, `waitsAt`), so the number of threads that count for something
at a slot changes by what the moving thread gave up and took on; all others are untouched. Whoever
takes a step therefore shows one thing, that its move is a `Moves`, and the invariant follows for
every order of the threads.

The steps that are no moves concern a new slot, a session that has just been built, or all waiters
at once, and are few enough to be treated one by one.
-/

namespace RustCodeMcp.GpuBroker

open Machine

variable {K : Type}

/-! ### What a thread and a slot count for -/

namespace Thread

/-- The slot a thread is building the session of. -/
def creatingAt (i : ℕ) : Thread K → Bool
  | creating j _ _ | created j _ _ _ => decide (j = i)
  | _ => false

/-- The slot whose session a thread was granted. -/
def grantedAt (i : ℕ) : Thread K → Bool
  | uncounted j _ | holding j _ => decide (j = i)
  | _ => false

/-- The slot a thread waits for, and the priority it waits at. -/
def waitsAt (i : ℕ) (p : Priority) : Thread K → Bool
  | waiting j owner _ => decide (j = i) && decide (Priority.of owner = p)
  | _ => false

/-- The session in a thread's hands, and its slot. -/
def session : Thread K → Option (ℕ × ℕ)
  | created i _ x _ | uncounted i x | holding i x => some (i, x)
  | _ => none

/-- The session is in the thread's hands. -/
def holds (x : ℕ) (a : Thread K) : Bool :=
  a.session.any fun held ↦ decide (held.2 = x)

end Thread

namespace SlotState

/-- The slot says that its session is being built. -/
def isCreating : SlotState → Bool
  | creating _ => true
  | _ => false

/-- The slot says that its session is lent out. -/
def isGranted : SlotState → Bool
  | granted _ _ => true
  | _ => false

/-- Whether the session is in the broker with nobody running it. -/
def idles (x : ℕ) : SlotState → Bool
  | idle y _ => decide (y = x)
  | _ => false

/-- Idle or empty: whoever asks for it next gets it. -/
def Free : SlotState → Prop
  | empty | idle _ _ => True
  | _ => False

end SlotState

namespace Broker

variable (b : Broker K)

/-- What the slot at a position says; a slot that is not there yet is empty. -/
def stateAt (i : ℕ) : SlotState :=
  (b.slots[i]?.map (·.state)).getD .empty

/-- How many runs of a priority wait for a slot. -/
def waitingAt (i : ℕ) (p : Priority) : ℕ :=
  (b.slots[i]?.map (·.waiting p)).getD 0

variable {b} {c : Slot K} {owner : EmbeddingOwner} {t i : ℕ} {request : Request K} {i : ℕ}
  {ensuring : Bool} {a a' : Thread K}

theorem stateAt_eq {slot : Slot K} (h : b.slots[i]? = some slot) : b.stateAt i = slot.state := by
  rw [stateAt, h]
  rfl

theorem waitingAt_eq {slot : Slot K} (h : b.slots[i]? = some slot) (p : Priority) :
    b.waitingAt i p = slot.waiting p := by
  rw [waitingAt, h]
  rfl

/-- **The invariant**: slots and threads agree, and a session is in one place. -/
structure Inv (b : Broker K) : Prop where
  nodup : (b.slots.map (·.key)).Nodup
  creating : ∀ i, b.threads.countP (Thread.creatingAt i) = (b.stateAt i).isCreating.toNat
  granted : ∀ i, b.threads.countP (Thread.grantedAt i) = (b.stateAt i).isGranted.toNat
  waiting : ∀ i p, b.threads.countP (Thread.waitsAt i p) = b.waitingAt i p
  sessions : ∀ x, b.slots.countP (fun slot ↦ slot.state.idles x) +
    b.threads.countP (Thread.holds x) ≤ 1
  fresh : ∀ x, b.nextSession ≤ x → b.slots.countP (fun slot ↦ slot.state.idles x) +
    b.threads.countP (Thread.holds x) = 0

/-! ### What a step can do -/

/-- The steps, case by case. -/
inductive Stepped [DecidableEq K] (b : Broker K) : Event K → Broker K → Prop
  | call (request : Request K) :
    Stepped b (.call request) { b with threads := b.threads ++ [.called request] }
  | grant {t i : ℕ} {key : K} {owner : EmbeddingOwner} {slots : List (Slot K)} {c : Slot K}
      (ha : b.threads[t]? = some (.called (.grant key owner)))
      (hi : slotIndex b.slots key = (i, slots)) (hc : slots[i]? = some c) :
    Stepped b (.enter t) (({ b with slots }).move t
      (grantTurn i owner b.now (c.enqueue owner)).2 i (grantTurn i owner b.now (c.enqueue owner)).1)
  | ensure {t i : ℕ} {key : K} {owner : EmbeddingOwner} {slots : List (Slot K)} {c : Slot K}
      (ha : b.threads[t]? = some (.called (.ensure key owner)))
      (hi : slotIndex b.slots key = (i, slots)) (hc : slots[i]? = some c)
      (hstate : c.state = .empty) :
    Stepped b (.enter t) (({ b with slots }).move t (.creating i owner true) i
      { c with state := .creating owner })
  | ensured {t i : ℕ} {key : K} {owner : EmbeddingOwner} {slots : List (Slot K)} {c : Slot K}
      (ha : b.threads[t]? = some (.called (.ensure key owner)))
      (hi : slotIndex b.slots key = (i, slots)) (hc : slots[i]? = some c) :
    Stepped b (.enter t) (({ b with slots }).move t .finished i c)
  | takeIdle {t maxIdle : ℕ} (ha : b.threads[t]? = some (.called (.takeIdle maxIdle))) :
    Stepped b (.enter t) { b with
      threads := b.threads.set t (.dropping (b.slots.filterMap (Slot.stale maxIdle b.now)))
      slots := b.slots.map (Slot.swept maxIdle b.now) }
  | wake {t i : ℕ} {owner : EmbeddingOwner} {n : Bool} {c : Slot K}
      (ha : b.threads[t]? = some (.waiting i owner n)) (hc : b.slots[i]? = some c) :
    Stepped b (.wake t) (b.move t (grantTurn i owner b.now c).2 i (grantTurn i owner b.now c).1)
  | createOk {t i : ℕ} {owner : EmbeddingOwner} {ensuring : Bool}
      (ha : b.threads[t]? = some (.creating i owner ensuring)) :
    Stepped b (.createOk t) { b with
      threads := b.threads.set t (.created i owner b.nextSession ensuring)
      nextSession := b.nextSession + 1 }
  | createFails {t i : ℕ} {owner : EmbeddingOwner} {ensuring : Bool} {c : Slot K}
      (ha : b.threads[t]? = some (.creating i owner ensuring)) (hc : b.slots[i]? = some c) :
    Stepped b (.createFails t) (b.move t (.notifying i none) i { c with state := .empty })
  | handOver {t i x : ℕ} {owner : EmbeddingOwner} {ensuring : Bool} {c : Slot K}
      (ha : b.threads[t]? = some (.created i owner x ensuring)) (hc : b.slots[i]? = some c) :
    Stepped b (.handOver t) (b.move t (if ensuring then .uncounted i x else .holding i x) i
      { c with created := c.created + 1, grants := c.grants + 1, state := .granted owner b.now })
  | uncount {t i x : ℕ} {c : Slot K} (ha : b.threads[t]? = some (.uncounted i x))
      (hc : b.slots[i]? = some c) :
    Stepped b (.uncount t) (b.move t (.holding i x) i { c with grants := c.grants - 1 })
  | discarded {t i x : ℕ} {c : Slot K} (ha : b.threads[t]? = some (.holding i x))
      (hc : b.slots[i]? = some c) :
    Stepped b (.drop t true) (b.move t (.notifying i (some x)) i { c with state := .empty })
  | returned {t i x : ℕ} {c : Slot K} (ha : b.threads[t]? = some (.holding i x))
      (hc : b.slots[i]? = some c) :
    Stepped b (.drop t false) (b.move t (.notifying i none) i { c with state := .idle x b.now })
  | notify {t i : ℕ} {gone : Option ℕ} (ha : b.threads[t]? = some (.notifying i gone)) :
    Stepped b (.notify t) { b with threads := notifyAll (b.threads.set t (.dropping gone.toList)) }
  | discard {t : ℕ} {gone : List ℕ} (ha : b.threads[t]? = some (.dropping gone)) :
    Stepped b (.discard t) { b with threads := b.threads.set t .finished }
  | tick : Stepped b .tick { b with now := b.now + 1 }

theorem stepped_of_enter [DecidableEq K] {b' : Broker K} {t : ℕ}
    (ha : b.threads[t]? = some (.called request)) (h : b.enter t request = some b') :
    b.Stepped (.enter t) b' := by
  cases request with
  | grant key owner =>
    obtain ⟨c, hc, rfl⟩ := Option.map_eq_some_iff.1 h
    exact Stepped.grant ha rfl hc
  | ensure key owner =>
    obtain ⟨c, hc, rfl⟩ := Option.map_eq_some_iff.1 h
    split
    next hstate => exact Stepped.ensure ha rfl hc hstate
    next => exact Stepped.ensured ha rfl hc
  | takeIdle maxIdle =>
    obtain rfl := Option.some.inj h
    exact Stepped.takeIdle ha

/-- **A step is one of these.** -/
theorem stepped_of_step [DecidableEq K] {b' : Broker K} {e : Event K} (h : b.step e = some b') :
    b.Stepped e b' := by
  cases e with
  | call request =>
    obtain rfl := Option.some.inj h
    exact Stepped.call request
  | tick =>
    obtain rfl := Option.some.inj h
    exact Stepped.tick
  | enter t =>
    simp only [step] at h
    split at h
    next request ha => exact stepped_of_enter ha h
    next => cases h
  | wake t =>
    simp only [step] at h
    split at h
    next i owner n ha =>
      obtain ⟨c, hc, rfl⟩ := Option.map_eq_some_iff.1 h
      exact Stepped.wake ha hc
    next => cases h
  | createOk t =>
    simp only [step] at h
    split at h
    next i owner ensuring ha =>
      obtain rfl := Option.some.inj h
      exact Stepped.createOk ha
    next => cases h
  | createFails t =>
    simp only [step] at h
    split at h
    next i owner ensuring ha =>
      obtain ⟨c, hc, rfl⟩ := Option.map_eq_some_iff.1 h
      exact Stepped.createFails ha hc
    next => cases h
  | handOver t =>
    simp only [step] at h
    split at h
    next i owner x ensuring ha =>
      obtain ⟨c, hc, rfl⟩ := Option.map_eq_some_iff.1 h
      exact Stepped.handOver ha hc
    next => cases h
  | uncount t =>
    simp only [step] at h
    split at h
    next i x ha =>
      obtain ⟨c, hc, rfl⟩ := Option.map_eq_some_iff.1 h
      exact Stepped.uncount ha hc
    next => cases h
  | drop t panicking =>
    simp only [step] at h
    split at h
    next i x ha =>
      obtain ⟨c, hc, rfl⟩ := Option.map_eq_some_iff.1 h
      cases panicking with
      | false => exact Stepped.returned ha hc
      | true => exact Stepped.discarded ha hc
    next => cases h
  | notify t =>
    simp only [step] at h
    split at h
    next i gone ha =>
      obtain rfl := Option.some.inj h
      exact Stepped.notify ha
    next => cases h
  | discard t =>
    simp only [step] at h
    split at h
    next gone ha =>
      obtain rfl := Option.some.inj h
      exact Stepped.discard ha
    next => cases h

/-! ### One thread and one slot at a time -/

/-- A thread and the slot at `i` change together: what the one gains or loses is what the other says
it does. -/
structure Moves (i : ℕ) (a : Thread K) (c : Slot K) (a' : Thread K) (c' : Slot K) : Prop where
  key : c'.key = c.key
  away : ∀ j, j ≠ i → a'.creatingAt j = a.creatingAt j ∧ a'.grantedAt j = a.grantedAt j ∧
    ∀ p, a'.waitsAt j p = a.waitsAt j p
  creating : (a'.creatingAt i).toNat + c.state.isCreating.toNat =
    (a.creatingAt i).toNat + c'.state.isCreating.toNat
  granted : (a'.grantedAt i).toNat + c.state.isGranted.toNat =
    (a.grantedAt i).toNat + c'.state.isGranted.toNat
  waiting : ∀ p, (a'.waitsAt i p).toNat + c.waiting p = (a.waitsAt i p).toNat + c'.waiting p
  sessions : ∀ x, (a'.holds x).toNat + (c'.state.idles x).toNat ≤
    (a.holds x).toNat + (c.state.idles x).toNat

theorem stateAt_move {a' : Thread K} {c c' : Slot K} (hc : b.slots[i]? = some c) (j : ℕ) :
    (b.move t a' i c').stateAt j = if j = i then c'.state else b.stateAt j := by
  have hlt := (List.getElem?_eq_some_iff.1 hc).1
  by_cases hj : j = i
  · subst hj
    rw [if_pos rfl, stateAt, move, List.getElem?_set_self hlt]
    rfl
  · rw [if_neg hj, stateAt, move, List.getElem?_set_ne (Ne.symm hj), stateAt]

theorem waitingAt_move {a' : Thread K} {c c' : Slot K} (hc : b.slots[i]? = some c)
    (j : ℕ) (p : Priority) :
    (b.move t a' i c').waitingAt j p = if j = i then c'.waiting p else b.waitingAt j p := by
  have hlt := (List.getElem?_eq_some_iff.1 hc).1
  by_cases hj : j = i
  · subst hj
    rw [if_pos rfl, waitingAt, move, List.getElem?_set_self hlt]
    rfl
  · rw [if_neg hj, waitingAt, move, List.getElem?_set_ne (Ne.symm hj), waitingAt]

/-- **The step lemma**: a move keeps the invariant. -/
theorem Inv.move {c c' : Slot K} (h : b.Inv)
    (ha : b.threads[t]? = some a) (hc : b.slots[i]? = some c) (hm : Moves i a c a' c') :
    (b.move t a' i c').Inv := by
  -- No slot changes its key.
  have hkeys : (b.slots.set i c').map (·.key) = b.slots.map (·.key) := by
    obtain ⟨hlt, hci⟩ := List.getElem?_eq_some_iff.1 hc
    have hlt' : i < (b.slots.map (·.key)).length := by rwa [List.length_map]
    have hset := List.set_getElem_self hlt'
    rwa [List.getElem_map, hci, ← hm.key, ← List.map_set] at hset
  -- What the thread gains of a session the slot loses, for each session.
  have hsessions : ∀ x, (b.slots.set i c').countP (fun slot ↦ slot.state.idles x) +
      (b.threads.set t a').countP (Thread.holds x) ≤
      b.slots.countP (fun slot ↦ slot.state.idles x) + b.threads.countP (Thread.holds x) := by
    intro x
    have hthreads := Pool.countP_set_add (Thread.holds x) a' ha
    have hslots := Pool.countP_set_add (fun slot : Slot K ↦ slot.state.idles x) c' hc
    have := hm.sessions x
    omega
  refine ⟨?_, fun j ↦ ?_, fun j ↦ ?_, fun j p ↦ ?_, fun x ↦ ?_, fun x hx ↦ ?_⟩
  · show ((b.slots.set i c').map (·.key)).Nodup
    rw [hkeys]
    exact h.nodup
  -- At the slot the counts move together; at every other one the thread counts for nothing.
  · have hcount := Pool.countP_set_add (Thread.creatingAt j) a' ha
    have hinv := h.creating j
    rw [stateAt_move hc]
    show (b.threads.set t a').countP _ = _
    split_ifs with hj
    · subst hj
      rw [stateAt_eq hc] at hinv
      have := hm.creating
      omega
    · rw [(hm.away j hj).1] at hcount
      omega
  · have hcount := Pool.countP_set_add (Thread.grantedAt j) a' ha
    have hinv := h.granted j
    rw [stateAt_move hc]
    show (b.threads.set t a').countP _ = _
    split_ifs with hj
    · subst hj
      rw [stateAt_eq hc] at hinv
      have := hm.granted
      omega
    · rw [(hm.away j hj).2.1] at hcount
      omega
  · have hcount := Pool.countP_set_add (Thread.waitsAt j p) a' ha
    have hinv := h.waiting j p
    rw [waitingAt_move hc]
    show (b.threads.set t a').countP _ = _
    split_ifs with hj
    · subst hj
      rw [waitingAt_eq hc] at hinv
      have := hm.waiting p
      omega
    · rw [(hm.away j hj).2.2 p] at hcount
      omega
  · exact Nat.le_trans (hsessions x) (h.sessions x)
  · exact Nat.le_zero.1 ((h.fresh x hx) ▸ hsessions x)

/-- A thread that holds no slot changes alone. -/
theorem Inv.thread {t : ℕ} (h : b.Inv) (ha : b.threads[t]? = some a)
    (hcreating : ∀ j, a'.creatingAt j = a.creatingAt j)
    (hgranted : ∀ j, a'.grantedAt j = a.grantedAt j)
    (hwaits : ∀ j p, a'.waitsAt j p = a.waitsAt j p)
    (hholds : ∀ x, (a'.holds x).toNat ≤ (a.holds x).toNat) :
    ({ b with threads := b.threads.set t a' }).Inv := by
  have hsessions : ∀ x, b.slots.countP (fun slot ↦ slot.state.idles x) +
      (b.threads.set t a').countP (Thread.holds x) ≤
      b.slots.countP (fun slot ↦ slot.state.idles x) + b.threads.countP (Thread.holds x) := by
    intro x
    have hthreads := Pool.countP_set_add (Thread.holds x) a' ha
    have := hholds x
    omega
  have hsame : ∀ q : Thread K → Bool, q a' = q a → (b.threads.set t a').countP q =
      b.threads.countP q := by
    intro q hq
    have := Pool.countP_set_add q a' ha
    rw [hq] at this
    omega
  exact ⟨h.nodup, fun j ↦ (hsame _ (hcreating j)).trans (h.creating j),
    fun j ↦ (hsame _ (hgranted j)).trans (h.granted j),
    fun j p ↦ (hsame _ (hwaits j p)).trans (h.waiting j p),
    fun x ↦ Nat.le_trans (hsessions x) (h.sessions x),
    fun x hx ↦ Nat.le_zero.1 ((h.fresh x hx) ▸ hsessions x)⟩

/-! ### The moves of the source -/

theorem moves_enqueue (i : ℕ) (request : Request K) (owner : EmbeddingOwner) (c : Slot K) :
    Moves i (.called request) c (.waiting i owner false) (c.enqueue owner) := by
  refine ⟨rfl, fun j hj ↦ ⟨rfl, rfl, fun p ↦ ?_⟩, rfl, rfl, fun p ↦ ?_, fun x ↦ Nat.le_refl _⟩
  · show (decide (i = j) && _) = false
    rw [decide_eq_false hj.symm, Bool.false_and]
  · show (decide (i = i) && decide (Priority.of owner = p)).toNat + c.waiting p =
      0 + (c.enqueue owner).waiting p
    rw [decide_eq_true rfl, Bool.true_and, Slot.enqueue]
    by_cases hp : Priority.of owner = p
    · subst hp
      simp only [decide_true, Bool.toNat_true, Function.update_self]
      omega
    · simp [hp, Function.update_of_ne (Ne.symm hp)]

/-- A waiter that leaves the queue: the counter goes down by the waiter. -/
theorem dequeue_waiting (hpos : 0 < c.waiting (Priority.of owner)) (p : Priority) :
    (c.dequeue owner).waiting p + (decide (Priority.of owner = p)).toNat = c.waiting p := by
  rw [Slot.dequeue]
  by_cases hp : Priority.of owner = p
  · subst hp
    simp only [decide_true, Bool.toNat_true, Function.update_self]
    omega
  · simp [hp, Function.update_of_ne (Ne.symm hp)]

/-- **A turn of the loop in `grant`**, wherever it ends. -/
theorem moves_grantTurn {i now : ℕ} {n : Bool} (hpos : 0 < c.waiting (Priority.of owner)) :
    Moves i (.waiting i owner n) c (grantTurn i owner now c).2 (grantTurn i owner now c).1 := by
  have hstays : Moves i (.waiting i owner n) c (.waiting i owner false) c :=
    ⟨rfl, fun j _ ↦ ⟨rfl, rfl, fun _ ↦ rfl⟩, rfl, rfl, fun _ ↦ rfl, fun _ ↦ Nat.le_refl _⟩
  have haway : ∀ j, j ≠ i → decide (i = j) = false := fun j hj ↦ decide_eq_false hj.symm
  have hleaves : ∀ p, 0 + c.waiting p = (decide (i = i) && decide (Priority.of owner = p)).toNat +
      (c.dequeue owner).waiting p := by
    intro p
    have := dequeue_waiting hpos p
    rw [decide_eq_true rfl, Bool.true_and]
    omega
  unfold grantTurn
  split_ifs
  · exact hstays
  · rcases hstate : c.state with - | _ | ⟨x, since⟩ | _
    · refine ⟨rfl, fun j hj ↦ ⟨haway j hj, rfl, fun p ↦ ?_⟩, ?_, ?_, hleaves, fun y ↦ ?_⟩
      · show false = (decide (i = j) && _)
        rw [haway j hj, Bool.false_and]
      · simp [Thread.creatingAt, SlotState.isCreating, hstate]
      · simp [Thread.grantedAt, SlotState.isGranted, hstate]
      · simp [Thread.holds, Thread.session, SlotState.idles]
    · exact hstays
    · refine ⟨rfl, fun j hj ↦ ⟨rfl, haway j hj, fun p ↦ ?_⟩, ?_, ?_, hleaves, fun y ↦ ?_⟩
      · show false = (decide (i = j) && _)
        rw [haway j hj, Bool.false_and]
      · simp [Thread.creatingAt, SlotState.isCreating, hstate]
      · simp [Thread.grantedAt, SlotState.isGranted, hstate]
      · simp [Thread.holds, Thread.session, SlotState.idles, hstate]
    · exact hstays

/-- A move in which nobody starts or stops waiting. -/
theorem Moves.of_busy {st : SlotState} {created grants : ℕ}
    (hwaits : ∀ j p, a'.waitsAt j p = a.waitsAt j p)
    (haway : ∀ j, j ≠ i → a'.creatingAt j = a.creatingAt j ∧ a'.grantedAt j = a.grantedAt j)
    (hcreating : (a'.creatingAt i).toNat + c.state.isCreating.toNat =
      (a.creatingAt i).toNat + st.isCreating.toNat)
    (hgranted : (a'.grantedAt i).toNat + c.state.isGranted.toNat =
      (a.grantedAt i).toNat + st.isGranted.toNat)
    (hsessions : ∀ x, (a'.holds x).toNat + (st.idles x).toNat ≤
      (a.holds x).toNat + (c.state.idles x).toNat) :
    Moves i a c a' { c with state := st, created := created, grants := grants } :=
  ⟨rfl, fun j hj ↦ ⟨(haway j hj).1, (haway j hj).2, hwaits j⟩, hcreating, hgranted,
    fun p ↦ by rw [hwaits], hsessions⟩

/-- A position that is not `i` counts for nothing at `i`. -/
theorem away (i : ℕ) : ∀ j, j ≠ i → decide (i = j) = false :=
  fun _ hj ↦ decide_eq_false hj.symm

theorem moves_ensure (owner : EmbeddingOwner) (hstate : c.state = .empty) :
    Moves i (.called request) c (.creating i owner true) { c with state := .creating owner } :=
  Moves.of_busy (fun _ _ ↦ rfl) (fun j hj ↦ ⟨away i j hj, rfl⟩)
    (by simp [Thread.creatingAt, SlotState.isCreating, hstate])
    (by simp [Thread.grantedAt, SlotState.isGranted, hstate])
    (by simp [Thread.holds, Thread.session, SlotState.idles])

theorem moves_createFails {owner o : EmbeddingOwner} (hstate : c.state = .creating o) :
    Moves i (.creating i owner ensuring) c (.notifying i none) { c with state := .empty } :=
  Moves.of_busy (fun _ _ ↦ rfl) (fun j hj ↦ ⟨(away i j hj).symm, rfl⟩)
    (by simp [Thread.creatingAt, SlotState.isCreating, hstate])
    (by simp [Thread.grantedAt, SlotState.isGranted, hstate])
    (by simp [Thread.holds, Thread.session, SlotState.idles])

/-- A session that was built is lent to the thread that built it. -/
theorem moves_handOver {i now : ℕ} {owner o : EmbeddingOwner} {x : ℕ}
    (hstate : c.state = .creating o) :
    Moves i (.created i owner x ensuring) c
      (if ensuring then .uncounted i x else .holding i x)
      { c with created := c.created + 1, grants := c.grants + 1, state := .granted owner now } := by
  cases ensuring
  all_goals
    refine Moves.of_busy (fun _ _ ↦ rfl) (fun j hj ↦ ⟨(away i j hj).symm, away i j hj⟩) ?_ ?_ ?_
    · simp [Thread.creatingAt, SlotState.isCreating, hstate]
    · simp [Thread.grantedAt, SlotState.isGranted, hstate]
    · simp [Thread.holds, Thread.session, SlotState.idles, hstate]

theorem moves_uncount {x : ℕ} :
    Moves i (.uncounted i x) c (.holding i x) { c with grants := c.grants - 1 } :=
  Moves.of_busy (fun _ _ ↦ rfl) (fun _ _ ↦ ⟨rfl, rfl⟩) rfl rfl fun _ ↦ Nat.le_refl _

/-- A session whose run panicked is dropped. -/
theorem moves_discard {i since : ℕ} {o : EmbeddingOwner} {x : ℕ}
    (hstate : c.state = .granted o since) :
    Moves i (.holding i x) c (.notifying i (some x)) { c with state := .empty } :=
  Moves.of_busy (fun _ _ ↦ rfl) (fun j hj ↦ ⟨rfl, (away i j hj).symm⟩)
    (by simp [Thread.creatingAt, SlotState.isCreating, hstate])
    (by simp [Thread.grantedAt, SlotState.isGranted, hstate])
    (by simp [Thread.holds, Thread.session, SlotState.idles])

theorem moves_return {i since now : ℕ} {o : EmbeddingOwner} {x : ℕ}
    (hstate : c.state = .granted o since) :
    Moves i (.holding i x) c (.notifying i none) { c with state := .idle x now } :=
  Moves.of_busy (fun _ _ ↦ rfl) (fun j hj ↦ ⟨rfl, (away i j hj).symm⟩)
    (by simp [Thread.creatingAt, SlotState.isCreating, hstate])
    (by simp [Thread.grantedAt, SlotState.isGranted, hstate])
    (by simp [Thread.holds, Thread.session, SlotState.idles, hstate])

/-! ### The steps that are no moves -/

/-- A slot nobody has asked for yet. -/
def freshSlot (key : K) : Slot K :=
  { key, state := .empty, waiting := fun _ ↦ 0, created := 0, grants := 0 }

/-- A key has its slot, or gets a fresh one at the end. -/
theorem slotIndex_cases [DecidableEq K] (slots : List (Slot K)) (key : K) :
    (slotIndex slots key).2 = slots ∨
      key ∉ slots.map (·.key) ∧ (slotIndex slots key).2 = slots ++ [freshSlot key] := by
  unfold GpuBroker.slotIndex
  split
  next index hfind => exact .inl rfl
  next hfind =>
    refine .inr ⟨fun hmem ↦ ?_, rfl⟩
    obtain ⟨slot, hslot, heq⟩ := List.mem_map.1 hmem
    have := List.findIdx?_eq_none_iff.1 hfind slot hslot
    exact absurd heq (by simpa using this)

/-- A fresh slot at the end says what a missing slot counts as. -/
theorem getD_append_freshSlot {β : Type} (slots : List (Slot K)) (key : K)
    (f : Slot K → β) (i : ℕ) : ((slots ++ [freshSlot key])[i]?.map f).getD (f (freshSlot key)) =
      (slots[i]?.map f).getD (f (freshSlot key)) := by
  rw [List.getElem?_append]
  split_ifs with hlt
  · rfl
  · rw [List.getElem?_eq_none (Nat.le_of_not_lt hlt)]
    rcases i - slots.length with - | n <;> rfl

theorem stateAt_slotIndex [DecidableEq K] (b : Broker K) (key : K) (i : ℕ) :
    ({ b with slots := (slotIndex b.slots key).2 }).stateAt i = b.stateAt i := by
  rcases slotIndex_cases b.slots key with heq | ⟨-, heq⟩
  · rw [heq]
  · rw [heq]
    exact getD_append_freshSlot b.slots key (·.state) i

theorem waitingAt_slotIndex [DecidableEq K] (b : Broker K) (key : K) (i : ℕ) (p : Priority) :
    ({ b with slots := (slotIndex b.slots key).2 }).waitingAt i p = b.waitingAt i p := by
  rcases slotIndex_cases b.slots key with heq | ⟨-, heq⟩
  · rw [heq]
  · rw [heq]
    exact getD_append_freshSlot b.slots key (·.waiting p) i

/-- The slot of a key is made without anybody noticing. -/
theorem Inv.slotIndex [DecidableEq K] (h : b.Inv) (key : K) :
    ({ b with slots := (slotIndex b.slots key).2 }).Inv := by
  have hidle : ∀ x, (GpuBroker.slotIndex b.slots key).2.countP (fun slot ↦ slot.state.idles x) =
      b.slots.countP (fun slot ↦ slot.state.idles x) := by
    intro x
    rcases slotIndex_cases b.slots key with heq | ⟨-, heq⟩
    · rw [heq]
    · rw [heq, List.countP_append]
      rfl
  refine ⟨?_, fun i ↦ (h.creating i).trans (by rw [stateAt_slotIndex]),
    fun i ↦ (h.granted i).trans (by rw [stateAt_slotIndex]),
    fun i p ↦ (h.waiting i p).trans (waitingAt_slotIndex b key i p).symm, fun x ↦ ?_, fun x hx ↦ ?_⟩
  · show ((GpuBroker.slotIndex b.slots key).2.map (·.key)).Nodup
    rcases slotIndex_cases b.slots key with heq | ⟨hnew, heq⟩
    · rw [heq]
      exact h.nodup
    · rw [heq, List.map_append]
      exact List.nodup_append'.2 ⟨h.nodup, List.nodup_singleton _, by simpa [freshSlot] using hnew⟩
  · rw [hidle]
    exact h.sessions x
  · rw [hidle]
    exact h.fresh x hx

/-- A session is built: it has not been anywhere. -/
theorem Inv.build (h : b.Inv) (ha : b.threads[t]? = some (.creating i owner ensuring)) : ({ b with
      threads := b.threads.set t (.created i owner b.nextSession ensuring)
      nextSession := b.nextSession + 1 }).Inv := by
  have hsame : ∀ q : Thread K → Bool, q (.created i owner b.nextSession ensuring) =
      q (.creating i owner ensuring) →
      (b.threads.set t (.created i owner b.nextSession ensuring)).countP
        q = b.threads.countP q := by
    intro q hq
    have := Pool.countP_set_add q (.created i owner b.nextSession ensuring) ha
    rw [hq] at this
    omega
  have hholds : ∀ x, (b.threads.set t (.created i owner b.nextSession ensuring)).countP
      (Thread.holds x) = b.threads.countP
        (Thread.holds x) + (decide (b.nextSession = x)).toNat := by
    intro x
    have := Pool.countP_set_add (Thread.holds x) (.created i owner b.nextSession ensuring) ha
    simpa [Thread.holds, Thread.session] using this
  refine ⟨h.nodup, fun j ↦ (hsame _ rfl).trans (h.creating j),
    fun j ↦ (hsame _ rfl).trans (h.granted j), fun j p ↦ (hsame _ rfl).trans (h.waiting j p),
    fun x ↦ ?_, fun x hx ↦ ?_⟩
  · rw [hholds]
    have hone := h.sessions x
    rcases Nat.lt_or_ge x b.nextSession with hlt | hge
    · rw [decide_eq_false (by omega), Bool.toNat_false]
      omega
    · have hzero := h.fresh x hge
      have := Bool.toNat_le (decide (b.nextSession = x))
      dsimp only at *
      omega
  · have hx' : b.nextSession + 1 ≤ x := hx
    have hzero := h.fresh x (by omega)
    rw [hholds, decide_eq_false (by omega), Bool.toNat_false]
    exact hzero

/-- Waking the others moves nobody. -/
theorem Inv.notifyAll (h : b.Inv) : ({ b with threads := notifyAll b.threads }).Inv := by
  have hsame : ∀ q : Thread K → Bool, (∀ slot owner n, q (.waiting slot owner true) =
      q (.waiting slot owner n)) → (Broker.notifyAll b.threads).countP q = b.threads.countP q := by
    intro q hq
    rw [Broker.notifyAll, List.countP_map]
    refine List.countP_congr fun a _ ↦ ?_
    cases a with
    | waiting slot owner n => exact iff_of_eq (congrArg (· = true) (hq slot owner n))
    | _ => exact Iff.rfl
  have hholds : ∀ x, (Broker.notifyAll b.threads).countP (Thread.holds x) =
      b.threads.countP (Thread.holds x) := fun x ↦ hsame _ fun _ _ _ ↦ rfl
  exact ⟨h.nodup, fun i ↦ (hsame _ fun _ _ _ ↦ rfl).trans (h.creating i),
    fun i ↦ (hsame _ fun _ _ _ ↦ rfl).trans (h.granted i),
    fun i p ↦ (hsame _ fun _ _ _ ↦ rfl).trans (h.waiting i p),
    fun x ↦ by rw [hholds]; exact h.sessions x, fun x hx ↦ by rw [hholds]; exact h.fresh x hx⟩

/-- The sweep leaves a slot as it is, or takes an idle session out. -/
theorem swept_cases (maxIdle now : ℕ) (c : Slot K) : c.swept maxIdle now = c ∨
    ∃ x since, c.state = .idle x since ∧ c.swept maxIdle now = { c with state := .empty } := by
  unfold Slot.swept
  split_ifs with hstale
  · rcases hstate : c.state with - | _ | ⟨x, since⟩ | _
    case idle => exact .inr ⟨x, since, rfl, rfl⟩
    all_goals simp [Slot.stale, hstate] at hstale
  · exact .inl rfl

/-- **The sweep takes out idle sessions only.** -/
theorem Inv.sweep {t maxIdle : ℕ} {taken : List ℕ} (h : b.Inv)
    (ha : b.threads[t]? = some (.called request)) :
    ({ b with
      threads := b.threads.set t (.dropping taken)
      slots := b.slots.map (Slot.swept maxIdle b.now) }).Inv := by
  have hthread := h.thread ha (fun _ ↦ rfl : ∀ j, Thread.creatingAt j (.dropping taken) = _)
    (fun _ ↦ rfl) (fun _ _ ↦ rfl) fun _ ↦ Nat.le_refl _
  have hkeys : (b.slots.map (Slot.swept maxIdle b.now)).map (·.key) = b.slots.map (·.key) := by
    rw [List.map_map]
    refine List.map_congr_left fun c _ ↦ ?_
    rcases swept_cases maxIdle b.now c with heq | ⟨x, since, -, heq⟩ <;>
      rw [Function.comp_apply, heq]
  have hcreating : ∀ c : Slot K, (c.swept maxIdle b.now).state.isCreating = c.state.isCreating := by
    intro c
    rcases swept_cases maxIdle b.now c with heq | ⟨x, since, hstate, heq⟩
    · rw [heq]
    · rw [heq, hstate]
      rfl
  have hgranted : ∀ c : Slot K, (c.swept maxIdle b.now).state.isGranted = c.state.isGranted := by
    intro c
    rcases swept_cases maxIdle b.now c with heq | ⟨x, since, hstate, heq⟩
    · rw [heq]
    · rw [heq, hstate]
      rfl
  have hwaiting : ∀ (c : Slot K) p, (c.swept maxIdle b.now).waiting p = c.waiting p := by
    intro c p
    rcases swept_cases maxIdle b.now c with heq | ⟨x, since, -, heq⟩ <;> rw [heq]
  -- Sessions may only become fewer in the slots.
  have hidles : ∀ x, (b.slots.map (Slot.swept maxIdle b.now)).countP
      (fun slot ↦ slot.state.idles x) ≤ b.slots.countP (fun slot ↦ slot.state.idles x) := by
    intro x
    rw [List.countP_map]
    refine List.countP_mono_left fun c _ hc ↦ ?_
    rcases swept_cases maxIdle b.now c with heq | ⟨y, since, -, heq⟩
    · rwa [Function.comp_apply, heq] at hc
    · rw [Function.comp_apply, heq] at hc
      cases hc
  refine ⟨hkeys ▸ h.nodup, fun i ↦ ?_, fun i ↦ ?_, fun i p ↦ ?_, fun x ↦ ?_, fun x hx ↦ ?_⟩
  -- The sweep takes out idle sessions, so grants, creations and waiters stay as they are.
  · rw [hthread.creating i]
    simp only [stateAt, List.getElem?_map]
    rcases b.slots[i]? with - | c
    · rfl
    · exact congrArg Bool.toNat (hcreating c).symm
  · rw [hthread.granted i]
    simp only [stateAt, List.getElem?_map]
    rcases b.slots[i]? with - | c
    · rfl
    · exact congrArg Bool.toNat (hgranted c).symm
  · rw [hthread.waiting i p]
    simp only [waitingAt, List.getElem?_map]
    rcases b.slots[i]? with - | c
    · rfl
    · exact (hwaiting c p).symm
  · have hone := hthread.sessions x
    have hle := hidles x
    dsimp only at *
    omega
  · have hzero := hthread.fresh x hx
    have hle := hidles x
    dsimp only at *
    omega

/-! ### Every step keeps the invariant -/

/-- A thread that creates for a slot has a slot that says so. -/
theorem Inv.state_creating {a : Thread K} (h : b.Inv)
    (ha : b.threads[t]? = some a) (hat : a.creatingAt i = true) (hc : b.slots[i]? = some c) :
    ∃ o, c.state = .creating o := by
  have hpos := Pool.countP_pos_of_getElem? ha hat
  rw [h.creating i, stateAt_eq hc] at hpos
  cases hstate : c.state with
  | creating o => exact ⟨o, rfl⟩
  | _ => simp [hstate, SlotState.isCreating] at hpos

/-- A thread with a grant has a slot that says so. -/
theorem Inv.state_granted {a : Thread K} (h : b.Inv)
    (ha : b.threads[t]? = some a) (hat : a.grantedAt i = true) (hc : b.slots[i]? = some c) :
    ∃ o since, c.state = .granted o since := by
  have hpos := Pool.countP_pos_of_getElem? ha hat
  rw [h.granted i, stateAt_eq hc] at hpos
  cases hstate : c.state with
  | granted o since => exact ⟨o, since, rfl⟩
  | _ => simp [hstate, SlotState.isGranted] at hpos

/-- A waiter is counted by its slot. -/
theorem Inv.waiting_pos {n : Bool} (h : b.Inv)
    (ha : b.threads[t]? = some (.waiting i owner n)) (hc : b.slots[i]? = some c) :
    0 < c.waiting (Priority.of owner) := by
  have hpos := Pool.countP_pos_of_getElem? (p := Thread.waitsAt i (Priority.of owner)) ha
    (by simp [Thread.waitsAt])
  rwa [h.waiting, waitingAt_eq hc] at hpos

/-- A turn of the loop in `grant` keeps the invariant. -/
theorem Inv.turn {n : Bool} (h : b.Inv)
    (ha : b.threads[t]? = some (.waiting i owner n)) (hc : b.slots[i]? = some c) :
    (b.move t (grantTurn i owner b.now c).2 i (grantTurn i owner b.now c).1).Inv :=
  h.move ha hc (moves_grantTurn (h.waiting_pos ha hc))

theorem move_move (b : Broker K) (t i : ℕ) (a a' : Thread K) (c c' : Slot K) :
    (b.move t a i c).move t a' i c' = b.move t a' i c' := by
  simp only [move, List.set_set]

/-- A thread that has just called `grant` is counted first, and then goes round the loop like any
other waiter. -/
theorem Inv.enqueue [DecidableEq K] {key : K} {slots : List (Slot K)} (h : b.Inv)
    (ha : b.threads[t]? = some (.called (.grant key owner)))
    (hi : GpuBroker.slotIndex b.slots key = (i, slots)) (hc : slots[i]? = some c) :
    (({ b with slots }).move t (.waiting i owner false) i (c.enqueue owner)).Inv := by
  have hslots := h.slotIndex key
  rw [hi] at hslots
  exact hslots.move (a := Thread.called (.grant key owner)) ha hc (moves_enqueue i _ owner c)

/-- **Every step keeps the invariant.** -/
theorem Inv.step [DecidableEq K] {e : Event K} {b' : Broker K} (h : b.Inv)
    (hstep : b.step e = some b') : b'.Inv := by
  cases stepped_of_step hstep with
  | call request =>
    have hsame : ∀ q : Thread K → Bool, q (.called request) = false →
        (b.threads ++ [Thread.called request]).countP q = b.threads.countP q := by
      intro q hq
      rw [List.countP_append, List.countP_singleton, hq]
      rfl
    have hholds : ∀ x, (b.threads ++ [Thread.called request]).countP (Thread.holds x) =
        b.threads.countP (Thread.holds x) := fun x ↦ hsame _ rfl
    exact ⟨h.nodup, fun i ↦ (hsame _ rfl).trans (h.creating i),
      fun i ↦ (hsame _ rfl).trans (h.granted i), fun i p ↦ (hsame _ rfl).trans (h.waiting i p),
      fun x ↦ by rw [hholds]; exact h.sessions x, fun x hx ↦ by rw [hholds]; exact h.fresh x hx⟩
  | @grant t i key owner slots c ha hi hc =>
    have hcounted := h.enqueue ha hi hc
    have hlt := (List.getElem?_eq_some_iff.1 hc).1
    have hlt' := (List.getElem?_eq_some_iff.1 ha).1
    have hturn := hcounted.turn
      (List.getElem?_set_self hlt' : _ = some (Thread.waiting i owner false))
        (List.getElem?_set_self hlt)
    rwa [move_move] at hturn
  | @ensure t i key owner slots c ha hi hc hstate =>
    have hslots := h.slotIndex key
    rw [hi] at hslots
    exact hslots.move (a := Thread.called (.ensure key owner)) ha hc (moves_ensure owner hstate)
  | @ensured t i key owner slots c ha hi hc =>
    have hslots := h.slotIndex key
    rw [hi] at hslots
    exact hslots.move (a := Thread.called (.ensure key owner)) ha hc
      ⟨rfl, fun _ _ ↦ ⟨rfl, rfl, fun _ ↦ rfl⟩, rfl, rfl, fun _ ↦ rfl, fun _ ↦ Nat.le_refl _⟩
  | takeIdle ha => exact h.sweep ha
  | wake ha hc => exact h.turn ha hc
  | createOk ha => exact h.build ha
  | createFails ha hc =>
    obtain ⟨o, hstate⟩ := h.state_creating ha (decide_eq_true rfl) hc
    exact h.move ha hc (moves_createFails hstate)
  | handOver ha hc =>
    obtain ⟨o, hstate⟩ := h.state_creating ha (decide_eq_true rfl) hc
    exact h.move ha hc (moves_handOver hstate)
  | uncount ha hc => exact h.move ha hc moves_uncount
  | discarded ha hc =>
    obtain ⟨o, since, hstate⟩ := h.state_granted ha (decide_eq_true rfl) hc
    exact h.move ha hc (moves_discard hstate)
  | returned ha hc =>
    obtain ⟨o, since, hstate⟩ := h.state_granted ha (decide_eq_true rfl) hc
    exact h.move ha hc (moves_return hstate)
  | @notify t i gone ha =>
    have hthread : ({ b with threads := b.threads.set t (.dropping gone.toList) }).Inv :=
      h.thread ha (fun _ ↦ rfl) (fun _ ↦ rfl) (fun _ _ ↦ rfl) fun _ ↦ Nat.le_refl _
    exact hthread.notifyAll
  | discard ha =>
    exact h.thread ha (fun _ ↦ rfl) (fun _ ↦ rfl) (fun _ _ ↦ rfl) fun _ ↦ Nat.le_refl _
  | tick => exact ⟨h.nodup, h.creating, h.granted, h.waiting, h.sessions, h.fresh⟩

/-- **Every reachable broker meets the invariant.** -/
theorem inv_of_reachable [DecidableEq K] (h : (machine K).Reachable Any b) : b.Inv := by
  refine h.invariant ?_ fun b e b' _ hstep hinv ↦ hinv.step hstep
  exact ⟨List.nodup_nil, fun _ ↦ rfl, fun _ ↦ rfl, fun _ _ ↦ rfl, fun _ ↦ Nat.zero_le _,
    fun _ _ ↦ rfl⟩

end Broker

end RustCodeMcp.GpuBroker
