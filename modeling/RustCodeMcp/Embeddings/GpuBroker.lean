import Mathlib.Logic.Function.Basic
import RustCodeMcp.Machine.Runs

/-!
# The broker of GPU sessions

One session per backend, lent out run by run. The table of slots is behind a mutex and every access
to it is one critical section, so a step here is a critical section or something a thread does by
itself between two of them: building a session, dropping one, waking the others. A thread asleep on
the condition variable may wake without having been notified, as condition variables allow.

Releasing a slot and notifying the waiters are two steps, in this order: the guard is dropped before
`notify_all`. So are taking a session out of its slot and dropping it.

**A grant is lent, not shared.** A run takes the session out of its slot for as long as it needs it,
and puts it back, or drops it if it panicked while it had it; in between the slot says `granted` and
anybody else waits. A session is built outside the lock for the same reason: it takes long, and the
slot says `creating` meanwhile. What the broker promises is therefore about what slots say and who
has what, never about who holds the mutex.
-/

namespace RustCodeMcp

/-- Who a session is for. -/
inductive EmbeddingOwner
  | search
  | codemapRerank
  | index
  | tool
  | graphCache
  | providerCensus
  deriving DecidableEq

/-- Order in which waiting runs get the session. Lower goes first. -/
inductive Priority
  | interactive
  | index
  | graph
  deriving DecidableEq

namespace Priority

/-- The priority of a use: what somebody waits for goes first. -/
def of : EmbeddingOwner → Priority
  | .search | .codemapRerank => interactive
  | .index | .tool => index
  | .graphCache | .providerCensus => graph

/-- The order of the priorities. -/
def rank : Priority → ℕ
  | interactive => 0
  | index => 1
  | graph => 2

/-- The priorities, in the order of the counters of a slot. -/
def all : List Priority := [interactive, index, graph]

end Priority

namespace GpuBroker

/-- What a slot says. A session is named by the number it was built under. -/
inductive SlotState
  /-- No session: never created, released while idle, or discarded. -/
  | empty
  /-- A grant is building the session; it arrives as that grant. -/
  | creating (forOwner : EmbeddingOwner)
  /-- In the broker, nobody running it. -/
  | idle (session : ℕ) (since : ℕ)
  /-- Lent out for one run. -/
  | granted (owner : EmbeddingOwner) (since : ℕ)

/-- A slot of the table: its key, what it says, and how many runs wait for it. -/
structure Slot (K : Type) where
  key : K
  state : SlotState
  /-- Grants waiting for this slot, by priority. -/
  waiting : Priority → ℕ
  created : ℕ
  grants : ℕ

/-- What a thread asks of the broker. -/
inductive Request (K : Type)
  | grant (key : K) (owner : EmbeddingOwner)
  | ensure (key : K) (owner : EmbeddingOwner)
  | takeIdle (maxIdle : ℕ)

/-- Where a thread is. `slot` is the position of its slot; `ensuring` tells a thread in `ensure`
from one in `grant`. -/
inductive Thread (K : Type)
  /-- Before its first critical section. -/
  | called (request : Request K)
  /-- In `grant`, asleep on the condition variable or, once notified, about to look again. -/
  | waiting (slot : ℕ) (owner : EmbeddingOwner) (notified : Bool)
  /-- In `create`, its creation guard armed. -/
  | creating (slot : ℕ) (owner : EmbeddingOwner) (ensuring : Bool)
  /-- `create` returned; the slot still says `creating`. -/
  | created (slot : ℕ) (owner : EmbeddingOwner) (session : ℕ) (ensuring : Bool)
  /-- In `ensure`, its grant made and still counted as one. -/
  | uncounted (slot : ℕ) (session : ℕ)
  /-- Holds a grant. -/
  | holding (slot : ℕ) (session : ℕ)
  /-- Has freed its slot and is about to notify the waiters. -/
  | notifying (slot : ℕ) (discarded : Option ℕ)
  /-- About to drop sessions it took out of the broker. -/
  | dropping (sessions : List ℕ)
  | finished

/-- The broker and the threads that use it. -/
structure Broker (K : Type) where
  slots : List (Slot K)
  threads : List (Thread K)
  now : ℕ
  /-- The number of the next session built. -/
  nextSession : ℕ

variable {K : Type} [DecidableEq K]

/-- The position of the slot of a key, made if there is none. -/
def slotIndex (slots : List (Slot K)) (key : K) : ℕ × List (Slot K) :=
  match slots.findIdx? (fun s ↦ s.key = key) with
  | some index => (index, slots)
  | none => (slots.length, slots ++
      [{ key, state := .empty, waiting := fun _ ↦ 0, created := 0, grants := 0 }])

/-- Whether a run of a higher priority waits for the slot. -/
def Slot.outranked (slot : Slot K) (owner : EmbeddingOwner) : Bool :=
  (Priority.all.take (Priority.of owner).rank).any fun p ↦ decide (slot.waiting p > 0)

/-- The slot with one more run waiting. -/
def Slot.enqueue (slot : Slot K) (owner : EmbeddingOwner) : Slot K :=
  { slot with waiting :=
      Function.update slot.waiting (Priority.of owner) (slot.waiting (Priority.of owner) + 1) }

/-- The slot with one run less waiting. -/
def Slot.dequeue (slot : Slot K) (owner : EmbeddingOwner) : Slot K :=
  { slot with waiting :=
      Function.update slot.waiting (Priority.of owner) (slot.waiting (Priority.of owner) - 1) }

/-- One turn of the loop in `grant` for the slot at `index`: the slot it leaves, and where the
thread is then. -/
def grantTurn (index : ℕ) (owner : EmbeddingOwner) (now : ℕ) (slot : Slot K) :
    Slot K × Thread K :=
  if slot.outranked owner then (slot, .waiting index owner false) else
    match slot.state with
    | .idle session _ =>
      ({ slot.dequeue owner with grants := slot.grants + 1, state := .granted owner now },
        .holding index session)
    | .empty =>
      ({ slot.dequeue owner with state := .creating owner }, .creating index owner false)
    | _ => (slot, .waiting index owner false)

/-- The session of a slot idle for at least `maxIdle`. -/
def Slot.stale (maxIdle now : ℕ) (slot : Slot K) : Option ℕ :=
  match slot.state with
  | .idle session since => if now - since ≥ maxIdle then some session else none
  | _ => none

/-- The slot as `take_idle` leaves it. -/
def Slot.swept (maxIdle now : ℕ) (slot : Slot K) : Slot K :=
  if (slot.stale maxIdle now).isSome then { slot with state := .empty } else slot

namespace Broker

variable (b : Broker K)

/-- The broker with the thread at `t` and the slot at `index` as given. -/
def move (t : ℕ) (thread : Thread K) (index : ℕ) (slot : Slot K) : Broker K :=
  { b with threads := b.threads.set t thread, slots := b.slots.set index slot }

/-- The first critical section of a request. -/
def enter (t : ℕ) : Request K → Option (Broker K)
  | .grant key owner =>
    let (index, slots) := slotIndex b.slots key
    let b := { b with slots }
    slots[index]?.map fun slot ↦
      let (slot, thread) := grantTurn index owner b.now (slot.enqueue owner)
      b.move t thread index slot
  | .ensure key owner =>
    let (index, slots) := slotIndex b.slots key
    let b := { b with slots }
    slots[index]?.map fun slot ↦
      match slot.state with
      | .empty => b.move t (.creating index owner true) index { slot with state := .creating owner }
      | _ => b.move t .finished index slot
  | .takeIdle maxIdle =>
    some { b with
      threads := b.threads.set t (.dropping (b.slots.filterMap (Slot.stale maxIdle b.now)))
      slots := b.slots.map (Slot.swept maxIdle b.now) }

/-- `notify_all`: everybody asleep on the condition variable is woken, whatever slot it waits
for. -/
def notifyAll : List (Thread K) → List (Thread K) :=
  List.map fun
    | .waiting slot owner _ => .waiting slot owner true
    | thread => thread

/-- What happens next. The number is that of the thread it happens to. -/
inductive Event (K : Type)
  /-- A thread calls the broker. -/
  | call (request : Request K)
  | enter (t : ℕ)
  /-- A waiter holds the mutex again and goes round its loop. -/
  | wake (t : ℕ)
  | createOk (t : ℕ)
  /-- `create` returns an error or panics. -/
  | createFails (t : ℕ)
  /-- The second critical section of a creation: the slot is granted. -/
  | handOver (t : ℕ)
  /-- `ensure` takes its grant off the count. -/
  | uncount (t : ℕ)
  /-- A grant is dropped; `panicking` when the run under it panicked. -/
  | drop (t : ℕ) (panicking : Bool)
  | notify (t : ℕ)
  /-- The sessions taken out of the broker are dropped. -/
  | discard (t : ℕ)
  | tick

/-- One step of a thread, a wake-up or a sweep; none if it cannot happen. -/
def step (b : Broker K) : Event K → Option (Broker K)
  | .call request => some { b with threads := b.threads ++ [.called request] }
  | .enter t =>
    match b.threads[t]? with
    | some (.called request) => b.enter t request
    | _ => none
  | .wake t =>
    match b.threads[t]? with
    | some (.waiting index owner _) => b.slots[index]?.map fun slot ↦
        let (slot, thread) := grantTurn index owner b.now slot
        b.move t thread index slot
    | _ => none
  | .createOk t =>
    match b.threads[t]? with
    | some (.creating index owner ensuring) => some { b with
        threads := b.threads.set t (.created index owner b.nextSession ensuring)
        nextSession := b.nextSession + 1 }
    | _ => none
  | .createFails t =>
    match b.threads[t]? with
    | some (.creating index _ _) => b.slots[index]?.map fun slot ↦
        -- The creation guard is still armed: its drop empties the slot.
        b.move t (.notifying index none) index { slot with state := .empty }
    | _ => none
  | .handOver t =>
    match b.threads[t]? with
    | some (.created index owner session ensuring) => b.slots[index]?.map fun slot ↦
        let slot := { slot with
          created := slot.created + 1
          grants := slot.grants + 1
          state := .granted owner b.now }
        b.move t (if ensuring then .uncounted index session else .holding index session) index slot
    | _ => none
  | .uncount t =>
    match b.threads[t]? with
    | some (.uncounted index session) => b.slots[index]?.map fun slot ↦
        b.move t (.holding index session) index { slot with grants := slot.grants - 1 }
    | _ => none
  | .drop t panicking =>
    match b.threads[t]? with
    | some (.holding index session) => b.slots[index]?.map fun slot ↦
        if panicking then
          b.move t (.notifying index (some session)) index { slot with state := .empty }
        else b.move t (.notifying index none) index { slot with state := .idle session b.now }
    | _ => none
  | .notify t =>
    match b.threads[t]? with
    | some (.notifying _ discarded) =>
      some { b with threads := notifyAll (b.threads.set t (.dropping discarded.toList)) }
    | _ => none
  | .discard t =>
    match b.threads[t]? with
    | some (.dropping _) => some { b with threads := b.threads.set t .finished }
    | _ => none
  | .tick => some { b with now := b.now + 1 }

end Broker

/-- The broker of a process, from its start. -/
def machine (K : Type) [DecidableEq K] : Machine (Broker K) (Broker.Event K) where
  start := { slots := [], threads := [], now := 0, nextSession := 0 }
  step := Broker.step

end GpuBroker

end RustCodeMcp
