import Mathlib.Data.List.AList
import Mathlib.Data.List.MinMax
import RustCodeMcp.Machine.Runs

/-!
# The service of semantic queries

One analysis context per project, each in a slot behind a lock of its own, and a registry of slots
behind another. A call looks its project's slot up under the registry's lock and lets go of it,
waits for the slot, brings the context up to date, and takes the registry once more to order the use
or, when the load failed, to take the slot out of the map.

A slot is named by the position at which it was made, as the pointer to it names it in the source. A
call keeps the name it looked up, whatever becomes of the entry meanwhile.

What a context holds is left out here: a context is the kind it was loaded as. So are panics, and
the reports and sweeps that lock slots without loading them.
-/

namespace RustCodeMcp

/-- How much of a project is loaded. -/
inductive LoadKind
  | fast
  | full
  deriving DecidableEq

namespace SemanticService

/-- How many times a query is asked before it keeps the slot for its whole run. -/
def queryAttempts : ℕ := 3

/-- A project's place in the registry. -/
structure Entry where
  slot : ℕ
  /-- The clock when the project was last asked a question. Orders eviction. -/
  lastUsed : ℕ

/-- The map of contexts and what orders their eviction. -/
structure Registry (K : Type) where
  projects : AList fun _ : K ↦ Entry
  /-- Upper bound on `projects`; `0` disables eviction. -/
  maxProjects : ℕ
  clock : ℕ

/-- One project's context and its lock. -/
structure ProjectSlot where
  /-- What the context was loaded as; `none` until the first load finishes and after a failed
  one. -/
  context : Option LoadKind
  /-- The call that holds the lock. -/
  holder : Option ℕ

/-- What a call works on. -/
structure Work (K : Type) where
  key : K
  requested : LoadKind
  slot : ℕ
  attempt : ℕ

/-- Where a call at work is. -/
inductive Phase
  /-- Has its slot, and waits for its lock. -/
  | waiting
  /-- Holds the lock, and has not decided yet whether to load. -/
  | holding
  /-- In `load_into`, the previous context dropped. -/
  | loading
  /-- Back from `bring_up_to_date`, on its way to the registry. -/
  | brought (ok : Bool)
  /-- Up to date, about to take the snapshot. -/
  | current
  /-- At work on the snapshot; the last attempt holds the lock over it. -/
  | answering
  /-- About to return its error, and the lock with it. -/
  | leaving

/-- A call to the service. -/
inductive Call (K : Type)
  /-- Before it has looked its slot up. -/
  | called (key : K) (requested : LoadKind)
  | working (work : Work K) (phase : Phase)
  | finished

/-- The registry, the slots and the calls. -/
structure Service (K : Type) where
  registry : Registry K
  /-- Every slot made so far. -/
  slots : List ProjectSlot
  calls : List (Call K)

variable {K : Type} [DecidableEq K]

namespace Registry

/-- The least recently used project that is neither `keep` nor in use. -/
def victim (slots : List ProjectSlot) (keep : K) (r : Registry K) : Option K :=
  ((r.projects.entries.filter fun e ↦ decide (e.1 ≠ keep) &&
    (slots[e.2.slot]?.bind (·.holder)).isNone).argmin fun e ↦ e.2.lastUsed).map (·.1)

/-- The loop of `evict_to_capacity`: `n` bounds its turns, each of which takes an entry out. -/
def evict (slots : List ProjectSlot) (keep : K) : ℕ → Registry K → Registry K
  | 0, r => r
  | n + 1, r =>
    if r.projects.entries.length > r.maxProjects then
      match r.victim slots keep with
      | some key => evict slots keep n { r with projects := r.projects.erase key }
      | none => r
    else r

/-- Evict down to the bound, if there is one. -/
def evictToCapacity (slots : List ProjectSlot) (keep : K) (r : Registry K) : Registry K :=
  if r.maxProjects = 0 then r else r.evict slots keep r.projects.entries.length

/-- Remove `key` only if it still maps to `slot`. -/
def removeIfSame (key : K) (slot : ℕ) (r : Registry K) : Registry K :=
  if (r.projects.lookup key).any fun e ↦ decide (e.slot = slot) then
    { r with projects := r.projects.erase key }
  else r

/-- The registry after a call that has the context of `key` in `slot` up to date. -/
def use (slots : List ProjectSlot) (key : K) (slot : ℕ) (r : Registry K) : Registry K :=
  let r := { r with clock := r.clock + 1 }
  match r.projects.lookup key with
  | some e =>
    if e.slot = slot then
      evictToCapacity slots key
        { r with projects := r.projects.insert key { e with lastUsed := r.clock } }
    -- Cleared while the call worked: the context goes with the call rather than back in the map.
    else r
  | none => r

end Registry

namespace Service

variable (s : Service K)

/-- The slot of `key`, made if the project has none yet. -/
def slotFor (key : K) : Service K × ℕ :=
  let clock := s.registry.clock + 1
  match s.registry.projects.lookup key with
  | some e => ({ s with registry := { s.registry with clock } }, e.slot)
  | none =>
    ({ s with
        registry := { s.registry with
          clock
          projects := s.registry.projects.insert key { slot := s.slots.length, lastUsed := clock } }
        slots := s.slots ++ [{ context := none, holder := none }] }, s.slots.length)

/-- The call at `t` goes on as `call`, and its slot becomes `slot`. -/
def put (t : ℕ) (call : Call K) (i : ℕ) (slot : ProjectSlot) : Service K :=
  { s with calls := s.calls.set t call, slots := s.slots.set i slot }

/-- What happens next. The number is that of the call it happens to. -/
inductive Event (K : Type)
  | call (key : K) (requested : LoadKind)
  | slotFor (t : ℕ)
  | lock (t : ℕ)
  /-- The context is there and fresh, or could be patched. -/
  | keep (t : ℕ)
  /-- `load_into` drops what there is. -/
  | unload (t : ℕ)
  /-- The load ends, in a context or an error. -/
  | load (t : ℕ) (ok : Bool)
  /-- The registry's part of `up_to_date`. -/
  | settle (t : ℕ)
  | snapshot (t : ℕ)
  /-- The work on the snapshot ends; `cancelled` when a refresh landed under it. -/
  | answer (t : ℕ) (cancelled : Bool)
  | leave (t : ℕ)
  | clearProject (key : K)
  | clearAll

/-- Whether `bring_up_to_date` must load: there is no context, or a lesser one. -/
def needsLoad (context : Option LoadKind) (requested : LoadKind) : Bool :=
  match context with
  | some kind => decide (requested = .full ∧ kind = .fast)
  | none => true

/-- A step of a call at work on its slot. -/
def proceed (t : ℕ) (w : Work K) (slot : ProjectSlot) : Phase → Event K → Option (Service K)
  | .waiting, .lock _ =>
    if slot.holder.isNone then
      some (s.put t (.working w .holding) w.slot { slot with holder := some t })
    else none
  | .holding, .keep _ =>
    if needsLoad slot.context w.requested then none
    else some (s.put t (.working w (.brought true)) w.slot slot)
  | .holding, .unload _ =>
    some (s.put t (.working w .loading) w.slot { slot with context := none })
  | .loading, .load _ true =>
    some (s.put t (.working w (.brought true)) w.slot { slot with context := some w.requested })
  | .loading, .load _ false => some (s.put t (.working w (.brought false)) w.slot slot)
  | .brought true, .settle _ =>
    some { s.put t (.working w .current) w.slot slot with
      registry := s.registry.use s.slots w.key w.slot }
  | .brought false, .settle _ =>
    some { s.put t (.working w .leaving) w.slot slot with
      registry := if slot.context.isNone then s.registry.removeIfSame w.key w.slot
        else s.registry }
  | .current, .snapshot _ =>
    some (s.put t (.working w .answering) w.slot
      (if w.attempt = queryAttempts then slot else { slot with holder := none }))
  | .answering, .answer _ cancelled =>
    if w.attempt = queryAttempts then
      some (s.put t .finished w.slot { slot with holder := none })
    else if cancelled then
      some (s.put t (.working { w with attempt := w.attempt + 1 } .waiting) w.slot slot)
    else some (s.put t .finished w.slot slot)
  | .leaving, .leave _ => some (s.put t .finished w.slot { slot with holder := none })
  | _, _ => none

/-- The call an event happens to, if it is a step of one at work. -/
def Event.call? : Event K → Option ℕ
  | .lock t | .keep t | .unload t | .load t _ | .settle t | .snapshot t | .answer t _ | .leave t =>
    some t
  | _ => none

/-- One step of the service. -/
def step (s : Service K) : Event K → Option (Service K)
  | .call key requested => some { s with calls := s.calls ++ [.called key requested] }
  | .slotFor t =>
    match s.calls[t]? with
    | some (.called key requested) =>
      let (s, slot) := s.slotFor key
      some { s with
        calls := s.calls.set t (.working { key, requested, slot, attempt := 1 } .waiting) }
    | _ => none
  | .clearProject key =>
    some { s with registry := { s.registry with projects := s.registry.projects.erase key } }
  | .clearAll => some { s with registry := { s.registry with projects := ∅ } }
  | e =>
    e.call?.bind fun t ↦
      match s.calls[t]? with
      | some (.working w phase) => s.slots[w.slot]?.bind fun slot ↦ s.proceed t w slot phase e
      | _ => none

end Service

/-- The service of a process, from its start. -/
def machine (K : Type) [DecidableEq K] (maxProjects : ℕ) :
    Machine (Service K) (Service.Event K) where
  start := { registry := { projects := ∅, maxProjects, clock := 0 }, slots := [], calls := [] }
  step := Service.step

end SemanticService

end RustCodeMcp
