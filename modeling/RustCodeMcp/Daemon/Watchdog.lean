import Mathlib.Algebra.Group.Nat.Defs
import Mathlib.Data.List.Basic
import RustCodeMcp.Machine.Runs

/-!
# The memory watchdog

The loop of the daemon, as far as it looks at its memory: it trims the allocator, unloads the
analyses and retires. A step is one turn of the loop, with what is read in it and how long it takes;
it is as well the end of the loop. What the state keeps of the past is what the runs are judged by.

The trim that is a part of every unload, the collection of garbage and the sessions of the GPU do
not come in here, nor what ends the loop. Times are in nanoseconds; the clock does not go back.

**A decision is a function of a reading, the limits, how long ago the last unload was, and whether
the daemon has retired** (`decideWatchdogAction`). Everything else in the loop is about getting
these right. A turn without a reading decides nothing; a trim may change what was read, so it is
read again, and where that fails the old reading decides; and the clock is looked at a moment after
the memory is.

Reading after a trim is a part of the event: the model does not say how much a trim frees, and no
result needs to know.
-/

namespace RustCodeMcp.Watchdog

/-- In nanoseconds. -/
def second : ℕ := 1000000000

/-- `u64::MAX` -/
def maxU64 : ℕ := 2 ^ 64 - 1

/-- Thresholds in MB; `0` disables one. -/
structure WatchdogLimits where
  softMb : ℕ
  hardMb : ℕ
  minAvailableMb : ℕ
  cooldown : ℕ

/-- What the watchdog does with what it has read. -/
inductive WatchdogAction
  | none
  | unload
  | retireAndUnload
  deriving DecidableEq

/-- The memory of the process, and what is left on the machine, in MB. -/
structure MemoryReading where
  rssMb : ℕ
  /-- `none` when it could not be read. -/
  availableMb : Option ℕ
  rssMb_le : rssMb ≤ maxU64

/-- The decision on one reading. `sinceUnload` is `none` when nothing has been unloaded yet. -/
def decideWatchdogAction (rssMb : ℕ) (availableMb : Option ℕ) (limits : WatchdogLimits)
    (sinceUnload : Option ℕ) (retiring : Bool) : WatchdogAction :=
  if !retiring && decide (0 < limits.hardMb) && decide (limits.hardMb ≤ rssMb) then
    .retireAndUnload
  else
    let overOwnLimit := decide (0 < limits.softMb) && decide (limits.softMb ≤ rssMb)
    let machineIsShort := decide (0 < limits.minAvailableMb) &&
      availableMb.any (· < limits.minAvailableMb)
    if !overOwnLimit && !machineIsShort then .none
    else
      match sinceUnload with
      | some elapsed => if elapsed < limits.cooldown then .none else .unload
      | none => .unload

/-- Between trims that settle a decision. -/
def TRIM_COOLDOWN : ℕ := 60 * second

/-- A decision, with the trim it was made after, if any. -/
structure WatchdogTick where
  action : WatchdogAction
  /-- Before and after, when the tick trimmed before deciding. -/
  trimmed : Option (MemoryReading × MemoryReading)

/-- The decision, with the allocator trimmed before a threshold acts; `after` is what the trim would
leave. -/
def watchdogTick (reading : MemoryReading) (limits : WatchdogLimits)
    (sinceUnload sinceTrim : Option ℕ) (retiring : Bool) (after : MemoryReading) : WatchdogTick :=
  let raw := decideWatchdogAction reading.rssMb reading.availableMb limits sinceUnload retiring
  let trimIsDue := sinceTrim.all (TRIM_COOLDOWN ≤ ·)
  if raw = .none || !trimIsDue then { action := raw, trimmed := none }
  else
    { action := decideWatchdogAction after.rssMb after.availableMb limits sinceUnload retiring
      trimmed := some (reading, after) }

/-- Between trims for growth. -/
def GROWTH_TRIM_COOLDOWN : ℕ := 300 * second

/-- `saturating_add` of `u64`s. -/
def saturatingAdd (a b : ℕ) : ℕ :=
  min (a + b) maxU64

/-- The memory has grown enough since the last trim to trim for that alone. -/
def growthTrimIsDue (rssMb baselineMb growthMb : ℕ) (sinceTrim : Option ℕ) : Bool :=
  if growthMb = 0 then false
  else if sinceTrim.any (· < GROWTH_TRIM_COOLDOWN) then false
  else decide (saturatingAdd baselineMb growthMb ≤ rssMb)

/-- `a - b`, if it does not underflow. -/
def checkedSub (a b : ℕ) : Option ℕ :=
  if b ≤ a then some (a - b) else none

/-- `at.elapsed().ok()` -/
def elapsed (now since : ℕ) : Option ℕ :=
  if since ≤ now then some (now - since) else none

/-! ### The loop -/

/-- A trim: what for, and when it began and ended. -/
structure Trim where
  /-- To settle a decision, and not for growth. -/
  settles : Bool
  started : ℕ
  ended : ℕ

/-- An unload: when it began and ended, and when the reading was taken that it was decided on. -/
structure Unload where
  retires : Bool
  /-- When the reading was taken that it was decided on. -/
  readAt : ℕ
  /-- The tick has trimmed, and nothing could be read after that. -/
  unread : Bool
  started : ℕ
  ended : ℕ

/-- The daemon as the watchdog knows it, and what it has done so far. -/
structure State where
  clock : ℕ
  lastUnload : Option ℕ
  lastTrim : Option ℕ
  trimBaselineMb : ℕ
  retiring : Bool
  /-- The loop is over. -/
  stopped : Bool
  trims : List Trim
  unloads : List Unload
  /-- When the reading was taken on which the daemon retired; `none` for a replaced binary. -/
  retired : List (Option ℕ)
  /-- How often the socket was removed. -/
  unlinked : ℕ
  /-- A subtraction from a reading has underflowed. -/
  underflowed : Bool

/-- One turn of the loop. -/
structure Turn where
  /-- How long it is until the memory is read. -/
  waited : ℕ
  reading : Option MemoryReading
  /-- From there to the look at the clock. -/
  lag : ℕ
  /-- What a trim takes, and what can be read after it. -/
  trimming : ℕ
  after : Option MemoryReading
  /-- What an unload takes. -/
  unloading : ℕ
  /-- There is another binary at the launch path. -/
  replaced : Bool

/-- A turn of the loop, or its end. -/
inductive Event
  | turn (t : Turn)
  | stop

namespace State

variable (limits : WatchdogLimits) (growthMb : ℕ) (s : State) (t : Turn) (reading : MemoryReading)

/-- When the memory is read, and when the clock is. -/
def readAt : ℕ :=
  s.clock + t.waited

/-- The clock when the watchdog looks at it. -/
def now : ℕ :=
  s.readAt t + t.lag

/-- What is known after a trim: the old reading, when nothing can be read. -/
def after : MemoryReading :=
  t.after.getD reading

/-- The decision of a turn. -/
def tick : WatchdogTick :=
  watchdogTick reading limits (s.lastUnload.bind (elapsed (s.now t)))
    (s.lastTrim.bind (elapsed (s.now t))) s.retiring (after t reading)

/-- A trim, after which the memory is known to be what it left. -/
def trim (settles : Bool) : State :=
  { s with
    clock := s.now t + t.trimming
    lastTrim := some (s.now t + t.trimming)
    trimBaselineMb := (after t reading).rssMb
    trims := s.trims ++ [{ settles, started := s.now t, ended := s.now t + t.trimming }] }

/-- The trims of a turn, and the reading that goes on. -/
def trimFirst : State × MemoryReading :=
  match (s.tick limits t reading).trimmed with
  | some (_, after) => (s.trim t reading true, after)
  | none =>
    if growthTrimIsDue reading.rssMb s.trimBaselineMb growthMb
        (s.lastTrim.bind (elapsed (s.now t))) then
      ({ s.trim t reading false with
          underflowed := s.underflowed || (checkedSub reading.rssMb s.trimBaselineMb).isNone },
        after t reading)
    else ({ s with clock := s.now t }, reading)

/-- The analyses are unloaded, and the daemon retires if that was decided. -/
def unload (retires : Bool) (readAt : ℕ) (unread : Bool) : State :=
  { s with
    clock := s.clock + t.unloading
    lastUnload := some (s.clock + t.unloading)
    unloads := s.unloads ++
      [{ retires, readAt, unread, started := s.clock, ended := s.clock + t.unloading }] }

/-- The socket is removed, and the daemon serves the clients it has. -/
def retire (readAt : Option ℕ) : State :=
  { s with
    retiring := true
    retired := s.retired ++ [readAt]
    unlinked := s.unlinked + 1 }

/-- What follows from a decision. -/
def act (action : WatchdogAction) (readAt : ℕ) (unread : Bool) : State :=
  match action with
  | .none => s
  | .unload => s.unload t false readAt unread
  | .retireAndUnload => (s.retire (some readAt)).unload t true readAt unread

/-- The watchdog of a turn. -/
def watch : State :=
  let tick := s.tick limits t reading
  let (next, current) := s.trimFirst limits growthMb t reading
  let unread := tick.trimmed.isSome && t.after.isNone
  -- After a trim the decision is on what was read then.
  let readAt := if tick.trimmed.isSome && !unread then s.now t + t.trimming else s.readAt t
  { next with trimBaselineMb := min next.trimBaselineMb current.rssMb }.act t tick.action readAt
    unread

/-- Another binary retires the daemon. -/
def replace : State :=
  if !s.retiring && t.replaced then s.retire none else s

/-- A turn: the watchdog, then the look at the binary. -/
def turn : State :=
  match t.reading with
  | some reading => (s.watch limits growthMb t reading).replace t
  | none => { s with clock := s.readAt t }.replace t

/-- One turn; none once the loop has ended. -/
def step : Event → Option State
  | .turn t => if s.stopped then none else some (s.turn limits growthMb t)
  | .stop =>
    if s.stopped then none
    else some { s with stopped := true, unlinked := s.unlinked + (!s.retiring).toNat }

end State

/-- The daemon has just been started. -/
def machine (limits : WatchdogLimits) (growthMb : ℕ) (startup : Option MemoryReading) :
    Machine State Event where
  start :=
    { clock := 0
      lastUnload := none
      lastTrim := none
      trimBaselineMb := startup.elim 0 MemoryReading.rssMb
      retiring := false
      stopped := false
      trims := []
      unloads := []
      retired := []
      unlinked := 0
      underflowed := false }
  step := State.step limits growthMb

end RustCodeMcp.Watchdog
