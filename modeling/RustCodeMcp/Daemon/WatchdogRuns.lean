import RustCodeMcp.Daemon.Watchdog

/-!
# What the watchdog keeps to

In every run the daemon retires once at most, unloads and trims keep their distance, and what is
decided on the memory is decided on what a trim has left, within a minute of it (`watchdog_runs`). A
replaced binary retires the daemon without a look at the memory, and when nothing can be read after
a trim the old reading decides (`unread_decisions`).

Distances are kept by what the state remembers: when the last unload and the last trim were over.
The next one is measured against that, and since the clock does not go back, the difference of two
looks at it is the time between (`elapsed_lastTrim`, `elapsed_lastUnload`). The first of either is
never held up.

**"On what a trim has left" is a condition on the past**: among the trims of the run there is one
that ended less than a minute before the reading was taken, or nothing could be read after the trim
of that turn (`Unload.Decided`). It stays true as more trims are done.
-/

namespace RustCodeMcp.Watchdog

open Machine

/-- The unload was decided on a reading within a minute of a trim, or on the one before the trim of
its turn, when nothing could be read after that. -/
def Unload.Decided (u : Unload) (trims : List Trim) : Prop :=
  (∃ a ∈ trims, a.ended ≤ u.readAt ∧ u.readAt < a.ended + TRIM_COOLDOWN) ∨
    u.unread = true ∧ ∃ a ∈ trims, a.settles = true ∧ u.readAt ≤ a.started ∧ a.ended ≤ u.started

theorem Unload.Decided.append {u : Unload} {trims : List Trim} (h : u.Decided trims)
    (later : List Trim) : u.Decided (trims ++ later) := by
  rcases h with ⟨a, ha, h⟩ | ⟨hunread, a, ha, h⟩
  · exact .inl ⟨a, List.mem_append_left _ ha, h⟩
  · exact .inr ⟨hunread, a, List.mem_append_left _ ha, h⟩

/-! ### One decision -/

section Decision

variable {rssMb : ℕ} {availableMb : Option ℕ} {limits : WatchdogLimits} {sinceUnload : Option ℕ}
  {retiring : Bool}

theorem retiring_of_retireAndUnload
    (h : decideWatchdogAction rssMb availableMb limits sinceUnload retiring = .retireAndUnload) :
    retiring = false := by
  unfold decideWatchdogAction at h
  split at h
  next hhard => simpa using (Bool.and_eq_true_iff.1 (Bool.and_eq_true_iff.1 hhard).1).1
  next =>
    simp only at h
    split at h
    · cases h
    · split at h
      · split_ifs at h
      · cases h

/-- An unload is decided on only once the last one is long enough ago. -/
theorem cooldown_of_unload
    (h : decideWatchdogAction rssMb availableMb limits sinceUnload retiring = .unload) :
    ∀ e, sinceUnload = some e → limits.cooldown ≤ e := by
  rintro e rfl
  unfold decideWatchdogAction at h
  split at h
  · cases h
  · simp only at h
    split at h
    · cases h
    · split_ifs at h with hcool
      exact Nat.not_lt.1 hcool

variable {reading after : MemoryReading} {sinceTrim : Option ℕ}

/-- A tick trims first, or it has nothing to settle, or a trim is not due again. -/
theorem watchdogTick_cases (reading after : MemoryReading) (limits : WatchdogLimits)
    (sinceUnload sinceTrim : Option ℕ) (retiring : Bool) :
    (∃ e, sinceTrim = some e ∧ e < TRIM_COOLDOWN) ∧
        watchdogTick reading limits sinceUnload sinceTrim retiring after =
          { action := decideWatchdogAction reading.rssMb reading.availableMb limits sinceUnload
              retiring
            trimmed := none } ∨
      watchdogTick reading limits sinceUnload sinceTrim retiring after =
        { action := .none, trimmed := none } ∨
      (∀ e, sinceTrim = some e → TRIM_COOLDOWN ≤ e) ∧
        watchdogTick reading limits sinceUnload sinceTrim retiring after =
          { action := decideWatchdogAction after.rssMb after.availableMb limits sinceUnload retiring
            trimmed := some (reading, after) } := by
  unfold watchdogTick
  generalize decideWatchdogAction reading.rssMb _ _ _ _ = raw
  simp only
  split
  case isTrue hnone =>
    rw [Bool.or_eq_true, decide_eq_true_iff] at hnone
    rcases hnone with rfl | hdue
    · exact .inr (.inl rfl)
    · rw [Bool.not_eq_true', Option.all_eq_false] at hdue
      obtain ⟨e, rfl, he⟩ := hdue
      exact .inl ⟨⟨e, rfl, Nat.not_le.1 (of_decide_eq_false he)⟩, rfl⟩
  case isFalse hdue =>
    refine .inr (.inr ⟨fun e he ↦ ?_, rfl⟩)
    rw [Bool.or_eq_true, not_or, Bool.not_eq_true', Bool.not_eq_false, he, Option.all_some] at hdue
    exact of_decide_eq_true hdue.2

/-- A trim for growth is due when one that settles a decision is, and the growth is none below. -/
theorem due_of_growthTrimIsDue {rssMb baselineMb growthMb : ℕ} (hbaseline : baselineMb ≤ maxU64)
    (h : growthTrimIsDue rssMb baselineMb growthMb sinceTrim = true) :
    (∀ e, sinceTrim = some e → TRIM_COOLDOWN ≤ e) ∧ baselineMb ≤ rssMb := by
  unfold growthTrimIsDue at h
  split_ifs at h with hzero hcool
  constructor
  · rintro e rfl
    rw [Option.any_some, decide_eq_true_iff] at hcool
    exact Nat.le_trans (by decide) (Nat.not_lt.1 hcool)
  · have hle := of_decide_eq_true h
    rw [saturatingAdd] at hle
    omega

end Decision

/-! ### The loop -/

namespace State

/-- What the loop keeps: distances, the notes of the last trim and unload, and on what was
decided. -/
structure Inv (limits : WatchdogLimits) (s : State) : Prop where
  retired : s.retired.length ≤ 1 ∧ s.unlinked ≤ 1
  serving : s.retiring = false → s.retired = [] ∧ (s.stopped = false → s.unlinked = 0)
  baseline : s.trimBaselineMb ≤ maxU64
  underflowed : s.underflowed = false
  lastTrim : ∀ at', s.lastTrim = some at' → at' ≤ s.clock ∧ ∃ a ∈ s.trims, a.ended = at'
  trims : ∀ a ∈ s.trims, ∃ at', s.lastTrim = some at' ∧ a.ended ≤ at'
  trimsApart : s.trims.Pairwise fun a b ↦ b.settles = true → a.ended + TRIM_COOLDOWN ≤ b.started
  lastUnload : ∀ at', s.lastUnload = some at' → at' ≤ s.clock
  unloads : ∀ u ∈ s.unloads, ∃ at', s.lastUnload = some at' ∧ u.ended ≤ at'
  unloadsApart : s.unloads.Pairwise fun u v ↦
    v.retires = false → u.ended + limits.cooldown ≤ v.started
  decided : ∀ u ∈ s.unloads, u.Decided s.trims
  retiredOn : ∀ at', some at' ∈ s.retired → ∃ u ∈ s.unloads, u.retires = true ∧ u.readAt = at'

variable {limits : WatchdogLimits} {growthMb : ℕ} {s : State} {t : Turn} {reading : MemoryReading}

/-- Time passes, and the baseline goes down. -/
theorem Inv.wait (h : s.Inv limits) {clock baseline : ℕ} (hclock : s.clock ≤ clock)
    (hbaseline : baseline ≤ maxU64) :
    { s with clock, trimBaselineMb := baseline }.Inv limits :=
  { h with
    baseline := hbaseline
    lastTrim := fun at' heq ↦ ⟨Nat.le_trans (h.lastTrim at' heq).1 hclock, (h.lastTrim at' heq).2⟩
    lastUnload := fun at' heq ↦ Nat.le_trans (h.lastUnload at' heq) hclock }

theorem clock_le_now (s : State) (t : Turn) : s.clock ≤ s.now t := by
  rw [now, readAt]
  omega

theorem elapsed_lastTrim (h : s.Inv limits) {since : ℕ} (hsince : s.lastTrim = some since) :
    s.lastTrim.bind (elapsed (s.now t)) = some (s.now t - since) := by
  rw [hsince, Option.bind_some, elapsed,
    if_pos (Nat.le_trans (h.lastTrim since hsince).1 (s.clock_le_now t))]

theorem elapsed_lastUnload (h : s.Inv limits) {since : ℕ} (hsince : s.lastUnload = some since) :
    s.lastUnload.bind (elapsed (s.now t)) = some (s.now t - since) := by
  rw [hsince, Option.bind_some, elapsed,
    if_pos (Nat.le_trans (h.lastUnload since hsince) (s.clock_le_now t))]

/-- A trim that is due. -/
theorem Inv.trim (h : s.Inv limits) (settles : Bool)
    (hdue : ∀ e, s.lastTrim.bind (elapsed (s.now t)) = some e → TRIM_COOLDOWN ≤ e) :
    (s.trim t reading settles).Inv limits where
  retired := h.retired
  serving := h.serving
  baseline := (after t reading).rssMb_le
  underflowed := h.underflowed
  lastTrim at' heq := by
    obtain rfl := Option.some.inj heq
    exact ⟨Nat.le_refl _, _, List.mem_append_right _ (List.mem_singleton_self _), rfl⟩
  trims a ha := by
    refine ⟨_, rfl, ?_⟩
    rcases List.mem_append.1 ha with ha | ha
    · obtain ⟨at', heq, hle⟩ := h.trims a ha
      have := (h.lastTrim at' heq).1
      have := s.clock_le_now t
      omega
    · obtain rfl := List.mem_singleton.1 ha
      exact Nat.le_refl _
  trimsApart := by
    refine List.pairwise_append.2 ⟨h.trimsApart, List.pairwise_singleton _ _, ?_⟩
    intro a ha b hb hsettles
    obtain rfl := List.mem_singleton.1 hb
    obtain ⟨at', heq, hle⟩ := h.trims a ha
    have hcool := hdue _ (elapsed_lastTrim h heq)
    show a.ended + TRIM_COOLDOWN ≤ s.now t
    rw [TRIM_COOLDOWN, second] at hcool ⊢
    omega
  lastUnload at' heq := by
    have := h.lastUnload at' heq
    have := s.clock_le_now t
    show at' ≤ s.now t + t.trimming
    omega
  unloads := h.unloads
  unloadsApart := h.unloadsApart
  decided u hu := (h.decided u hu).append _
  retiredOn := h.retiredOn

/-- An unload that is due. -/
theorem Inv.unload (h : s.Inv limits) (retires : Bool) (readAt : ℕ) (unread : Bool)
    (hcooldown : retires = false → ∀ at', s.lastUnload = some at' →
      at' + limits.cooldown ≤ s.clock)
    (hdecided : Unload.Decided
      { retires, readAt, unread, started := s.clock, ended := s.clock + t.unloading } s.trims) :
    (s.unload t retires readAt unread).Inv limits where
  retired := h.retired
  serving := h.serving
  baseline := h.baseline
  underflowed := h.underflowed
  lastTrim at' heq :=
    ⟨Nat.le_trans (h.lastTrim at' heq).1 (Nat.le_add_right _ _), (h.lastTrim at' heq).2⟩
  trims := h.trims
  trimsApart := h.trimsApart
  lastUnload at' heq := Nat.le_of_eq (Option.some.inj heq).symm
  unloads u hu := by
    refine ⟨_, rfl, ?_⟩
    rcases List.mem_append.1 hu with hu | hu
    · obtain ⟨at', heq, hle⟩ := h.unloads u hu
      have := h.lastUnload at' heq
      omega
    · obtain rfl := List.mem_singleton.1 hu
      exact Nat.le_refl _
  unloadsApart := by
    refine List.pairwise_append.2 ⟨h.unloadsApart, List.pairwise_singleton _ _, ?_⟩
    intro u hu v hv hretires
    obtain rfl := List.mem_singleton.1 hv
    obtain ⟨at', heq, hle⟩ := h.unloads u hu
    exact Nat.le_trans (Nat.add_le_add_right hle _) (hcooldown hretires at' heq)
  decided u hu := by
    rcases List.mem_append.1 hu with hu | hu
    · exact h.decided u hu
    · exact List.mem_singleton.1 hu ▸ hdecided
  retiredOn at' hmem := by
    obtain ⟨u, hu, hretires⟩ := h.retiredOn at' hmem
    exact ⟨u, List.mem_append_left _ hu, hretires⟩

/-- A daemon that has not retired does. -/
theorem Inv.retire (h : s.Inv limits) (hstopped : s.stopped = false)
    (hretiring : s.retiring = false) (readAt : Option ℕ)
    (hon : ∀ at', readAt = some at' → ∃ u ∈ s.unloads, u.retires = true ∧ u.readAt = at') :
    (s.retire readAt).Inv limits := by
  obtain ⟨hnil, hzero⟩ := h.serving hretiring
  refine { h with retired := ?_, serving := nofun, retiredOn := fun at' hmem ↦ ?_ }
  · show (s.retired ++ [readAt]).length ≤ 1 ∧ s.unlinked + 1 ≤ 1
    rw [hnil, hzero hstopped]
    exact ⟨Nat.le_refl _, Nat.le_refl _⟩
  · rcases List.mem_append.1 hmem with hmem | hmem
    · exact h.retiredOn at' hmem
    · exact hon at' (List.mem_singleton.1 hmem).symm

/-- What a decision leads to. -/
theorem Inv.act (h : s.Inv limits) (hstopped : s.stopped = false) {action : WatchdogAction}
    {readAt : ℕ} {unread : Bool}
    (hunload : action = .unload → ∀ at', s.lastUnload = some at' → at' + limits.cooldown ≤ s.clock)
    (hretire : action = .retireAndUnload → s.retiring = false)
    (hdecided : action ≠ .none → ∀ retires, Unload.Decided
      { retires, readAt, unread, started := s.clock, ended := s.clock + t.unloading } s.trims) :
    (s.act t action readAt unread).Inv limits := by
  cases action with
  | none => exact h
  | unload => exact h.unload false readAt unread (fun _ ↦ hunload rfl) (hdecided nofun false)
  | retireAndUnload =>
    have hunloaded := h.unload (t := t) true readAt unread nofun (hdecided nofun true)
    refine hunloaded.retire hstopped (hretire rfl) (some readAt) fun at' heq ↦ ?_
    obtain rfl := Option.some.inj heq
    exact ⟨_, List.mem_append_right _ (List.mem_singleton_self _), rfl, rfl⟩

theorem stopped_act (s : State) (action : WatchdogAction) (readAt : ℕ) (unread : Bool) :
    (s.act t action readAt unread).stopped = s.stopped := by
  cases action <;> rfl

/-- The cooldown is over when an unload begins, which is after the look at the clock. -/
theorem Inv.cooldown (h : s.Inv limits) {clock rssMb : ℕ} (hclock : s.now t ≤ clock)
    {availableMb : Option ℕ} {retiring : Bool}
    (hunload : decideWatchdogAction rssMb availableMb limits
      (s.lastUnload.bind (elapsed (s.now t))) retiring = .unload) :
    ∀ at', s.lastUnload = some at' → at' + limits.cooldown ≤ clock := by
  intro at' heq
  have hle := cooldown_of_unload hunload _ (elapsed_lastUnload h heq)
  have := h.lastUnload at' heq
  have := s.clock_le_now t
  omega

theorem exists_trim_of_elapsed (h : s.Inv limits) {e : ℕ}
    (hsince : s.lastTrim.bind (elapsed (s.now t)) = some e) :
    ∃ a ∈ s.trims, a.ended ≤ s.clock ∧ e = s.now t - a.ended := by
  obtain ⟨at', heq, -⟩ := Option.bind_eq_some_iff.1 hsince
  obtain ⟨hle, a, ha, rfl⟩ := h.lastTrim at' heq
  exact ⟨a, ha, hle, (Option.some.inj ((elapsed_lastTrim h heq).symm.trans hsince)).symm⟩

/-- Nothing is trimmed: the decision is on the reading, within a minute of a trim. -/
theorem Inv.watch_recent (h : s.Inv limits) (hstopped : s.stopped = false) {e : ℕ}
    (hsince : s.lastTrim.bind (elapsed (s.now t)) = some e) (he : e < TRIM_COOLDOWN) :
    ({ s with clock := s.now t, trimBaselineMb := min s.trimBaselineMb reading.rssMb }.act t
      (decideWatchdogAction reading.rssMb reading.availableMb limits
        (s.lastUnload.bind (elapsed (s.now t))) s.retiring) (s.readAt t) false).Inv limits := by
  have hwaited := h.wait (s.clock_le_now t)
    (Nat.le_trans (Nat.min_le_left _ reading.rssMb) h.baseline)
  refine hwaited.act hstopped (fun hunload ↦ h.cooldown (Nat.le_refl _) hunload)
    retiring_of_retireAndUnload fun _ retires ↦ .inl ?_
  obtain ⟨a, ha, hover, rfl⟩ := exists_trim_of_elapsed h hsince
  refine ⟨a, ha, ?_⟩
  have hread : s.readAt t ≤ s.now t := Nat.le_add_right _ _
  have hclock : s.clock ≤ s.readAt t := Nat.le_add_right _ _
  rw [TRIM_COOLDOWN, second] at he ⊢
  show a.ended ≤ s.readAt t ∧ s.readAt t < a.ended + _
  omega

/-- The trim comes first: the decision is on what can be read then. -/
theorem Inv.watch_trimmed (h : s.Inv limits) (hstopped : s.stopped = false)
    (hdue : ∀ e, s.lastTrim.bind (elapsed (s.now t)) = some e → TRIM_COOLDOWN ≤ e) :
    ({ s.trim t reading true with
        trimBaselineMb := min (after t reading).rssMb (after t reading).rssMb }.act t
      (decideWatchdogAction (after t reading).rssMb (after t reading).availableMb limits
        (s.lastUnload.bind (elapsed (s.now t))) s.retiring)
      (if !t.after.isNone then s.now t + t.trimming else s.readAt t) t.after.isNone).Inv
      limits := by
  have htrimmed : (s.trim t reading true).Inv limits := h.trim true hdue
  have hwaited := htrimmed.wait (Nat.le_refl _)
    (Nat.le_trans (Nat.min_le_left _ (after t reading).rssMb) (after t reading).rssMb_le)
  refine hwaited.act hstopped (fun hunload ↦ h.cooldown (Nat.le_add_right _ _) hunload)
    retiring_of_retireAndUnload fun _ retires ↦ ?_
  have hmem : { settles := true, started := s.now t, ended := s.now t + t.trimming } ∈
      (s.trim t reading true).trims := List.mem_append_right _ (List.mem_singleton_self _)
  rcases t.after with - | later
  · exact .inr ⟨rfl, _, hmem, rfl, Nat.le_add_right _ _, Nat.le_refl _⟩
  · exact .inl ⟨_, hmem, Nat.le_refl _, Nat.lt_add_of_pos_right (by decide)⟩

/-- A trim for growth leaves everything else as it was. -/
theorem Inv.watch_growth (h : s.Inv limits)
    (hdue : growthTrimIsDue reading.rssMb s.trimBaselineMb growthMb
      (s.lastTrim.bind (elapsed (s.now t))) = true) :
    { s.trim t reading false with
      trimBaselineMb := min (after t reading).rssMb (after t reading).rssMb
      underflowed :=
        s.underflowed || (checkedSub reading.rssMb s.trimBaselineMb).isNone }.Inv limits := by
  obtain ⟨hdue, hle⟩ := due_of_growthTrimIsDue h.baseline hdue
  have htrimmed : (s.trim t reading false).Inv limits := h.trim false hdue
  refine { htrimmed with
    baseline := Nat.le_trans (Nat.min_le_left _ _) (after t reading).rssMb_le
    underflowed := ?_ }
  rw [h.underflowed, checkedSub, if_pos hle]
  rfl

/-- The watchdog keeps the invariant, whatever it decides. -/
theorem Inv.watch (h : s.Inv limits) (hstopped : s.stopped = false) :
    (s.watch limits growthMb t reading).Inv limits ∧
      (s.watch limits growthMb t reading).stopped = false := by
  unfold State.watch trimFirst
  obtain ⟨⟨e, hsince, he⟩, htick⟩ | htick | ⟨hdue, htick⟩ := watchdogTick_cases reading
    (after t reading) limits (s.lastUnload.bind (elapsed (s.now t)))
    (s.lastTrim.bind (elapsed (s.now t))) s.retiring
  all_goals
    have htick : s.tick limits t reading = _ := htick
    rw [htick]
    simp only
  · -- a trim for growth would be due later than the one that is not
    have hgrowth : ¬growthTrimIsDue reading.rssMb s.trimBaselineMb growthMb
        (s.lastTrim.bind (elapsed (s.now t))) = true := fun hdue ↦
      Nat.lt_irrefl _ (Nat.lt_of_lt_of_le he ((due_of_growthTrimIsDue h.baseline hdue).1 e hsince))
    rw [if_neg hgrowth]
    exact ⟨h.watch_recent hstopped hsince he, (stopped_act ..).trans hstopped⟩
  · by_cases hgrowth : growthTrimIsDue reading.rssMb s.trimBaselineMb growthMb
        (s.lastTrim.bind (elapsed (s.now t))) = true
    · rw [if_pos hgrowth]
      exact ⟨h.watch_growth hgrowth, hstopped⟩
    · rw [if_neg hgrowth]
      exact ⟨h.wait (s.clock_le_now t) (Nat.le_trans (Nat.min_le_left _ _) h.baseline), hstopped⟩
  · exact ⟨h.watch_trimmed hstopped hdue, (stopped_act ..).trans hstopped⟩

theorem Inv.replace (h : s.Inv limits) (hstopped : s.stopped = false) :
    (s.replace t).Inv limits := by
  unfold State.replace
  split_ifs with hreplaced
  · refine h.retire hstopped ?_ none nofun
    simpa using (Bool.and_eq_true_iff.1 hreplaced).1
  · exact h

/-- **Every turn keeps the invariant.** -/
theorem Inv.step (h : s.Inv limits) {e : Event} {s' : State}
    (hstep : s.step limits growthMb e = some s') : s'.Inv limits := by
  cases e with
  | turn t =>
    obtain ⟨hstopped, heq⟩ := Option.ite_none_left_eq_some.1 hstep
    rw [Bool.not_eq_true] at hstopped
    obtain rfl := Option.some.inj heq
    unfold State.turn
    split
    next reading _ =>
      obtain ⟨hinv, hgoes⟩ : (s.watch limits growthMb t reading).Inv limits ∧ _ := h.watch hstopped
      exact hinv.replace hgoes
    next => exact (h.wait (Nat.le_add_right _ _) h.baseline).replace hstopped
  | stop =>
    obtain ⟨hstopped, heq⟩ := Option.ite_none_left_eq_some.1 hstep
    rw [Bool.not_eq_true] at hstopped
    obtain rfl := Option.some.inj heq
    refine { h with retired := ⟨h.retired.1, ?_⟩, serving := fun hr ↦ ⟨(h.serving hr).1, nofun⟩ }
    rcases hretiring : s.retiring with - | -
    · have := (h.serving hretiring).2 hstopped
      show s.unlinked + 1 ≤ 1
      omega
    · exact h.retired.2

end State

/-- Nothing has been trimmed or unloaded yet. -/
theorem inv_start (limits : WatchdogLimits) (growthMb : ℕ) (startup : Option MemoryReading) :
    (machine limits growthMb startup).start.Inv limits where
  retired := ⟨Nat.zero_le _, Nat.zero_le _⟩
  serving _ := ⟨rfl, fun _ ↦ rfl⟩
  baseline := by
    rcases startup with - | reading
    · exact Nat.zero_le _
    · exact reading.rssMb_le
  underflowed := rfl
  lastTrim := nofun
  trims := nofun
  trimsApart := List.Pairwise.nil
  lastUnload := nofun
  unloads := nofun
  unloadsApart := List.Pairwise.nil
  decided := nofun
  retiredOn := nofun

/-- **The watchdog over whole runs.** -/
theorem watchdog_runs {limits : WatchdogLimits} {growthMb : ℕ} {startup : Option MemoryReading}
    {s : State} (h : (machine limits growthMb startup).Reachable Any s) :
    (s.retired.length ≤ 1 ∧ s.unlinked ≤ 1) ∧
      (s.unloads.Pairwise fun u v ↦ v.retires = false → u.ended + limits.cooldown ≤ v.started) ∧
      (s.trims.Pairwise fun a b ↦ b.settles = true → a.ended + 60 * second ≤ b.started) ∧
      (∀ u ∈ s.unloads, u.Decided s.trims) ∧
      (∀ readAt, some readAt ∈ s.retired → ∃ u ∈ s.unloads, u.retires = true ∧ u.readAt = readAt) ∧
      s.underflowed = false := by
  have hinv : s.Inv limits := h.invariant (inv_start limits growthMb startup)
    fun _ _ _ _ hstep ih ↦ ih.step hstep
  exact ⟨hinv.retired, hinv.unloadsApart, hinv.trimsApart, hinv.decided, hinv.retiredOn,
    hinv.underflowed⟩

/-- The limits when the environment sets none. -/
def defaultLimits : WatchdogLimits where
  softMb := 24576
  hardMb := 28672
  minAvailableMb := 6144
  cooldown := 300 * second

/-- A quiet turn, which takes no time. -/
def idleTurn : Turn where
  waited := 15 * second
  reading := none
  lag := 0
  trimming := 0
  after := none
  unloading := 0
  replaced := false

/-- Memory over the soft limit, with room on the machine. -/
def overSoft : MemoryReading where
  rssMb := 25000
  availableMb := some 40000
  rssMb_le := by decide

/-- A trim does not help, and the analyses are unloaded. -/
theorem watchdog_runs_unload : ∃ s,
    (machine defaultLimits 2048 none).Reachable Any s ∧ s.unloads.length = 1 ∧
      ∀ u ∈ s.unloads, u.Decided s.trims := by
  have hrun : (((machine defaultLimits 2048 none).run (machine defaultLimits 2048 none).start
      [.turn { idleTurn with
        reading := some overSoft, trimming := second, after := some overSoft }]).any
        fun s ↦ decide (s.unloads.length = 1)) = true := by
    decide
  obtain ⟨s, hs, h⟩ := (Option.any_eq_true ..).1 hrun
  have hreach := reachable_of_run hs
  exact ⟨s, hreach, of_decide_eq_true h, (watchdog_runs hreach).2.2.2.1⟩

/-- **Not everything is decided on a reading after a trim.** Another binary retires the daemon
without any trim; and when nothing can be read after a trim, the reading from before it makes the
daemon unload. -/
theorem unread_decisions :
    (∃ s, (machine defaultLimits 2048 none).Reachable Any s ∧ s.retired = [none] ∧
      s.trims.length = 0) ∧
    ∃ s, (machine defaultLimits 2048 none).Reachable Any s ∧ s.unloads.length = 1 ∧
      ∀ u ∈ s.unloads, ∀ a ∈ s.trims, u.readAt < a.ended := by
  constructor
  · have hrun : (((machine defaultLimits 2048 none).run (machine defaultLimits 2048 none).start
        [.turn { idleTurn with replaced := true }]).any
          fun s ↦ decide (s.retired = [none] ∧ s.trims.length = 0)) = true := by
      decide
    obtain ⟨s, hs, h⟩ := (Option.any_eq_true ..).1 hrun
    exact ⟨s, reachable_of_run hs, of_decide_eq_true h⟩
  · have hrun : (((machine defaultLimits 2048 none).run (machine defaultLimits 2048 none).start
        [.turn { idleTurn with reading := some overSoft, trimming := second }]).any
          fun s ↦ decide (s.unloads.length = 1 ∧
            ∀ u ∈ s.unloads, ∀ a ∈ s.trims, u.readAt < a.ended)) = true := by
      decide
    obtain ⟨s, hs, h⟩ := (Option.any_eq_true ..).1 hrun
    exact ⟨s, reachable_of_run hs, of_decide_eq_true h⟩

end RustCodeMcp.Watchdog
