import RustCodeMcp.Server.WorkspaceLocks

/-!
# What the workspace locks exclude

The tasks make up a table of fair locks, and every step of a task is one of the table's: it joins a
queue, leaves one with or without the lock, or lets go of something. So the table is sound in every
reachable state, which is the exclusion, and as each constructor asks for its locks in the order of
the ranks, a task that waits never waits for tasks that all wait.

Exclusion is read off the table. Who has a guard holds its locks (`locks_subset`), two guards of one
workspace have a lock in common, and where the modes are not compatible one of them cannot be held.
That is all, since the workspace of a guard is the slot in which it was looked up, and a slot is of
one workspace (`Inv.slot_eq`).

Progress is freedom from deadlock as the library has it, for these ranks: global, registry, and then
the locks of a workspace in the order in which every constructor takes them.
-/

namespace RustCodeMcp.WorkspaceLocks

open Locks Machine

variable {K : Type}

/-- The order in which the locks are taken. -/
def Lock.rank : Lock → ℕ
  | global => 0
  | registry => 1
  | graphCache _ => 2
  | maintenance _ => 3
  | operation _ => 4

/-! ### What a stage holds and asks for -/

/-- The workspace of a guard, if it is of one. -/
def Guard.place : Guard K → Option (Place K)
  | read p | graphCacheWriter p | graphCacheReadingIndex p | indexWriter p | storeWriter p
  | maintenance p => some p
  | all => none

namespace Stage

variable {a a' : Stage K} {l : Lock} {m : Mode}

/-- The workspace a task is at, once it has looked it up. -/
def place : Stage K → Option (Place K)
  | hasSlot _ p | waitsFirst _ p | hasMaintenance p | waitsOperation p | waitsIndexRead p
  | waitsPublish p | publishing p => some p
  | holds guard => guard.place
  | _ => none

/-- A task asks for a lock of a higher rank than those it has. -/
theorem rank_lt_of_wants {x y : Lock × Mode} (hx : a.wants = some x) (hy : y ∈ a.held) :
    y.1.rank < x.1.rank := by
  cases a with
  | waitsFirst kind p =>
    obtain rfl := Option.some.inj hx
    obtain rfl := List.mem_singleton.1 hy
    cases kind <;> simp [Kind.first, Lock.rank]
  | waitsGlobal kind key | waitsAll => cases hy
  | waitsRegistry kind key | waitsOperation p | waitsIndexRead p | waitsPublish p =>
    obtain rfl := Option.some.inj hx
    simp only [held, Guard.locks, List.mem_cons, List.not_mem_nil, or_false] at hy
    rcases hy with rfl | rfl <;> simp [Lock.rank]
  | _ => cases hx

/-- What is granted is what was asked for. -/
theorem granted_spec (h : a.granted = some a') (hwants : a.wants = some (l, m)) :
    a'.wants = none ∧ a'.held ⊆ (l, m) :: a.held ∧ a'.place = a.place := by
  cases a with
  | waitsFirst kind p =>
    obtain ⟨rfl, rfl⟩ := Prod.mk.inj (Option.some.inj hwants)
    cases kind <;> obtain rfl := Option.some.inj h <;>
      refine ⟨rfl, ?_, rfl⟩ <;> simp [held, Guard.locks]
  | waitsGlobal kind key | waitsRegistry kind key | waitsOperation p | waitsIndexRead p
  | waitsPublish p | waitsAll =>
    obtain ⟨rfl, rfl⟩ := Prod.mk.inj (Option.some.inj hwants)
    obtain rfl := Option.some.inj h
    refine ⟨rfl, ?_, rfl⟩
    simp [held, Guard.locks]
  | _ => cases h

/-- A task that goes on without waiting asks for nothing and holds no more. -/
theorem next_spec (h : a.next = some a') :
    a.wants = none ∧ a'.held ⊆ a.held ∧ a'.place = a.place := by
  cases a with
  | hasGlobal kind key | hasSlot kind p | hasMaintenance p =>
    obtain rfl := Option.some.inj h
    exact ⟨rfl, List.Subset.refl _, rfl⟩
  | _ => cases h

end Stage

/-! ### Every step is one of the table's -/

namespace State

variable [DecidableEq K] {s s' : State K} {e : Event K} {t : ℕ} {a a' : Stage K}
    {l : Lock} {m : Mode}

/-- The steps, by what they do to the locks. -/
inductive Stepped (s : State K) : Event K → State K → Prop
  | spawn : Stepped s .spawn { s with tasks := s.tasks ++ [.idle] }
  | lookUp {t : ℕ} {kind : Kind} {key : K} (ha : s.tasks[t]? = some (.inRegistry kind key)) :
    Stepped s (.lookUp t) { s.put t (.hasSlot kind ⟨key, (slotFor s.slots key).2⟩) with
      slots := (slotFor s.slots key).1 }
  | put {e : Event K} {t : ℕ} {a a' : Stage K} (ha : s.tasks[t]? = some a) (hwants : a.wants = none)
      (hwants' : a'.wants = none) (hheld : a'.held ⊆ a.held)
      (hplace : a'.place = a.place ∨ a'.place = none) : Stepped s e (s.put t a')
  | join {e : Event K} {t : ℕ} {a a' : Stage K} {l : Lock} {m : Mode} (ha : s.tasks[t]? = some a)
      (hwants : a.wants = none) (hwants' : a'.wants = some (l, m)) (hheld : a'.held ⊆ a.held)
      (hplace : a'.place = a.place ∨ a'.place = none) : Stepped s e (s.join t a' l)
  | grant {t : ℕ} {a a' : Stage K} {l : Lock} {m : Mode} (ha : s.tasks[t]? = some a)
      (hwants : a.wants = some (l, m)) (hfree : s.table.free l m = true)
      (hgranted : a.granted = some a') : Stepped s (.grant t) (s.leave t a' l)
  | cancel {t : ℕ} {a a' : Stage K} {l : Lock} {m : Mode} (ha : s.tasks[t]? = some a)
      (hwants : a.wants = some (l, m)) (hwants' : a'.wants = none) (hheld : a'.held ⊆ a.held)
      (hplace : a'.place = none) : Stepped s (.cancel t) (s.leave t a' l)

omit [DecidableEq K] in
/-- What is left of the locks a task lets go of. -/
theorem drop_spec (rest : List (Lock × Mode)) :
    (if rest.isEmpty then Stage.idle else .dropping rest : Stage K).wants = none ∧
      (if rest.isEmpty then Stage.idle else .dropping rest : Stage K).held = rest ∧
      (if rest.isEmpty then Stage.idle else .dropping rest : Stage K).place = none := by
  cases rest <;> exact ⟨rfl, rfl, rfl⟩

/-- **A step is one of these.** -/
theorem stepped_of_step (h : s.step e = some s') : s.Stepped e s' := by
  cases e with
  | spawn =>
    obtain rfl := Option.some.inj h
    exact Stepped.spawn
  | lock t kind key =>
    simp only [step] at h
    split at h
    next ha =>
      obtain rfl := Option.some.inj h
      exact Stepped.join ha rfl (m := .shared) rfl (List.Subset.refl _) (.inl rfl)
    next => cases h
  | lockAll t =>
    simp only [step] at h
    split at h
    next ha =>
      obtain rfl := Option.some.inj h
      exact Stepped.join ha rfl (m := .exclusive) rfl (List.Subset.refl _) (.inl rfl)
    next => cases h
  | next t =>
    obtain ⟨a, ha, h⟩ := Option.bind_eq_some_iff.1 h
    obtain ⟨a', hnext, h⟩ := Option.bind_eq_some_iff.1 h
    obtain ⟨⟨l, m⟩, hwants, rfl⟩ := Option.map_eq_some_iff.1 h
    -- The next lock in the order is asked for while those before it are kept.
    obtain ⟨hnone, hheld, hplace⟩ := Stage.next_spec hnext
    exact Stepped.join ha hnone hwants hheld (.inl hplace)
  | lookUp t =>
    simp only [step] at h
    split at h
    next kind key ha =>
      obtain rfl := Option.some.inj h
      exact Stepped.lookUp ha
    next => cases h
  | grant t =>
    obtain ⟨a, ha, h⟩ := Option.bind_eq_some_iff.1 h
    obtain ⟨⟨l, m⟩, hwants, h⟩ := Option.bind_eq_some_iff.1 h
    dsimp only at h
    split_ifs at h with hgrantable
    obtain ⟨a', hgranted, rfl⟩ := Option.map_eq_some_iff.1 h
    -- Both tests of the queue passed: its turn, and no holder in the way.
    exact Stepped.grant ha hwants (Bool.and_eq_true_iff.1 hgrantable).2 hgranted
  | readIndex t =>
    simp only [step] at h
    split at h
    next p ha =>
      obtain rfl := Option.some.inj h
      exact Stepped.join ha rfl (m := .shared) rfl (List.Subset.refl _) (.inl rfl)
    next => cases h
  | publish t =>
    simp only [step] at h
    split at h
    next p ha =>
      obtain rfl := Option.some.inj h
      exact Stepped.join ha rfl (m := .exclusive) rfl (List.Subset.refl _) (.inl rfl)
    next => cases h
  | published t =>
    simp only [step] at h
    split at h
    next p ha =>
      obtain rfl := Option.some.inj h
      exact Stepped.put ha rfl rfl (List.subset_cons_self _ _) (.inl rfl)
    next => cases h
  -- A shared lock is given up for an exclusive one, never upgraded in place.
  | intoMaintenance t =>
    simp only [step] at h
    split at h
    next p ha =>
      obtain rfl := Option.some.inj h
      refine Stepped.put ha rfl rfl ?_ (.inl rfl)
      simp [Stage.held, Guard.locks]
    next p ha =>
      obtain rfl := Option.some.inj h
      exact Stepped.put ha rfl rfl (List.Subset.refl _) (.inl rfl)
    next => cases h
  | release t =>
    simp only [step] at h
    split at h
    next guard ha =>
      obtain rfl := Option.some.inj h
      exact Stepped.put ha rfl rfl (List.Subset.refl _) (.inr rfl)
    next => cases h
  | drop t =>
    simp only [step] at h
    split at h
    next x rest ha =>
      obtain rfl := Option.some.inj h
      obtain ⟨hwants, hheld, hplace⟩ := drop_spec (K := K) rest
      exact Stepped.put ha rfl hwants (by rw [hheld]; exact List.subset_cons_self _ _) (.inr hplace)
    next => cases h
  -- The waiter leaves its queue, and what it held is dropped one by one.
  | cancel t =>
    obtain ⟨a, ha, h⟩ := Option.bind_eq_some_iff.1 h
    obtain ⟨⟨l, m⟩, hwants, rfl⟩ := Option.map_eq_some_iff.1 h
    obtain ⟨hnone, hheld, hplace⟩ := drop_spec (K := K) a.held
    exact Stepped.cancel ha hwants hnone (by rw [hheld]; exact List.Subset.refl _) hplace

/-! ### The invariant -/

/-- The locks are in order, and every task is at a workspace the registry has. -/
structure Inv (s : State K) : Prop where
  sound : s.table.Sound
  nodup : s.slots.Nodup
  placed : ∀ (t : ℕ) (a : Stage K) (p : Place K), s.tasks[t]? = some a → a.place = some p →
    s.slots[p.slot]? = some p.workspace

omit [DecidableEq K] in
theorem party_of_task (ha : s.tasks[t]? = some a) : s.table.parties[t]? = some a.party := by
  rw [table, List.getElem?_map, ha]
  rfl

omit [DecidableEq K] in
theorem task_of_party {b : Party Lock} (hb : s.table.parties[t]? = some b) :
    ∃ a, s.tasks[t]? = some a ∧ a.party = b := by
  rw [table, List.getElem?_map] at hb
  exact Option.map_eq_some_iff.1 hb

theorem slotFor_spec (slots : List K) (key : K) (h : slots.Nodup) :
    (slotFor slots key).1[(slotFor slots key).2]? = some key ∧ (slotFor slots key).1.Nodup ∧
      ∀ (i : ℕ) k, slots[i]? = some k → (slotFor slots key).1[i]? = some k := by
  unfold slotFor
  split_ifs with hmem
  · refine ⟨?_, h, fun i k hk ↦ hk⟩
    rw [List.getElem?_eq_getElem (List.idxOf_lt_length_iff.2 hmem), List.getElem_idxOf]
  · refine ⟨List.getElem?_concat_length, ?_, fun i k hk ↦ Pool.getElem?_concat key hk⟩
    exact h.append (List.nodup_singleton key) (by simpa using hmem)

omit [DecidableEq K] in
/-- Where the tasks are does not change with their locks. -/
theorem placed_set (h : s.Inv) (ha : s.tasks[t]? = some a)
    (hplace : a'.place = a.place ∨ a'.place = none) (u : ℕ) (b : Stage K) (p : Place K)
    (hb : (s.tasks.set t a')[u]? = some b) (hp : b.place = some p) :
    s.slots[p.slot]? = some p.workspace := by
  rcases Pool.getElem?_set_cases hb with ⟨-, rfl⟩ | ⟨-, hold⟩
  · rcases hplace with heq | hnone
    · exact h.placed t a p ha (heq.symm.trans hp)
    · rw [hnone] at hp
      cases hp
  · exact h.placed u b p hold hp

/-- **Every step keeps the locks in order.** -/
theorem Inv.step (h : s.Inv) (hstep : s.Stepped e s') : s'.Inv := by
  have htable : ∀ {t : ℕ} {a' : Stage K}, (s.tasks.set t a').map Stage.party =
      s.table.parties.set t a'.party := List.map_set
  cases hstep with
  | spawn =>
    refine ⟨?_, h.nodup, fun t a p ha hp ↦ ?_⟩
    · have hjoin := h.sound.join
      rwa [show s.table.parties ++ [(⟨[], none⟩ : Party Lock)] =
        (s.tasks ++ [Stage.idle]).map Stage.party from by rw [List.map_append]; rfl] at hjoin
    · rcases Pool.getElem?_concat_cases ha with hold | rfl
      · exact h.placed t a p hold hp
      · cases hp
  | @lookUp t kind key ha =>
    obtain ⟨hslot, hnodup, hkept⟩ := slotFor_spec s.slots key h.nodup
    refine ⟨?_, hnodup, fun u b p hb hp ↦ ?_⟩
    · have hshrink := h.sound.shrink (party_of_task ha) rfl
        (rfl : (Stage.hasSlot kind ⟨key, (slotFor s.slots key).2⟩ : Stage K).party.wants = none)
        (List.subset_cons_self _ _)
      rwa [← htable] at hshrink
    · rcases Pool.getElem?_set_cases hb with ⟨-, rfl⟩ | ⟨-, hold⟩
      · obtain rfl := Option.some.inj hp
        exact hslot
      · exact hkept _ _ (h.placed u b p hold hp)
  | @put e t a a' ha hwants hwants' hheld hplace =>
    refine ⟨?_, h.nodup, fun u b p hb hp ↦ placed_set h ha hplace u b p hb hp⟩
    have hshrink := h.sound.shrink (party_of_task ha) hwants
      (show a'.party.wants = none from hwants') hheld
    rwa [← htable] at hshrink
  | @join e t a a' l m ha hwants hwants' hheld hplace =>
    refine ⟨?_, h.nodup, fun u b p hb hp ↦ placed_set h ha hplace u b p hb hp⟩
    have hask := h.sound.ask (party_of_task ha) hwants
      (show a'.party.wants = some (l, m) from hwants') hheld
    rwa [← htable] at hask
  | @grant t a a' l m ha hwants hfree hgranted =>
    obtain ⟨hwants', hheld, hplace⟩ := Stage.granted_spec hgranted hwants
    refine ⟨?_, h.nodup, fun u b p hb hp ↦ placed_set h ha (.inl hplace) u b p hb hp⟩
    have hgrant := h.sound.grant (party_of_task ha) hwants hfree
      (show a'.party.wants = none from hwants') hheld
    rwa [← htable] at hgrant
  | @cancel t a a' l m ha hwants hwants' hheld hplace =>
    refine ⟨?_, h.nodup, fun u b p hb hp ↦ placed_set h ha (.inr hplace) u b p hb hp⟩
    have hcancel := h.sound.cancel (party_of_task ha) hwants
      (show a'.party.wants = none from hwants') hheld
    rwa [← htable] at hcancel

theorem inv_of_reachable (h : (machine K).Reachable Any s) : s.Inv := by
  refine h.invariant ⟨⟨?_, ?_, fun _ ↦ List.nodup_nil, ?_⟩, List.nodup_nil, ?_⟩
    fun s e s' _ hstep hinv ↦ hinv.step (stepped_of_step hstep)
  · exact fun _ _ _ _ ha ↦ (nomatch ha)
  · exact fun _ _ ht ↦ (nomatch ht)
  · exact fun _ _ _ _ _ _ _ _ ha ↦ (nomatch ha)
  · exact fun _ _ _ ha ↦ (nomatch ha)

end State

/-! ### Exclusion -/

/-- The workspace whose stores a guard serves the writers of. -/
def Guard.writes : Guard K → Option (Place K)
  | indexWriter p | storeWriter p | maintenance p => some p
  | _ => none

/-- The workspace whose index a guard reads. -/
def Guard.reads : Guard K → Option (Place K)
  | read p | graphCacheReadingIndex p => some p
  | _ => none

/-- The workspace whose readers a task keeps out: an index writer's, or a publish window's. -/
def Stage.keepsOut : Stage K → Option (Place K)
  | holds (.indexWriter p) | publishing p => some p
  | _ => none

namespace Stage

variable {a : Stage K} {g : Guard K} {p : Place K}

/-- A task with a guard has the guard's locks. -/
theorem locks_subset (h : a.guard = some g) : g.locks ⊆ a.held := by
  cases a with
  | holds guard | waitsIndexRead p | waitsPublish p =>
    obtain rfl := Option.some.inj h
    exact List.Subset.refl _
  | publishing p =>
    obtain rfl := Option.some.inj h
    exact List.subset_cons_self _ _
  | _ => cases h

theorem maintenance_mem (h : a.guard = some g) (hw : g.writes = some p) :
    (.maintenance p.slot, .exclusive) ∈ a.held := by
  refine locks_subset h ?_
  cases g <;> cases hw <;> simp [Guard.locks]

theorem operation_mem (h : a.guard = some g) (hr : g.reads = some p) :
    (.operation p.slot, .shared) ∈ a.held := by
  refine locks_subset h ?_
  cases g <;> cases hr <;> simp [Guard.locks]

/-- A task that keeps the readers out has it for itself. -/
theorem operation_mem_of_keepsOut (h : a.keepsOut = some p) :
    (.operation p.slot, .exclusive) ∈ a.held := by
  cases a with
  | holds g =>
    cases g <;> cases h
    simp [held, Guard.locks]
  | publishing q =>
    obtain rfl := Option.some.inj h
    exact List.mem_cons_self
  | _ => cases h

/-- Every guard has the global lock, and the guard of all has it for itself. -/
theorem global_mem (h : a.guard = some g) : ∃ m, (.global, m) ∈ a.held ∧
    (g = .all → m = .exclusive) := by
  cases g with
  | all => exact ⟨.exclusive, locks_subset h (by simp [Guard.locks]), fun _ ↦ rfl⟩
  | _ => exact ⟨.shared, locks_subset h (by simp [Guard.locks]), nofun⟩

theorem place_of_guard (h : a.guard = some g) : a.place = g.place := by
  cases a with
  | holds guard | waitsIndexRead p | waitsPublish p | publishing p =>
    obtain rfl := Option.some.inj h
    rfl
  | _ => cases h

end Stage

namespace State

variable [DecidableEq K] {s s' : State K} {e : Event K} {t : ℕ} {a a' : Stage K}

/-- **What must not be held together is not.** -/
structure Excludes (s : State K) : Prop where
  /-- Of a workspace, one index writer, store writer or maintenance guard. -/
  writers : ∀ (t t' : ℕ) (a a' : Stage K) (g g' : Guard K) (p p' : Place K), s.tasks[t]? = some a →
    s.tasks[t']? = some a' → a.guard = some g → a'.guard = some g' → g.writes = some p →
    g'.writes = some p' → p.workspace = p'.workspace → t = t'
  /-- No reader beside an index writer or a publish window of its workspace. -/
  readers : ∀ (t t' : ℕ) (a a' : Stage K) (g : Guard K) (p p' : Place K), s.tasks[t]? = some a →
    s.tasks[t']? = some a' → a.guard = some g → g.reads = some p → a'.keepsOut = some p' →
    p.workspace ≠ p'.workspace
  /-- `lock_all` alone. -/
  all : ∀ (t t' : ℕ) (a a' : Stage K) (g : Guard K), s.tasks[t]? = some a → s.tasks[t']? = some a' →
    a.guard = some .all → a'.guard = some g → t = t'

omit [DecidableEq K] in
/-- One workspace, one slot. -/
theorem Inv.slot_eq (h : s.Inv) {t' : ℕ} {p p' : Place K} (ha : s.tasks[t]? = some a)
    (ha' : s.tasks[t']? = some a') (hp : a.place = some p) (hp' : a'.place = some p')
    (heq : p.workspace = p'.workspace) : p.slot = p'.slot := by
  have hslot := h.placed t a p ha hp
  have hslot' := h.placed t' a' p' ha' hp'
  rw [heq, ← hslot'] at hslot
  have hlt := (List.getElem?_eq_some_iff.1 hslot').1
  exact ((List.getElem?_inj hlt h.nodup).1 hslot.symm).symm

omit [DecidableEq K] in
theorem Inv.apart (h : s.Inv) {t' : ℕ} {l : Lock} {m : Mode} (hne : t ≠ t')
    (ha : s.tasks[t]? = some a) (ha' : s.tasks[t']? = some a') (hl : (l, .exclusive) ∈ a.held)
    (hl' : (l, m) ∈ a'.held) : False := by
  have hcompatible := h.sound.apart t t' _ _ l .exclusive m hne (party_of_task ha)
    (party_of_task ha') hl hl'
  cases m <;> cases hcompatible

omit [DecidableEq K] in
/-- **A state in order excludes what must be excluded.** -/
theorem Inv.excludes (h : s.Inv) : s.Excludes where
  writers t t' a a' g g' p p' ha ha' hg hg' hp hp' heq := by
    by_contra hne
    have hslot : p.slot = p'.slot := by
      refine h.slot_eq ha ha' ?_ ?_ heq
      · rw [Stage.place_of_guard hg]
        cases g <;> cases hp <;> rfl
      · rw [Stage.place_of_guard hg']
        cases g' <;> cases hp' <;> rfl
    exact h.apart hne ha ha' (Stage.maintenance_mem hg hp) (hslot ▸ Stage.maintenance_mem hg' hp')
  readers t t' a a' g p p' ha ha' hg hp hp' heq := by
    have hslot : p.slot = p'.slot := by
      refine h.slot_eq ha ha' ?_ ?_ heq
      · rw [Stage.place_of_guard hg]
        cases g <;> cases hp <;> rfl
      · cases a' with
        | holds g' =>
          cases g' <;> cases hp'
          rfl
        | publishing q => exact hp'
        | _ => cases hp'
    have hne : t' ≠ t := by
      rintro rfl
      obtain rfl := Option.some.inj (ha.symm.trans ha')
      cases a with
      | holds g' =>
        obtain rfl := Option.some.inj hg
        cases g' <;> cases hp <;> cases hp'
      | publishing q =>
        obtain rfl := Option.some.inj hg
        cases hp
      | _ => cases hp'
    exact h.apart hne ha' ha (Stage.operation_mem_of_keepsOut hp')
      (hslot ▸ Stage.operation_mem hg hp)
  all t t' a a' g ha ha' hg hg' := by
    by_contra hne
    obtain ⟨m, hl, hall⟩ := Stage.global_mem hg
    obtain ⟨m', hl', -⟩ := Stage.global_mem hg'
    rw [hall rfl] at hl
    exact h.apart hne ha ha' hl hl'

/-! ### Progress -/

/-- A waiting task gets what it waits for, or one that holds a lock and waits for nothing goes on:
to its next lock, out of the registry, or letting go. -/
def Progress (s : State K) : Prop :=
  ∃ (t : ℕ) (a : Stage K) (e : Event K) (s' : State K), s.tasks[t]? = some a ∧ s.step e = some s' ∧
    (a.wants ≠ none ∧ e = .grant t ∨ a.wants = none ∧ a.held ≠ [] ∧
      (e = .next t ∨ e = .lookUp t ∨ e = .published t ∨ e = .release t ∨ e = .drop t))

/-- Who holds a lock and waits for nothing can go on. -/
theorem progress_of_held (ha : s.tasks[t]? = some a) (hwants : a.wants = none)
    (hheld : a.held ≠ []) : s.Progress := by
  have hgo : ∀ e, (s.step e).isSome = true → (e = .next t ∨ e = .lookUp t ∨ e = .published t ∨
      e = .release t ∨ e = .drop t) → s.Progress := by
    intro e hstep he
    obtain ⟨s', hs'⟩ := Option.isSome_iff_exists.1 hstep
    exact ⟨t, a, e, s', ha, hs', .inr ⟨hwants, hheld, he⟩⟩
  cases a with
  | hasGlobal kind key | hasSlot kind p | hasMaintenance p =>
    exact hgo (.next t) (by rw [step, ha]; rfl) (.inl rfl)
  | inRegistry kind key => exact hgo (.lookUp t) (by rw [step, ha]; rfl) (.inr (.inl rfl))
  | publishing p => exact hgo (.published t) (by rw [step, ha]; rfl) (.inr (.inr (.inl rfl)))
  | holds g => exact hgo (.release t) (by rw [step, ha]; rfl) (.inr (.inr (.inr (.inl rfl))))
  | dropping rest =>
    obtain ⟨x, rest, rfl⟩ := List.exists_cons_of_ne_nil hheld
    exact hgo (.drop t) (by rw [step, ha]; rfl) (.inr (.inr (.inr (.inr rfl))))
  | idle => exact absurd rfl hheld
  | _ => cases hwants

omit [DecidableEq K] in
theorem exists_granted {l : Lock} {m : Mode} (h : a.wants = some (l, m)) :
    ∃ a', a.granted = some a' := by
  cases a with
  | waitsFirst kind p => cases kind <;> exact ⟨_, rfl⟩
  | waitsGlobal kind key | waitsRegistry kind key | waitsOperation p | waitsIndexRead p
  | waitsPublish p | waitsAll => exact ⟨_, rfl⟩
  | _ => cases h

/-- **Somebody can go on**, if anybody waits. -/
theorem Inv.progress (h : s.Inv) (ha : s.tasks[t]? = some a) (hwants : a.wants ≠ none) :
    s.Progress := by
  obtain ⟨⟨l, m⟩, hlm⟩ := Option.ne_none_iff_exists'.1 hwants
  have hranked : s.table.Ranked Lock.rank := by
    intro t b l m hb hw x hx
    obtain ⟨a, -, rfl⟩ := task_of_party hb
    exact Stage.rank_lt_of_wants hw hx
  obtain ⟨u, b, hb, hmovable⟩ := h.sound.exists_movable hranked (party_of_task ha) hlm
  obtain ⟨c, hc, rfl⟩ := task_of_party hb
  rcases hmovable with ⟨k, m', hw, hgrantable⟩ | ⟨hnone, hheld⟩
  · obtain ⟨c', hgranted⟩ := exists_granted hw
    refine ⟨u, c, .grant u, s.leave u c' k, hc, ?_, .inl ⟨?_, rfl⟩⟩
    · show (s.tasks[u]?.bind fun a ↦ a.wants.bind fun x ↦ if s.table.grantable u x.1 x.2
        then a.granted.map fun a' ↦ s.leave u a' x.1 else none) = _
      rw [hc, Option.bind_some, show c.wants = some (k, m') from hw, Option.bind_some,
        if_pos hgrantable, hgranted]
      rfl
    · rw [show c.wants = some (k, m') from hw]
      exact Option.some_ne_none _
  · exact progress_of_held hc hnone hheld

/-- **Exclusion and progress.** In every reachable state no guards are held together that must not
be, and if some task waits, some task can make a step: one that waits and is granted its lock, or
one that holds a lock and waits for nothing. -/
theorem excludes_of_reachable (h : (machine K).Reachable Any s) :
    s.Excludes ∧ ∀ (t : ℕ) (a : Stage K), s.tasks[t]? = some a → a.wants ≠ none → s.Progress := by
  have hinv := inv_of_reachable h
  exact ⟨hinv.excludes, fun t a ha hwants ↦ hinv.progress ha hwants⟩

/-- A sync publishes while a search waits to read, and somebody can go on. -/
theorem excludes_of_reachable_publishing :
    ∃ s : State ℕ, (machine ℕ).Reachable Any s ∧ s.Excludes ∧ s.Progress ∧
      s.tasks[0]? = some (.publishing ⟨7, 0⟩) ∧
      s.tasks[1]? = some (.waitsFirst .shared ⟨7, 0⟩) := by
  have hreachable := reachable_get (by decide : ((machine ℕ).run (machine ℕ).start [.spawn, .spawn,
    .lock 0 .store 7, .grant 0, .next 0, .grant 0, .lookUp 0, .next 0, .grant 0,
      .lock 1 .shared 7, .grant 1,
    .next 1, .grant 1, .lookUp 1, .publish 0, .grant 0, .next 1]).isSome = true)
  have hboth := excludes_of_reachable hreachable
  exact ⟨_, hreachable, hboth.1, hboth.2 1 (.waitsFirst .shared ⟨7, 0⟩) rfl nofun, rfl, rfl⟩

end State

end RustCodeMcp.WorkspaceLocks
