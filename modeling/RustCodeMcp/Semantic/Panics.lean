import Mathlib.Data.Finset.Erase
import Mathlib.Data.Finset.Insert
import RustCodeMcp.Semantic.OneContext

/-!
# Panics in the service of semantic queries

A panic unwinds through the guard of its slot, which poisons the lock, and past the mark that spoils
the slot. The call then looks for spoiled and poisoned slots and takes them out of the registry.
When it finds none it takes out everything, and that happens to the second of two calls on one
project, as the first has taken their slot away.

No slot that a panic unwound through stays in the registry, and a project on which no call panicked
keeps its context exactly as long as no clean-up finds nothing (`unloadAfterPanic_iff`). What a
clean-up reports is left out.

A clean-up works on what it saw when it looked: slots spoiled by a panic, and slots whose lock is
poisoned. It goes by slots, so it takes exactly the projects registered under them, and there is no
harm in that. **The harm is in the fallback**: a clean-up that finds nothing takes all projects, and
it finds nothing when another one has been there before.
-/

namespace RustCodeMcp.SemanticPanics

open Machine SemanticService

/-- Where a call is after its panic. -/
inductive Stage (K : Type)
  /-- Past the guard of its slot, if it held one, and not yet past `SpoilOnPanic`. -/
  | unwinding
  /-- Caught in `with_semantic`. -/
  | caught
  /-- In the loop of `unload_after_panic`: the slots to look at, and `poisoned`. -/
  | scanning (todo found : List (K × ℕ))
  | done
  deriving DecidableEq

/-- A call on its way out after a panic. -/
structure Cleanup (K : Type) where
  key : K
  slot : ℕ
  stage : Stage K
  deriving DecidableEq

/-- The service, with what panics have left. -/
structure State (K : Type) where
  service : Service K
  /-- The slots that `SpoilOnPanic` marked. -/
  spoiled : Finset ℕ
  /-- The slots whose lock is poisoned. -/
  poisoned : Finset ℕ
  /-- One for each call that panicked. -/
  cleanups : List (Cleanup K)

/-- What happens next. -/
inductive Event (K : Type)
  | run (e : Service.Event K)
  /-- The call `t` panics. -/
  | panic (t : ℕ)
  | spoil (c : ℕ)
  /-- `registry.slots()`, in the order in which the map is iterated. -/
  | scan (c : ℕ) (slots : List (K × ℕ))
  /-- The next slot; `blocked` when another `try_lock` has it just then. -/
  | check (c : ℕ) (blocked : Bool)
  | finish (c : ℕ)

/-- In a load, a refresh or a query. -/
def panics : Phase → Bool
  | .holding | .loading | .answering => true
  | _ => false

variable {K : Type} [DecidableEq K]

/-- `Registry::slots` -/
def slots (r : Registry K) : List (K × ℕ) :=
  r.projects.entries.map fun e ↦ (e.1, e.2.slot)

namespace State

variable (s : State K)

/-- `ProjectSlot::lock` on a poisoned slot empties it. -/
def cleared (t : ℕ) : State K :=
  match s.service.calls[t]? with
  | some (.working w _) =>
    if w.slot ∈ s.poisoned then
      { s with
        service := { s.service with
          slots := s.service.slots.modify w.slot fun slot ↦ { slot with context := none } }
        poisoned := s.poisoned.erase w.slot }
    else s
  | _ => s

/-- A clean-up is at its next stage. -/
def advance (c : ℕ) (cleanup : Cleanup K) : State K :=
  { s with cleanups := s.cleanups.set c cleanup }

/-- Whether the loop of `unload_after_panic` takes the slot down. -/
def finds (i : ℕ) (blocked : Bool) : Bool :=
  decide (i ∈ s.spoiled) ||
    !(blocked || (s.service.slots[i]?.bind (·.holder)).isSome) && decide (i ∈ s.poisoned)

/-- The registry is changed by a clean-up. -/
def setRegistry (r : Registry K) : State K :=
  { s with service := { s.service with registry := r } }

/-- One step of a call, or of a clean-up. -/
def step (s : State K) : Event K → Option (State K)
  | .run (.lock t) =>
    ((s.cleared t).service.step (.lock t)).map fun service ↦ { s.cleared t with service }
  | .run e => (s.service.step e).map fun service ↦ { s with service }
  | .panic t =>
    match s.service.calls[t]? with
    | some (.working w phase) =>
      if panics phase then
        s.service.slots[w.slot]?.map fun slot ↦
          { s with
            service := s.service.put t .finished w.slot
              (if phase.holds w.attempt then { slot with holder := none } else slot)
            poisoned := if phase.holds w.attempt then insert w.slot s.poisoned else s.poisoned
            cleanups := s.cleanups ++ [⟨w.key, w.slot, .unwinding⟩] }
      else none
    | _ => none
  | .spoil c =>
    match s.cleanups[c]? with
    | some ⟨key, slot, .unwinding⟩ =>
      some { s.advance c ⟨key, slot, .caught⟩ with spoiled := insert slot s.spoiled }
    | _ => none
  | .scan c order =>
    match s.cleanups[c]? with
    | some ⟨key, slot, .caught⟩ =>
      if order.Perm (slots s.service.registry) then
        some (s.advance c ⟨key, slot, .scanning order []⟩)
      else none
    | _ => none
  | .check c blocked =>
    match s.cleanups[c]? with
    | some ⟨key, slot, .scanning (entry :: todo) found⟩ =>
      some (s.advance c ⟨key, slot,
        .scanning todo (if s.finds entry.2 blocked then found ++ [entry] else found)⟩)
    | _ => none
  | .finish c =>
    match s.cleanups[c]? with
    | some ⟨key, slot, .scanning [] found⟩ =>
      some ((s.advance c ⟨key, slot, .done⟩).setRegistry
        (if found.isEmpty then { s.service.registry with projects := ∅ }
        else found.foldl (fun r entry ↦ r.removeIfSame entry.1 entry.2) s.service.registry))
    | _ => none

end State

/-- The service of a process, from its start. -/
def machine (K : Type) [DecidableEq K] (maxProjects : ℕ) : Machine (State K) (Event K) where
  start := ⟨(SemanticService.machine K maxProjects).start, ∅, ∅, []⟩
  step := State.step

/-! ### What a call does to the registry -/

section Service

variable {s s' : Service K} {e : Service.Event K} {t : ℕ} {w : Work K} {slot : ProjectSlot}
  {p : Phase}

/-- What a call at work does. -/
structure Worked (s : Service K) (e : Service.Event K) (t : ℕ) (w : Work K) (p : Phase)
    (slot : ProjectSlot) (call : SemanticService.Call K) (slot' : ProjectSlot) (r : Registry K) :
    Prop where
  stays : ∀ w' p', call = .working w' p' → w'.key = w.key ∧ w'.slot = w.slot
  context : slot.context.isSome = true → slot'.context.isSome = true ∨ e = .unload t
  registry : r = s.registry ∨
    (p = .brought true ∧ e = .settle t ∧ r = s.registry.use s.slots w.key w.slot) ∨
    (slot.context = none ∧ slot'.context = none ∧ r = s.registry.removeIfSame w.key w.slot)

theorem worked_of_proceed (he : e.call? = some t) (h : s.proceed t w slot p e = some s') :
    ∃ call slot' r, s' = { s.put t call w.slot slot' with registry := r } ∧
      Worked s e t w p slot call slot' r := by
  -- A call that goes on stays at its key and its slot, and the registry as it is.
  have hwork : ∀ {w' : Work K} {p' : Phase} {slot' : ProjectSlot},
      w'.key = w.key ∧ w'.slot = w.slot →
        (slot.context.isSome = true → slot'.context.isSome = true ∨ e = .unload t) →
          Worked s e t w p slot (.working w' p') slot' s.registry := by
    intro w' p' slot' hsame hcontext
    refine ⟨?_, hcontext, .inl rfl⟩
    rintro _ _ ⟨⟩
    exact hsame
  have hdone : ∀ {slot' : ProjectSlot}, slot'.context = slot.context →
      Worked s e t w p slot .finished slot' s.registry := fun hsame ↦
    ⟨nofun, fun hsome ↦ .inl (hsame ▸ hsome), .inl rfl⟩
  unfold Service.proceed at h
  split at h
  next => -- `lock`
    split_ifs at h
    obtain rfl := Option.some.inj h
    exact ⟨_, _, _, rfl, hwork ⟨rfl, rfl⟩ .inl⟩
  next => -- `keep`
    split_ifs at h
    obtain rfl := Option.some.inj h
    exact ⟨_, _, _, rfl, hwork ⟨rfl, rfl⟩ .inl⟩
  next => -- `unload`
    obtain rfl := Option.some.inj he
    obtain rfl := Option.some.inj h
    exact ⟨_, _, _, rfl, hwork ⟨rfl, rfl⟩ fun _ ↦ .inr rfl⟩
  next => -- `load`, in a context
    obtain rfl := Option.some.inj h
    exact ⟨_, _, _, rfl, hwork ⟨rfl, rfl⟩ fun _ ↦ .inl rfl⟩
  next => -- `load`, in an error
    obtain rfl := Option.some.inj h
    exact ⟨_, _, _, rfl, hwork ⟨rfl, rfl⟩ .inl⟩
  next => -- `settle`
    obtain rfl := Option.some.inj he
    obtain rfl := Option.some.inj h
    refine ⟨_, _, _, rfl, ?_, .inl, .inr (.inl ⟨rfl, rfl, rfl⟩)⟩
    rintro _ _ ⟨⟩
    exact ⟨rfl, rfl⟩
  next =>
    obtain rfl := Option.some.inj h
    refine ⟨_, _, _, rfl, ?_, .inl, ?_⟩
    · rintro _ _ ⟨⟩
      exact ⟨rfl, rfl⟩
    -- The slot leaves the registry only when it has no context.
    · rcases hcontext : slot.context with - | kind
      · exact .inr (.inr ⟨rfl, rfl, rfl⟩)
      · exact .inl rfl
  next => -- `snapshot`
    obtain rfl := Option.some.inj h
    refine ⟨_, _, _, rfl, hwork ⟨rfl, rfl⟩ fun hsome ↦ .inl ?_⟩
    split_ifs <;> exact hsome
  next cancelled => -- `answer`
    split_ifs at h
    · obtain rfl := Option.some.inj h
      exact ⟨_, _, _, rfl, hdone rfl⟩
    · obtain rfl := Option.some.inj h
      exact ⟨_, _, _, rfl, hwork ⟨rfl, rfl⟩ .inl⟩
    · obtain rfl := Option.some.inj h
      exact ⟨_, _, _, rfl, hdone rfl⟩
  next => -- `leave`
    obtain rfl := Option.some.inj h
    exact ⟨_, _, _, rfl, hdone rfl⟩
  next => cases h

/-- The steps, case by case. -/
inductive Acted (s : Service K) : Service.Event K → Service K → Prop
  | called (key : K) (requested : LoadKind) :
    Acted s (.call key requested) { s with calls := s.calls ++ [.called key requested] }
  | found {t : ℕ} {key : K} {requested : LoadKind} {entry : SemanticService.Entry}
      (hkey : s.registry.projects.lookup key = some entry) :
    Acted s (.slotFor t) { s with
      registry := { s.registry with clock := s.registry.clock + 1 }
      calls := s.calls.set t (.working ⟨key, requested, entry.slot, 1⟩ .waiting) }
  | made {t : ℕ} {key : K} {requested : LoadKind} {lastUsed : ℕ}
      (hkey : s.registry.projects.lookup key = none) :
    Acted s (.slotFor t) {
      registry := { s.registry with
        clock := lastUsed
        projects := s.registry.projects.insert key { slot := s.slots.length, lastUsed } }
      slots := s.slots ++ [{ context := none, holder := none }]
      calls := s.calls.set t (.working ⟨key, requested, s.slots.length, 1⟩ .waiting) }
  | worked {e : Service.Event K} {t : ℕ} {w : Work K} {p : Phase} {slot slot' : ProjectSlot}
      {call : SemanticService.Call K} {r : Registry K} (hcall : s.calls[t]? = some (.working w p))
      (hslot : s.slots[w.slot]? = some slot) (h : Worked s e t w p slot call slot' r) :
    Acted s e { s.put t call w.slot slot' with registry := r }
  | clearProject (key : K) : Acted s (.clearProject key)
      { s with registry := { s.registry with projects := s.registry.projects.erase key } }
  | clearAll : Acted s .clearAll { s with registry := { s.registry with projects := ∅ } }

/-- **A step is one of these.** -/
theorem acted_of_step (h : s.step e = some s') : Acted s e s' := by
  have hwork : ∀ {t : ℕ}, e.call? = some t → (e.call?.bind fun t ↦ match s.calls[t]? with
      | some (.working w phase) => s.slots[w.slot]?.bind fun slot ↦ s.proceed t w slot phase e
      | _ => none) = some s' → Acted s e s' := by
    intro t he hbind
    rw [he, Option.bind_some] at hbind
    split at hbind
    next w p hcall =>
      obtain ⟨slot, hslot, hproceed⟩ := Option.bind_eq_some_iff.1 hbind
      obtain ⟨call, slot', r, rfl, hworked⟩ := worked_of_proceed he hproceed
      exact .worked hcall hslot hworked
    next => cases hbind
  cases e with
  | call key requested =>
    obtain rfl := Option.some.inj h
    exact .called key requested
  | slotFor t =>
    simp only [Service.step] at h
    split at h
    next key requested hcall =>
      obtain rfl := Option.some.inj h
      unfold Service.slotFor
      dsimp only
      split
      next entry hkey => exact .found hkey
      next hkey => exact .made hkey
    next => cases h
  | clearProject key =>
    obtain rfl := Option.some.inj h
    exact .clearProject key
  | clearAll =>
    obtain rfl := Option.some.inj h
    exact .clearAll
  | lock t | keep t | unload t | load t ok | settle t | snapshot t | answer t cancelled | leave t =>
    exact hwork rfl h

theorem slotOf_empty (r : Registry K) (k : K) :
    ({ r with projects := ∅ } : Registry K).slotOf k = none := by
  rw [Registry.slotOf, AList.lookup_empty]
  rfl

/-- What becomes of the registry and the calls; `fresh` is the project that got a slot. -/
structure Grows (s s' : Service K) (fresh : Option K) : Prop where
  length : s'.slots.length = s.slots.length + fresh.toList.length
  registry : ∀ k i, s'.registry.slotOf k = some i →
    s.registry.slotOf k = some i ∨ (fresh = some k ∧ i = s.slots.length)
  calls : ∀ w p, .working w p ∈ s'.calls → (∃ w' p', .working w' p' ∈ s.calls ∧
    w'.slot = w.slot ∧ w'.key = w.key) ∨ s.registry.slotOf w.key = some w.slot ∨
      (fresh = some w.key ∧ w.slot = s.slots.length)

theorem grows_of_acted (h : Acted s e s') : ∃ fresh, Grows s s' fresh := by
  have hset : ∀ {t : ℕ} {call : SemanticService.Call K} {w : Work K} {p : Phase},
      .working w p ∈ s.calls.set t call → .working w p = call ∨ .working w p ∈ s.calls := by
    intro t call w p hmem
    exact (List.mem_or_eq_of_mem_set hmem).symm
  cases h with
  | called key requested =>
    refine ⟨none, rfl, fun k i hk ↦ .inl hk, fun w p hmem ↦ .inl ⟨w, p, ?_, rfl, rfl⟩⟩
    refine (List.mem_append.1 hmem).resolve_right fun hlast ↦ ?_
    cases List.mem_singleton.1 hlast
  | found hkey =>
    refine ⟨none, rfl, fun k i hk ↦ .inl hk, fun w p hmem ↦ ?_⟩
    rcases hset hmem with heq | hmem
    · obtain ⟨rfl, rfl⟩ := SemanticService.Call.working.inj heq
      refine .inr (.inl ?_)
      rw [Registry.slotOf, hkey]
      rfl
    · exact .inl ⟨w, p, hmem, rfl, rfl⟩
  | @made t key requested lastUsed hkey =>
    refine ⟨some key, List.length_append, fun k i hk ↦ ?_, fun w p hmem ↦ ?_⟩
    · rw [Registry.slotOf_insert key k ⟨s.slots.length, lastUsed⟩ lastUsed] at hk
      split_ifs at hk with heq
      · exact .inr ⟨congrArg some heq.symm, (Option.some.inj hk).symm⟩
      · exact .inl hk
    · rcases hset hmem with heq | hmem
      · obtain ⟨rfl, rfl⟩ := SemanticService.Call.working.inj heq
        exact .inr (.inr ⟨rfl, rfl⟩)
      · exact .inl ⟨w, p, hmem, rfl, rfl⟩
  | @worked e t w p slot slot' call r hcall hslot h =>
    refine ⟨none, List.length_set, fun k i hk ↦ .inl ?_, fun w' p' hmem ↦ .inl ?_⟩
    · obtain rfl | ⟨-, -, rfl⟩ | ⟨-, -, rfl⟩ := h.registry
      · exact hk
      · rcases Registry.slotOf_use s.registry with heq | hnone
        · exact heq.symm.trans hk
        · cases hnone.symm.trans hk
      · rw [Registry.slotOf_removeIfSame] at hk
        split_ifs at hk
        exact hk
    · rcases hset hmem with heq | hmem
      · obtain ⟨hkey, hsame⟩ := h.stays w' p' heq.symm
        exact ⟨w, p, List.mem_of_getElem? hcall, hsame.symm, hkey.symm⟩
      · exact ⟨w', p', hmem, rfl, rfl⟩
  | clearProject key =>
    refine ⟨none, rfl, fun k i hk ↦ .inl ?_, fun w p hmem ↦ .inl ⟨w, p, hmem, rfl, rfl⟩⟩
    rw [Registry.slotOf_erase] at hk
    split_ifs at hk
    exact hk
  | clearAll =>
    refine ⟨none, rfl, fun k i hk ↦ ?_, fun w p hmem ↦ .inl ⟨w, p, hmem, rfl, rfl⟩⟩
    rw [slotOf_empty] at hk
    cases hk

/-- A project has a context that a call can find. -/
def HasContext (s : Service K) (k : K) : Prop :=
  ∃ i slot, s.registry.slotOf k = some i ∧ s.slots[i]? = some slot ∧ slot.context.isSome = true

/-- What a call may take a context out for. -/
inductive Takes (s : Service K) (k : K) : Service.Event K → Prop
  /-- An eviction, after the use of a project. -/
  | evict {t : ℕ} {w : Work K} (h : .working w (.brought true) ∈ s.calls) : Takes s k (.settle t)
  /-- A load on the project itself. -/
  | load {t : ℕ} {w : Work K} {p : Phase} (hcall : s.calls[t]? = some (.working w p))
      (hkey : w.key = k) : Takes s k (.unload t)
  | clearProject : Takes s k (.clearProject k)
  | clearAll : Takes s k .clearAll

theorem takes_of_acted (h : Acted s e s') {k : K} (hhas : HasContext s k)
    (hlost : ¬HasContext s' k)
    (howned : ∀ w p, .working w p ∈ s.calls → s.registry.slotOf k = some w.slot → w.key = k) :
    Takes s k e := by
  obtain ⟨i, sl, hreg, hsl, hsome⟩ := hhas
  cases h with
  | called key requested => exact absurd ⟨i, sl, hreg, hsl, hsome⟩ hlost
  | found hkey => exact absurd ⟨i, sl, hreg, hsl, hsome⟩ hlost
  | @made t key requested lastUsed hkey =>
    refine absurd ⟨i, sl, ?_, ?_, hsome⟩ hlost
    · rw [Registry.slotOf_insert key k ⟨s.slots.length, lastUsed⟩ lastUsed, if_neg ?_]
      · exact hreg
      · rintro rfl
        rw [Registry.slotOf, hkey] at hreg
        cases hreg
    · rw [List.getElem?_append_left (List.getElem?_eq_some_iff.1 hsl).1]
      exact hsl
  | @worked e t w p slot slot' call r hcall hslot h =>
    -- The slot is another, or its context is still there, unless it was unloaded.
    have hkept : r.slotOf k = some i → Takes s k e := by
      intro hr
      by_cases hi : i = w.slot
      · subst hi
        obtain rfl := Option.some.inj (hslot.symm.trans hsl)
        rcases h.context hsome with hsome | rfl
        · refine absurd ⟨w.slot, slot', hr, ?_, hsome⟩ hlost
          exact List.getElem?_set_self (List.getElem?_eq_some_iff.1 hsl).1
        · exact .load hcall (howned w p (List.mem_of_getElem? hcall) hreg)
      · refine absurd ⟨i, sl, hr, ?_, hsome⟩ hlost
        exact (List.getElem?_set_ne (Ne.symm hi)).trans hsl
    obtain rfl | ⟨rfl, rfl, -⟩ | ⟨hnone, -, rfl⟩ := h.registry
    · exact hkept hreg
    · exact .evict (List.mem_of_getElem? hcall)
    · refine hkept ?_
      rw [Registry.slotOf_removeIfSame, if_neg ?_]
      · exact hreg
      · rintro ⟨rfl, hsame⟩
        obtain rfl := Option.some.inj (hreg.symm.trans hsame)
        obtain rfl := Option.some.inj (hslot.symm.trans hsl)
        rw [hnone] at hsome
        cases hsome
  | clearProject key =>
    by_cases hk : k = key
    · subst hk
      exact .clearProject
    · refine absurd ⟨i, sl, ?_, hsl, hsome⟩ hlost
      rw [Registry.slotOf_erase, if_neg hk]
      exact hreg
  | clearAll => exact .clearAll

end Service

/-! ### What holds on the way out -/

/-- What a clean-up knows. Each slot has an owner, and only a panic spoils or poisons it. -/
def Sound (owner : ℕ → Option K) (spoiled : Finset ℕ) (interrupted : List ℕ)
    (slotOf : K → Option ℕ) (c : Cleanup K) : Prop :=
  match c.stage with
  | .unwinding => True
  | .caught => c.slot ∈ spoiled
  | .scanning todo found => c.slot ∈ spoiled ∧
    (∀ entry ∈ todo ++ found, owner entry.2 = some entry.1) ∧
    (∀ entry ∈ found, entry.2 ∈ interrupted) ∧
    ∀ k, slotOf k = some c.slot → (k, c.slot) ∈ todo ++ found
  | .done => ∀ k, slotOf k ≠ some c.slot

omit [DecidableEq K] in
theorem Sound.mono {owner owner' : ℕ → Option K} {spoiled spoiled' : Finset ℕ}
    {interrupted interrupted' : List ℕ} {slotOf slotOf' : K → Option ℕ} {c : Cleanup K}
    (h : Sound owner spoiled interrupted slotOf c)
    (howner : ∀ i k, owner i = some k → owner' i = some k) (hspoiled : spoiled ⊆ spoiled')
    (hinterrupted : interrupted ⊆ interrupted')
    (hslot : ∀ k, slotOf' k = some c.slot → slotOf k = some c.slot) :
    Sound owner' spoiled' interrupted' slotOf' c := by
  unfold Sound at h ⊢
  split at h
  · trivial
  · exact hspoiled h
  · obtain ⟨hmem, howned, hfound, hlisted⟩ := h
    exact ⟨hspoiled hmem, fun entry he ↦ howner _ _ (howned entry he),
      fun entry he ↦ hinterrupted (hfound entry he), fun k hk ↦ hlisted k (hslot k hk)⟩
  · exact fun k hk ↦ h k (hslot k hk)

namespace State

/-- The slots that a panic unwound through. -/
def interrupted (s : State K) : List ℕ :=
  s.cleanups.map Cleanup.slot

/-- A call panicked on the project. -/
def Panicked (s : State K) (k : K) : Prop :=
  ∃ c ∈ s.cleanups, c.key = k

instance (s : State K) (k : K) : Decidable (s.Panicked k) :=
  inferInstanceAs (Decidable (∃ c ∈ s.cleanups, c.key = k))

/-- Each slot belongs to one project, and every clean-up is sound. -/
structure Inv (owner : ℕ → Option K) (s : State K) : Prop where
  bound : ∀ i k, owner i = some k → i < s.service.slots.length
  registry : ∀ k i, s.service.registry.slotOf k = some i → owner i = some k
  calls : ∀ w p, .working w p ∈ s.service.calls → owner w.slot = some w.key
  cleanups : ∀ c ∈ s.cleanups, owner c.slot = some c.key
  spoiled : ∀ i ∈ s.spoiled, i ∈ s.interrupted
  poisoned : ∀ i ∈ s.poisoned, i ∈ s.interrupted
  sound : ∀ c ∈ s.cleanups,
    Sound owner s.spoiled s.interrupted s.service.registry.slotOf c

variable {owner : ℕ → Option K} {s s' : State K} {t c : ℕ} {key : K} {slot : ℕ}
  {stage stage' : Stage K}

theorem Inv.grows (h : Inv owner s) {service : Service K} {fresh : Option K}
    (hgrows : Grows s.service service fresh) {poisoned : Finset ℕ}
    (hpoisoned : poisoned ⊆ s.poisoned) :
    ∃ owner', Inv owner' { s with service, poisoned } := by
  have hne : ∀ {i k}, owner i = some k → i ≠ s.service.slots.length := fun hi ↦
    Nat.ne_of_lt (h.bound _ _ hi)
  refine ⟨fun i ↦ if i = s.service.slots.length ∧ fresh.isSome = true then fresh else owner i,
    ?_, ?_, ?_, ?_, h.spoiled, fun i hi ↦ h.poisoned i (hpoisoned hi), ?_⟩
  · intro i k hi
    show i < service.slots.length
    rw [hgrows.length]
    split_ifs at hi with hfresh
    · rw [hfresh.1, hi]
      exact Nat.lt_succ_self _
    · exact (h.bound i k hi).trans_le (Nat.le_add_right _ _)
  · intro k i hi
    rcases hgrows.registry k i hi with hi | ⟨rfl, rfl⟩
    · have hown := h.registry k i hi
      rw [if_neg fun hlen ↦ hne hown hlen.1, hown]
    · rw [if_pos ⟨rfl, rfl⟩]
  · intro w p hmem
    have hold : owner w.slot = some w.key → (if w.slot = s.service.slots.length ∧
        fresh.isSome = true then fresh else owner w.slot) = some w.key := fun hown ↦ by
      rw [if_neg fun hlen ↦ hne hown hlen.1, hown]
    rcases hgrows.calls w p hmem with ⟨w', p', hmem, hslot, hkey⟩ | hi | ⟨rfl, hslot⟩
    · exact hold (hslot ▸ hkey ▸ h.calls w' p' hmem)
    · exact hold (h.registry _ _ hi)
    · rw [if_pos ⟨hslot, rfl⟩]
  · intro c hc
    rw [if_neg fun hlen ↦ hne (h.cleanups c hc) hlen.1, h.cleanups c hc]
  · intro c hc
    refine (h.sound c hc).mono (fun i k hi ↦ ?_) (Finset.Subset.refl _) (List.Subset.refl _)
      fun k hk ↦ (hgrows.registry k _ hk).resolve_right fun hfresh ↦ ?_
    · rw [if_neg fun hlen ↦ hne hi hlen.1, hi]
    · exact hne (h.cleanups c hc) hfresh.2

omit [DecidableEq K] in
theorem interrupted_advance (hc : s.cleanups[c]? = some ⟨key, slot, stage⟩) (stage' : Stage K) :
    (s.advance c ⟨key, slot, stage'⟩).interrupted = s.interrupted := by
  obtain ⟨hlt, hget⟩ := List.getElem?_eq_some_iff.1 hc
  have hlt' : c < (s.cleanups.map Cleanup.slot).length := by rwa [List.length_map]
  have hslot : (s.cleanups.map Cleanup.slot)[c] = slot := by rw [List.getElem_map, hget]
  rw [interrupted, advance, List.map_set]
  exact (congrArg _ hslot.symm).trans (List.set_getElem_self hlt')

/-- A clean-up goes on. -/
theorem Inv.advance (h : Inv owner s) (hc : s.cleanups[c]? = some ⟨key, slot, stage⟩)
    {spoiled : Finset ℕ} (hmore : s.spoiled ⊆ spoiled) (honly : spoiled ⊆ insert slot s.spoiled)
    {r : Registry K} (hr : ∀ k i, r.slotOf k = some i → s.service.registry.slotOf k = some i)
    (hsound : Sound owner spoiled s.interrupted r.slotOf ⟨key, slot, stage'⟩) :
    Inv owner { (s.advance c ⟨key, slot, stage'⟩).setRegistry r with spoiled } := by
  have hmem := List.mem_of_getElem? hc
  have hinterrupted := interrupted_advance hc stage'
  constructor
  · exact h.bound
  · exact fun k i hk ↦ h.registry k i (hr k i hk)
  · exact h.calls
  · intro c' hc'
    rcases List.mem_or_eq_of_mem_set hc' with hc' | rfl
    · exact h.cleanups c' hc'
    · exact h.cleanups ⟨key, slot, stage⟩ hmem
  · intro i hi
    show i ∈ (s.advance c _).interrupted
    rw [hinterrupted]
    rcases Finset.mem_insert.1 (honly hi) with rfl | hi
    · exact List.mem_map_of_mem hmem
    · exact h.spoiled i hi
  · intro i hi
    show i ∈ (s.advance c _).interrupted
    rw [hinterrupted]
    exact h.poisoned i hi
  · intro c' hc'
    show Sound owner spoiled (s.advance c _).interrupted r.slotOf c'
    rw [hinterrupted]
    rcases List.mem_or_eq_of_mem_set hc' with hc' | rfl
    · exact (h.sound c' hc').mono (fun _ _ ↦ id) hmore (List.Subset.refl _) fun k ↦ hr k _
    · exact hsound

theorem Inv.cleared (h : Inv owner s) (t : ℕ) : Inv owner (s.cleared t) := by
  unfold State.cleared
  split
  · split_ifs
    · refine ⟨fun i k hi ↦ ?_, h.registry, h.calls, h.cleanups, h.spoiled, fun i hi ↦ ?_, h.sound⟩
      · show i < (s.service.slots.modify _ _).length
        rw [List.length_modify]
        exact h.bound i k hi
      · exact h.poisoned i (Finset.mem_of_mem_erase hi)
    · exact h
  · exact h

/-- A panic leaves a clean-up behind. -/
theorem Inv.panic (h : Inv owner s) {w : Work K} {p : Phase}
    (hcall : .working w p ∈ s.service.calls) {t : ℕ} {sl : ProjectSlot} {poisoned : Finset ℕ}
    (hpoisoned : poisoned ⊆ insert w.slot s.poisoned) :
    Inv owner { s with
      service := s.service.put t .finished w.slot sl
      poisoned
      cleanups := s.cleanups ++ [⟨w.key, w.slot, .unwinding⟩] } := by
  have hmore : s.interrupted ⊆
      (s.cleanups ++ [(⟨w.key, w.slot, .unwinding⟩ : Cleanup K)]).map Cleanup.slot := by
    rw [List.map_append]
    exact List.subset_append_left _ _
  constructor
  · intro i k hi
    show i < (s.service.slots.set _ _).length
    rw [List.length_set]
    exact h.bound i k hi
  · exact h.registry
  · intro w' p' hmem
    rcases List.mem_or_eq_of_mem_set hmem with hmem | heq
    · exact h.calls w' p' hmem
    · cases heq
  · intro c hc
    rcases List.mem_append.1 hc with hc | hc
    · exact h.cleanups c hc
    · obtain rfl := List.mem_singleton.1 hc
      exact h.calls w p hcall
  · exact fun i hi ↦ hmore (h.spoiled i hi)
  · intro i hi
    rcases Finset.mem_insert.1 (hpoisoned hi) with rfl | hi
    · exact List.mem_map_of_mem (List.mem_append_right _ (List.mem_singleton_self _))
    · exact hmore (h.poisoned i hi)
  · intro c hc
    rcases List.mem_append.1 hc with hc | hc
    · exact (h.sound c hc).mono (fun _ _ ↦ id) (Finset.Subset.refl _) hmore fun _ ↦ id
    · obtain rfl := List.mem_singleton.1 hc
      trivial

/-- What the loop finds was interrupted by a panic. -/
theorem Inv.interrupted_of_finds (h : Inv owner s) {i : ℕ} {blocked : Bool}
    (hfinds : s.finds i blocked = true) : i ∈ s.interrupted := by
  rcases Bool.or_eq_true_iff.1 hfinds with hi | hi
  · exact h.spoiled i (of_decide_eq_true hi)
  · exact h.poisoned i (of_decide_eq_true (Bool.and_eq_true_iff.1 hi).2)

/-- The end of a clean-up takes out what it found. -/
theorem slotOf_removed {found : List (K × ℕ)} {r : Registry K} {k : K} {i : ℕ} :
    (found.foldl (fun r entry ↦ r.removeIfSame entry.1 entry.2) r).slotOf k = some i ↔
      r.slotOf k = some i ∧ (k, i) ∉ found := by
  induction found generalizing r with
  | nil => exact ⟨fun h ↦ ⟨h, List.not_mem_nil⟩, And.left⟩
  | cons entry found ih =>
    obtain ⟨key, j⟩ := entry
    have hone : (r.removeIfSame key j).slotOf k = some i ↔
        r.slotOf k = some i ∧ (k, i) ≠ (key, j) := by
      rw [Registry.slotOf_removeIfSame]
      split_ifs with hsame
      · obtain ⟨rfl, hj⟩ := hsame
        refine ⟨by rintro ⟨⟩, fun h ↦ absurd ?_ h.2⟩
        rw [Option.some.inj (h.1.symm.trans hj)]
      · refine ⟨fun hi ↦ ⟨hi, ?_⟩, And.left⟩
        rintro ⟨⟩
        exact hsame ⟨rfl, hi⟩
    rw [List.foldl_cons, ih, hone, and_assoc, List.mem_cons, not_or]

theorem mem_slots {r : Registry K} {k : K} {i : ℕ} : (k, i) ∈ slots r ↔ r.slotOf k = some i := by
  rw [slots, List.mem_map, Registry.slotOf, Option.map_eq_some_iff]
  constructor
  · rintro ⟨⟨key, entry⟩, hmem, heq⟩
    obtain ⟨rfl, rfl⟩ := Prod.mk.inj heq
    exact ⟨entry, AList.mem_lookup_iff.2 hmem, rfl⟩
  · rintro ⟨entry, hlookup, rfl⟩
    exact ⟨⟨k, entry⟩, AList.mem_lookup_iff.1 hlookup, rfl⟩

/-- **Every step keeps the clean-ups sound.** -/
theorem Inv.step (h : Inv owner s) {e : Event K} (hstep : s.step e = some s') :
    ∃ owner', Inv owner' s' := by
  -- What the service does by itself leaves the registry's slots to their owners.
  have hrun : ∀ {s : State K} {e service}, Inv owner s → s.service.step e = some service →
      ∃ owner', Inv owner' { s with service } := by
    intro s e service h hservice
    obtain ⟨fresh, hgrows⟩ := grows_of_acted (acted_of_step hservice)
    exact h.grows hgrows (Finset.Subset.refl _)
  unfold State.step at hstep
  split at hstep
  next t => -- `lock`
    obtain ⟨service, hservice, rfl⟩ := Option.map_eq_some_iff.1 hstep
    exact hrun (h.cleared t) hservice
  next e _ =>
    obtain ⟨service, hservice, rfl⟩ := Option.map_eq_some_iff.1 hstep
    exact hrun h hservice
  next t => -- `panic`
    split at hstep
    next w phase hcall =>
      split at hstep
      · obtain ⟨sl, hsl, rfl⟩ := Option.map_eq_some_iff.1 hstep
        -- The lock is spoiled only when the call held it.
        refine ⟨owner, h.panic (List.mem_of_getElem? hcall) ?_⟩
        split_ifs
        · exact Finset.Subset.refl _
        · exact Finset.subset_insert _ _
      · cases hstep
    next => cases hstep
  next c => -- `spoil`
    split at hstep
    next key slot hc =>
      obtain rfl := Option.some.inj hstep
      exact ⟨owner, h.advance hc (Finset.subset_insert _ _) (Finset.Subset.refl _)
        (fun _ _ ↦ id) (Finset.mem_insert_self _ _)⟩
    next => cases hstep
  next c order => -- `scan`
    split at hstep
    next key slot hc =>
      split_ifs at hstep with hperm
      obtain rfl := Option.some.inj hstep
      have hspoiled : slot ∈ s.spoiled := h.sound _ (List.mem_of_getElem? hc)
      -- The scan copies the registry as it is, so nothing is missed on the list.
      refine ⟨owner, h.advance hc (Finset.Subset.refl _) (Finset.subset_insert _ _)
        (fun _ _ ↦ id) ⟨hspoiled, fun entry he ↦ ?_, nofun, fun k hk ↦ ?_⟩⟩
      · rw [List.append_nil] at he
        exact h.registry _ _ (mem_slots.1 (hperm.mem_iff.1 he))
      · rw [List.append_nil]
        exact hperm.mem_iff.2 (mem_slots.2 hk)
    next => cases hstep
  next c blocked => -- `check`
    split at hstep
    next key slot entry todo found hc =>
      obtain rfl := Option.some.inj hstep
      obtain ⟨hspoiled, howned, hfound, hlisted⟩ := h.sound _ (List.mem_of_getElem? hc)
      refine ⟨owner, h.advance hc (Finset.Subset.refl _) (Finset.subset_insert _ _)
        (fun _ _ ↦ id) ⟨hspoiled, fun entry' he ↦ ?_, fun entry' he ↦ ?_, fun k hk ↦ ?_⟩⟩
      -- The entry moves from the list to the found ones, or off both.
      · refine howned entry' ?_
        rcases List.mem_append.1 he with he | he
        · exact List.mem_append_left _ (List.mem_cons_of_mem _ he)
        split_ifs at he
        · rcases List.mem_append.1 he with he | he
          · exact List.mem_append_right _ he
          · obtain rfl := List.mem_singleton.1 he
            exact List.mem_append_left _ List.mem_cons_self
        · exact List.mem_append_right _ he
      · split_ifs at he with hfinds
        · rcases List.mem_append.1 he with he | he
          · exact hfound entry' he
          · obtain rfl := List.mem_singleton.1 he
            exact h.interrupted_of_finds hfinds
        · exact hfound entry' he
      · -- A slot that is spoiled is found.
        have hfinds : s.finds slot blocked = true :=
          Bool.or_eq_true_iff.2 (.inl (decide_eq_true hspoiled))
        rcases List.mem_append.1 (hlisted k hk) with hmem | hmem
        · rcases List.mem_cons.1 hmem with heq | hmem
          · have heq : (k, slot) = entry := heq
            subst heq
            rw [if_pos hfinds]
            exact List.mem_append_right _ (List.mem_append_right _ (List.mem_singleton_self _))
          · exact List.mem_append_left _ hmem
        · refine List.mem_append_right _ ?_
          split_ifs
          · exact List.mem_append_left _ hmem
          · exact hmem
    next => cases hstep
  next c => -- `finish`
    split at hstep
    next key slot found hc =>
      obtain rfl := Option.some.inj hstep
      obtain ⟨hspoiled, howned, hfound, hlisted⟩ := h.sound _ (List.mem_of_getElem? hc)
      refine ⟨owner, h.advance hc (Finset.Subset.refl _) (Finset.subset_insert _ _)
        (fun k i hk ↦ ?_) fun k hk ↦ ?_⟩
      -- Taking entries out, or all of them, adds none.
      · split_ifs at hk
        · rw [slotOf_empty] at hk
          cases hk
        · exact (slotOf_removed.1 hk).1
      · split_ifs at hk
        · rw [slotOf_empty] at hk
          cases hk
        -- What is still there was not found, though every entry of the spoiled slot was.
        · obtain ⟨hreg, hnot⟩ := slotOf_removed.1 hk
          exact hnot (hlisted k hreg)
    next => cases hstep

/-! ### What a clean-up may take -/

/-- After its clean-up, what a panic unwound through is not in the registry. -/
def Clean (s : State K) : Prop :=
  ∀ c ∈ s.cleanups, c.stage = .done → ∀ k, s.service.registry.slotOf k ≠ some c.slot

/-- A context goes with an eviction, a clear or a load of its project, or when a call panicked on
its project. -/
def Excused (s : State K) (e : Event K) (k : K) : Prop :=
  (∃ e', e = .run e' ∧ Takes s.service k e') ∨ s.Panicked k

/-- The step takes no other context. -/
def Guarded (s : State K) (e : Event K) : Prop :=
  ∀ s', s.step e = some s' → ∀ k, HasContext s.service k → ¬HasContext s'.service k → s.Excused e k

/-- No clean-up ends with nothing found while a project on which no call panicked has a context. -/
def Spares (s : State K) (e : Event K) : Prop :=
  ∀ c key slot, e = .finish c → s.cleanups[c]? = some ⟨key, slot, .scanning [] []⟩ →
    ∀ k, HasContext s.service k → s.Panicked k

theorem Inv.clean (h : Inv owner s) : s.Clean := by
  intro c hc hdone
  have hsound := h.sound c hc
  unfold Sound at hsound
  rw [hdone] at hsound
  exact hsound

theorem Inv.panicked (h : Inv owner s) {k : K} {i : ℕ}
    (hreg : s.service.registry.slotOf k = some i) (hi : i ∈ s.interrupted) : s.Panicked k := by
  obtain ⟨c, hc, rfl⟩ := List.mem_map.1 hi
  exact ⟨c, hc, Option.some.inj ((h.cleanups c hc).symm.trans (h.registry k _ hreg))⟩

theorem Inv.takes (h : Inv owner s) {e : Service.Event K} {service : Service K} {k : K}
    (hstep : s.service.step e = some service) (hhas : HasContext s.service k)
    (hlost : ¬HasContext service k) : Takes s.service k e :=
  takes_of_acted (acted_of_step hstep) hhas hlost fun w p hmem hreg ↦
    Option.some.inj ((h.calls w p hmem).symm.trans (h.registry k _ hreg))

/-- Emptying a poisoned slot takes the context of a project on which a call panicked. -/
theorem Inv.cleared_lost (h : Inv owner s) {k : K} (hhas : HasContext s.service k)
    (hlost : ¬HasContext (s.cleared t).service k) : s.Panicked k := by
  obtain ⟨i, sl, hreg, hsl, hsome⟩ := hhas
  unfold State.cleared at hlost
  split at hlost
  next w p hcall =>
    split_ifs at hlost with hpoisoned
    · by_cases hi : w.slot = i
      · exact h.panicked hreg (hi ▸ h.poisoned _ hpoisoned)
      · refine absurd ⟨i, sl, hreg, ?_, hsome⟩ hlost
        exact (List.getElem?_modify_ne _ _ hi).trans hsl
    · exact absurd ⟨i, sl, hreg, hsl, hsome⟩ hlost
  next => exact absurd ⟨i, sl, hreg, hsl, hsome⟩ hlost

/-- **A step takes a context it must not exactly when a clean-up finds nothing.** -/
theorem Inv.guarded_iff (h : Inv owner s) {e : Event K} : s.Guarded e ↔ s.Spares e := by
  constructor
  · rintro hguarded c key slot rfl hc k hhas
    -- A clean-up that found no spoiled slot empties the registry.
    have hstep : s.step (.finish c) = some ((s.advance c ⟨key, slot, .done⟩).setRegistry
        { s.service.registry with projects := ∅ }) := by
      rw [State.step, hc]
      rfl
    have hlost : ¬HasContext ((s.advance c ⟨key, slot, .done⟩).setRegistry
        { s.service.registry with projects := ∅ }).service k := by
      rintro ⟨i, sl, hreg, -⟩
      rw [State.setRegistry, slotOf_empty] at hreg
      cases hreg
    rcases hguarded _ hstep k hhas hlost with ⟨e', heq, -⟩ | hpanicked
    · cases heq
    · exact hpanicked
  · intro hspares s' hstep k hhas hlost
    unfold State.step at hstep
    split at hstep
    next t => -- `lock`
      obtain ⟨service, hservice, rfl⟩ := Option.map_eq_some_iff.1 hstep
      -- Clearing the lock may take the context of the slot that is spoiled, and no other.
      by_cases hcleared : HasContext (s.cleared t).service k
      · cases (h.cleared t).takes hservice hcleared hlost
      · exact .inr (h.cleared_lost hhas hcleared)
    next e _ =>
      obtain ⟨service, hservice, rfl⟩ := Option.map_eq_some_iff.1 hstep
      exact .inl ⟨e, rfl, h.takes hservice hhas hlost⟩
    next t => -- `panic`
      split at hstep
      next w phase hcall =>
        split at hstep
        · obtain ⟨sl, hsl, rfl⟩ := Option.map_eq_some_iff.1 hstep
          -- A panic leaves every context where it was.
          refine absurd ?_ hlost
          obtain ⟨i, sl', hreg, hsl', hsome⟩ := hhas
          by_cases hi : w.slot = i
          · subst hi
            obtain rfl := Option.some.inj (hsl.symm.trans hsl')
            refine ⟨w.slot, _, hreg,
              List.getElem?_set_self (List.getElem?_eq_some_iff.1 hsl).1, ?_⟩
            split <;> exact hsome
          · exact ⟨i, sl', hreg, (List.getElem?_set_ne hi).trans hsl', hsome⟩
        · cases hstep
      next => cases hstep
    next c => -- `spoil`
      split at hstep
      next => exact absurd (Option.some.inj hstep ▸ hhas) hlost
      next => cases hstep
    next c order => -- `scan`
      split at hstep
      next =>
        split at hstep
        · exact absurd (Option.some.inj hstep ▸ hhas) hlost
        · cases hstep
      next => cases hstep
    next c blocked => -- `check`
      split at hstep
      next => exact absurd (Option.some.inj hstep ▸ hhas) hlost
      next => cases hstep
    next c => -- `finish`
      split at hstep
      next key slot found hc =>
        obtain rfl := Option.some.inj hstep
        obtain ⟨-, -, hfound, -⟩ := h.sound _ (List.mem_of_getElem? hc)
        obtain ⟨i, sl, hreg, hsl, hsome⟩ := hhas
        rcases found with - | ⟨entry, found⟩
        · exact .inr (hspares c key slot rfl hc k ⟨i, sl, hreg, hsl, hsome⟩)
        -- Found: a panic went through its slot. Not found: it stays.
        · by_cases hmem : (k, i) ∈ entry :: found
          · exact .inr (h.panicked hreg (hfound _ hmem))
          · exact absurd ⟨i, sl, slotOf_removed.2 ⟨hreg, hmem⟩, hsl, hsome⟩ hlost
      next => cases hstep

end State

open State

/-- **Panics take what they interrupted and nothing else exactly as long as no clean-up finds
nothing** while a project on which no call panicked has a context. -/
theorem unloadAfterPanic_iff (maxProjects : ℕ) (is : List (Event K)) (s : State K) :
    ((machine K maxProjects).Runs (fun s e ↦ s.Clean ∧ s.Guarded e)
        (machine K maxProjects).start is s ∧ s.Clean) ↔
      (machine K maxProjects).Runs Spares (machine K maxProjects).start is s := by
  have hinv : ∀ {Ok : State K → Event K → Prop} {is s},
      (machine K maxProjects).Runs Ok (machine K maxProjects).start is s →
        ∃ owner, Inv owner s := by
    intro Ok is s hruns
    refine hruns.invariant (P := fun s ↦ ∃ owner, Inv owner s) ⟨fun _ ↦ none, ?_⟩ ?_
    · exact ⟨nofun, nofun, nofun, nofun, fun i hi ↦ absurd hi (Finset.notMem_empty i),
        fun i hi ↦ absurd hi (Finset.notMem_empty i), nofun⟩
    · rintro t e u - hstep ⟨owner, h⟩
      exact h.step hstep
  constructor
  · rintro ⟨hruns, -⟩
    induction hruns with
    | nil => exact .nil
    | snoc hruns hok hstep ih =>
      obtain ⟨owner, h⟩ := hinv hruns
      exact ih.snoc (h.guarded_iff.1 hok.2) hstep
  · intro hruns
    refine ⟨?_, (hinv hruns).elim fun _ h ↦ h.clean⟩
    induction hruns with
    | nil => exact .nil
    | snoc hruns hok hstep ih =>
      obtain ⟨owner, h⟩ := hinv hruns
      exact ih.snoc ⟨h.clean, h.guarded_iff.2 hok⟩ hstep

/-- Project 2 is loaded. Two calls on project 1 are at work on their snapshots when both panic, and
the first of them has cleaned up. -/
def twoPanics : List (Event ℕ) :=
  [.run (.call 2 .full), .run (.slotFor 0), .run (.lock 0), .run (.unload 0), .run (.load 0 true),
    .run (.settle 0), .run (.snapshot 0), .run (.answer 0 false),
    .run (.call 1 .full), .run (.slotFor 1), .run (.call 1 .full), .run (.slotFor 2),
    .run (.lock 1), .run (.unload 1), .run (.load 1 true), .run (.settle 1), .run (.snapshot 1),
    .run (.lock 2), .run (.keep 2), .run (.settle 2), .run (.snapshot 2),
    .panic 1, .panic 2, .spoil 0, .spoil 1,
    .scan 0 [(1, 1), (2, 0)], .check 0 false, .check 0 false, .finish 0,
    .scan 1 [(2, 0)], .check 1 false]

/-- **The second of two panics unloads a project that no call panicked on.** -/
theorem bystander_unloaded : ∃ s s' : State ℕ,
    (machine ℕ 4).run (machine ℕ 4).start twoPanics = some s ∧
      s.step (.finish 1) = some s' ∧ HasContext s.service 2 ∧ ¬HasContext s'.service 2 ∧
        ¬s.Excused (.finish 1) 2 := by
  have hrun := Option.some_get (by decide :
    ((machine ℕ 4).run (machine ℕ 4).start twoPanics).isSome = true)
  refine ⟨_, _, hrun.symm, rfl, ⟨0, _, rfl, rfl, rfl⟩, ?_, ?_⟩
  · rintro ⟨i, sl, hreg, -⟩
    cases hreg
  · rintro (⟨e', heq, -⟩ | hpanicked)
    · cases heq
    · exact absurd hpanicked (by decide)

end RustCodeMcp.SemanticPanics
