import RustCodeMcp.Machine.Pool
import RustCodeMcp.Semantic.Service

/-!
# One context a project

What a failed load leaves behind decides it. It takes its slot out of the map; a call that had
looked the same slot up and waits for it loads into a slot nobody can find any more, while the next
call makes another (`two_contexts`). As long as no failed load does that (`Orphans`), every call at
work has the registered slot of its project (`Inv`): a project has one context, and a context once
loaded stays in the map until a later load of it fails.

Two agreements are kept by every step. `Locked`: a slot's lock names the call that holds it, and
that call is in a phase that holds one. `Registered`: the slot that a call works on is the one its
project is registered under. The first needs nothing; the second is what an orphaning load breaks,
and evictions and clears as well, which is why they are left out of regular runs.

The results:

* `stepped_of_step`: a step of the service is one of a few, by what it does to a call, a slot and
  the registry;
* `one_context_of_reachable`: in every run of regular steps a project has one context at most, and
  one that was loaded stays;
* `two_contexts`: a run with a failed load, after which a project has two.
-/

namespace RustCodeMcp.SemanticService

open Machine

variable {K : Type}

/-! ### What the registry says -/

namespace Registry

variable [DecidableEq K] {slots : List ProjectSlot} {key k : K} {r : Registry K} {i : ℕ}

/-- The slot registered for a project. -/
def slotOf (r : Registry K) (key : K) : Option ℕ :=
  (r.projects.lookup key).map (·.slot)

theorem slotOf_erase (key k : K) (r : Registry K) :
    ({ r with projects := r.projects.erase key }).slotOf
    k = if k = key then none else r.slotOf k := by
  unfold slotOf
  split_ifs with hk
  · rw [hk, AList.lookup_erase]
    rfl
  · rw [AList.lookup_erase_ne hk]

theorem slotOf_insert (key k : K) (e : Entry) (clock : ℕ) (r : Registry K) :
    ({ r with clock, projects := r.projects.insert key e }).slotOf k =
      if k = key then some e.slot else r.slotOf k := by
  unfold slotOf
  split_ifs with hk
  · rw [hk, AList.lookup_insert]
    rfl
  · rw [AList.lookup_insert_ne hk]

/-- Eviction takes projects out and moves none. -/
theorem slotOf_evict (n : ℕ) (r : Registry K) :
    (r.evict slots key n).slotOf k = r.slotOf k ∨ (r.evict slots key n).slotOf k = none := by
  induction n generalizing r with
  | zero => exact .inl rfl
  | succ n ih =>
    unfold evict
    split
    · split
      next gone _ =>
        have hgone := slotOf_erase gone k r
        rcases ih { r with projects := r.projects.erase gone } with heq | hnone
        · rw [heq, hgone]
          split_ifs
          · exact .inr rfl
          · exact .inl rfl
        · exact .inr hnone
      next => exact .inl rfl
    · exact .inl rfl

/-- A use of a project moves no slot, and may take one out. -/
theorem slotOf_use (r : Registry K) :
    (r.use slots key i).slotOf k = r.slotOf k ∨ (r.use slots key i).slotOf k = none := by
  unfold use
  dsimp only
  split
  next e he =>
    split_ifs
    · have hinsert : ({ r with
          clock := r.clock + 1
          projects := r.projects.insert key { e with lastUsed := r.clock + 1 } }).slotOf k =
          r.slotOf k := by
        rw [slotOf_insert]
        split_ifs with hk
        · rw [slotOf, hk, he]
          rfl
        · rfl
      unfold evictToCapacity
      split_ifs
      · exact .inl hinsert
      · rcases (slotOf_evict _ _ : (evict slots key _ _).slotOf k = _ ∨ _) with heq | hnone
        · exact .inl (heq.trans hinsert)
        · exact .inr hnone
    · exact .inl rfl
  next => exact .inl rfl

theorem slotOf_removeIfSame (r : Registry K) :
    (r.removeIfSame key i).slotOf k =
      if k = key ∧ r.slotOf key = some i then none else r.slotOf k := by
  have hsame : ((r.projects.lookup key).any fun e ↦ decide (e.slot = i)) = true ↔
      r.slotOf key = some i := by
    unfold slotOf
    rcases r.projects.lookup key with - | e <;> simp
  unfold removeIfSame
  by_cases h : r.slotOf key = some i
  · rw [if_pos (hsame.2 h), slotOf_erase]
    simp [h]
  · rw [if_neg fun hany ↦ h (hsame.1 hany), if_neg fun hboth ↦ h hboth.2]

end Registry

/-! ### What a step can do -/

namespace Phase

/-- Whether a call in this phase holds the lock of its slot. -/
def holds (attempt : ℕ) : Phase → Bool
  | waiting => false
  | answering => decide (attempt = queryAttempts)
  | _ => true

/-- The phases in which the call has left its slot without a context. -/
def bare : Phase → Bool
  | loading | brought false | leaving => true
  | _ => false

theorem holds_of_bare {p : Phase} (attempt : ℕ) (h : p.bare = true) : p.holds attempt = true := by
  cases p with
  | waiting => cases h
  | answering => cases h
  | _ => rfl

end Phase

/-- A call and its slot change together. -/
structure Moves (t : ℕ) (w : Work K) (p : Phase) (slot : ProjectSlot) (call : Call K)
    (slot' : ProjectSlot) : Prop where
  /-- Nobody changes a slot whose lock another holds. -/
  exclusive : p.holds w.attempt = true ∨ slot.holder = none ∨ slot' = slot
  stays : ∀ w' p', call = .working w' p' → w'.key = w.key ∧ w'.slot = w.slot ∧ p ≠ .leaving
  holds : ∀ w' p', call = .working w' p' → p'.holds w'.attempt = true → slot'.holder = some t
  bare : ∀ w' p', call = .working w' p' → p'.bare = true → slot'.context = none

/-- A call that goes on at work. -/
theorem moves_working {t : ℕ} {w w' : Work K} {p p' : Phase} {slot slot' : ProjectSlot}
    (hexcl : p.holds w.attempt = true ∨ slot.holder = none ∨ slot' = slot)
    (hstays : w'.key = w.key ∧ w'.slot = w.slot ∧ p ≠ .leaving)
    (hholds : p'.holds w'.attempt = true → slot'.holder = some t)
    (hbare : p'.bare = true → slot'.context = none) :
    Moves t w p slot (.working w' p') slot' := by
  refine ⟨hexcl, ?_, ?_, ?_⟩ <;> rintro _ _ ⟨⟩
  · exact hstays
  · exact hholds
  · exact hbare

theorem moves_finished {t : ℕ} {w : Work K} {p : Phase} {slot slot' : ProjectSlot}
    (hexcl : p.holds w.attempt = true ∨ slot.holder = none ∨ slot' = slot) :
    Moves t w p slot .finished slot' := by
  refine ⟨hexcl, ?_, ?_, ?_⟩ <;> rintro _ _ ⟨⟩

/-- What becomes of the context when a call takes the step `e`. -/
structure Keeps (t : ℕ) (p : Phase) (slot : ProjectSlot) (e : Service.Event K) (call : Call K)
    (slot' : ProjectSlot) : Prop where
  /-- Only a failed load leads a call to the registry with bad news. -/
  failed : ∀ w', call = .working w' (.brought false) → e = .load t false
  leaving : ∀ w', call ≠ .working w' .leaving
  context : slot'.context.isSome = true ∨ (∃ w' : Work K, call = .working w' .loading) ∨
    slot'.context = slot.context ∧ p ≠ .loading ∨ e = .load t false

namespace Service

variable [DecidableEq K] {s s' : Service K} {e : Event K} {t : ℕ} {w : Work K} {slot : ProjectSlot}
  {slot' : ProjectSlot} {call : Call K}

/-- The steps, case by case. -/
inductive Stepped (s : Service K) : Event K → Service K → Prop
  | call (key : K) (requested : LoadKind) :
    Stepped s (.call key requested) { s with calls := s.calls ++ [.called key requested] }
  | found {t : ℕ} {key : K} {requested : LoadKind} {e : Entry}
      (ha : s.calls[t]? = some (.called key requested))
      (hkey : s.registry.projects.lookup key = some e) :
    Stepped s (.slotFor t) { s with
      registry := { s.registry with clock := s.registry.clock + 1 }
      calls := s.calls.set t (.working ⟨key, requested, e.slot, 1⟩ .waiting) }
  | made {t : ℕ} {key : K} {requested : LoadKind} {lastUsed : ℕ}
      (ha : s.calls[t]? = some (.called key requested))
      (hkey : s.registry.projects.lookup key = none) :
    Stepped s (.slotFor t) {
      registry := { s.registry with
        clock := lastUsed
        projects := s.registry.projects.insert key { slot := s.slots.length, lastUsed } }
      slots := s.slots ++ [{ context := none, holder := none }]
      calls := s.calls.set t (.working ⟨key, requested, s.slots.length, 1⟩ .waiting) }
  | moved {e : Event K} {t : ℕ} {w : Work K} {p : Phase} {slot slot' : ProjectSlot} {call : Call K}
      (ha : s.calls[t]? = some (.working w p)) (hc : s.slots[w.slot]? = some slot)
      (hm : Moves t w p slot call slot') (hk : Keeps t p slot e call slot') :
    Stepped s e (s.put t call w.slot slot')
  | used {t : ℕ} {w : Work K} {slot : ProjectSlot}
      (ha : s.calls[t]? = some (.working w (.brought true))) (hc : s.slots[w.slot]? = some slot) :
    Stepped s (.settle t) { s.put t (.working w .current) w.slot slot with
      registry := s.registry.use s.slots w.key w.slot }
  | removed {t : ℕ} {w : Work K} {slot : ProjectSlot}
      (ha : s.calls[t]? = some (.working w (.brought false))) (hc : s.slots[w.slot]? = some slot) :
    Stepped s (.settle t) { s.put t (.working w .leaving) w.slot slot with
      registry := if slot.context.isNone then s.registry.removeIfSame w.key w.slot else s.registry }
  | clearProject (key : K) : Stepped s (.clearProject key)
      { s with registry := { s.registry with projects := s.registry.projects.erase key } }
  | clearAll : Stepped s .clearAll { s with registry := { s.registry with projects := ∅ } }

/-- The locks and the slots agree: who is in a phase that holds the lock holds it, and who has
emptied its slot finds it empty. -/
structure Locked (s : Service K) : Prop where
  holds : ∀ (t : ℕ) (w : Work K) (p : Phase), s.calls[t]? = some (.working w p) →
    p.holds w.attempt = true → ∃ slot, s.slots[w.slot]? = some slot ∧ slot.holder = some t
  bare : ∀ (t : ℕ) (w : Work K) (p : Phase), s.calls[t]? = some (.working w p) →
    p.bare = true → ∃ slot, s.slots[w.slot]? = some slot ∧ slot.context = none

theorem stepped_of_proceed (h : Locked s) {p : Phase} (ha : s.calls[t]? = some (.working w p))
    (hc : s.slots[w.slot]? = some slot) (he : e.call? = some t)
    (hstep : s.proceed t w slot p e = some s') : s.Stepped e s' := by
  -- What the call's phase says of its slot, in the terms of `Stepped`.
  have hholder : p.holds w.attempt = true → slot.holder = some t := by
    intro hp
    obtain ⟨slot', hc', hholder⟩ := h.holds t w p ha hp
    obtain rfl := Option.some.inj (hc.symm.trans hc')
    exact hholder
  have hempty : p.bare = true → slot.context = none := by
    intro hp
    obtain ⟨slot', hc', hempty⟩ := h.bare t w p ha hp
    obtain rfl := Option.some.inj (hc.symm.trans hc')
    exact hempty
  -- Most steps leave the slot's context as it is.
  have hkeeps : ∀ {w' : Work K} {p' : Phase} {slot' : ProjectSlot},
      p' ≠ .brought false → p' ≠ .leaving → (p ≠ .loading ∧ slot'.context = slot.context) →
      Keeps t p slot e (.working w' p') slot' := by
    intro w' p' slot' hfailed hleaving hsame
    refine ⟨?_, ?_, .inr (.inr (.inl ⟨hsame.2, hsame.1⟩))⟩
    · rintro _ ⟨⟩
      exact absurd rfl hfailed
    · rintro _ ⟨⟩
      exact hleaving rfl
  have hdone : ∀ {slot' : ProjectSlot}, (p ≠ .loading ∧ slot'.context = slot.context) →
      Keeps t p slot e (.finished : Call K) slot' := fun hsame ↦
    ⟨by rintro _ ⟨⟩, by rintro _ ⟨⟩, .inr (.inr (.inl ⟨hsame.2, hsame.1⟩))⟩
  unfold proceed at hstep
  split at hstep
  next => -- `lock`
    split_ifs at hstep with hfree
    obtain rfl := Option.some.inj hstep
    exact Stepped.moved ha hc
      (moves_working (.inr (.inl (Option.isNone_iff_eq_none.1 hfree))) ⟨rfl, rfl, nofun⟩
        (fun _ ↦ rfl) nofun)
      (hkeeps nofun nofun ⟨nofun, rfl⟩)
  next => -- `keep`
    split_ifs at hstep with hload
    obtain rfl := Option.some.inj hstep
    exact Stepped.moved ha hc
      (moves_working (.inl rfl) ⟨rfl, rfl, nofun⟩ (fun _ ↦ hholder rfl) nofun)
      (hkeeps nofun nofun ⟨nofun, rfl⟩)
  next => -- `unload`
    obtain rfl := Option.some.inj hstep
    exact Stepped.moved ha hc
      (moves_working (.inl rfl) ⟨rfl, rfl, nofun⟩ (fun _ ↦ hholder rfl) fun _ ↦ rfl)
      ⟨by rintro _ ⟨⟩, by rintro _ ⟨⟩, .inr (.inl ⟨w, rfl⟩)⟩
  next => -- `load`, in a context
    obtain rfl := Option.some.inj hstep
    exact Stepped.moved ha hc
      (moves_working (.inl rfl) ⟨rfl, rfl, nofun⟩ (fun _ ↦ hholder rfl) nofun)
      ⟨by rintro _ ⟨⟩, by rintro _ ⟨⟩, .inl rfl⟩
  next => -- `load`, in an error
    obtain rfl := Option.some.inj he
    obtain rfl := Option.some.inj hstep
    exact Stepped.moved ha hc
      (moves_working (.inl rfl) ⟨rfl, rfl, nofun⟩ (fun _ ↦ hholder rfl) fun _ ↦ hempty rfl)
      ⟨fun _ _ ↦ rfl, by rintro _ ⟨⟩, .inr (.inr (.inr rfl))⟩
  next => -- `settle`
    obtain rfl := Option.some.inj he
    obtain rfl := Option.some.inj hstep
    exact Stepped.used ha hc
  next =>
    obtain rfl := Option.some.inj he
    obtain rfl := Option.some.inj hstep
    exact Stepped.removed ha hc
  next => -- `snapshot`
    obtain rfl := Option.some.inj hstep
    refine Stepped.moved ha hc (moves_working (.inl rfl) ⟨rfl, rfl, nofun⟩ ?_ nofun)
      (hkeeps nofun nofun ⟨nofun, ?_⟩)
    -- The last attempt keeps the slot locked for the answer; any other lets go of it.
    · intro hlast
      rw [if_pos (of_decide_eq_true hlast)]
      exact hholder rfl
    · split_ifs <;> rfl
  next cancelled => -- `answer`
    split_ifs at hstep with hlast hcancelled
    · obtain rfl := Option.some.inj hstep
      exact Stepped.moved ha hc (moves_finished (.inl (decide_eq_true hlast))) (hdone ⟨nofun, rfl⟩)
    · obtain rfl := Option.some.inj hstep
      exact Stepped.moved ha hc
        (moves_working (.inr (.inr rfl)) ⟨rfl, rfl, nofun⟩ nofun nofun)
        (hkeeps nofun nofun ⟨nofun, rfl⟩)
    · obtain rfl := Option.some.inj hstep
      exact Stepped.moved ha hc (moves_finished (.inr (.inr rfl))) (hdone ⟨nofun, rfl⟩)
  next => -- `leave`
    obtain rfl := Option.some.inj hstep
    exact Stepped.moved ha hc (moves_finished (.inl rfl)) (hdone ⟨nofun, rfl⟩)
  next => cases hstep

/-- **A step is one of these.** -/
theorem stepped_of_step (h : Locked s) (hstep : s.step e = some s') : s.Stepped e s' := by
  cases e with
  | call key requested =>
    obtain rfl := Option.some.inj hstep
    exact Stepped.call key requested
  | slotFor t =>
    simp only [step] at hstep
    split at hstep
    next key requested ha =>
      obtain rfl := Option.some.inj hstep
      unfold slotFor
      dsimp only
      split
      next entry hkey => exact Stepped.found ha hkey
      next hkey => exact Stepped.made ha hkey
    next => cases hstep
  | clearProject key =>
    obtain rfl := Option.some.inj hstep
    exact Stepped.clearProject key
  | clearAll =>
    obtain rfl := Option.some.inj hstep
    exact Stepped.clearAll
  | lock t | keep t | unload t | load t ok | settle t | snapshot t | answer t cancelled | leave t =>
    simp only [step, Event.call?, Option.bind_some] at hstep
    split at hstep
    next w p ha =>
      obtain ⟨slot, hc, hproceed⟩ := Option.bind_eq_some_iff.1 hstep
      exact stepped_of_proceed h ha hc rfl hproceed
    next => cases hstep

/-! ### The locks -/

omit [DecidableEq K] in
/-- A call and its slot change, and the locks still agree. -/
theorem Locked.put (h : s.Locked) {p : Phase}
    (ha : s.calls[t]? = some (.working w p)) (hc : s.slots[w.slot]? = some slot)
    (hm : Moves t w p slot call slot') : (s.put t call w.slot slot').Locked := by
  have hself : (s.slots.set w.slot slot')[w.slot]? = some slot' :=
    List.getElem?_set_self (List.getElem?_eq_some_iff.1 hc).1
  -- Another call that holds the lock of its slot finds it as it was.
  have hother : ∀ {t' : ℕ} {w' : Work K} {p' : Phase}, t' ≠ t →
      s.calls[t']? = some (.working w' p') → p'.holds w'.attempt = true →
      (s.slots.set w.slot slot')[w'.slot]? = s.slots[w'.slot]? := by
    intro t' w' p' hne ha' hp'
    by_cases hslot : w'.slot = w.slot
    · obtain ⟨slot₀, hc', hholder⟩ := h.holds t' w' p' ha' hp'
      rw [hslot] at hc' ⊢
      obtain rfl := Option.some.inj (hc.symm.trans hc')
      rcases hm.exclusive with hp | hfree | rfl
      · obtain ⟨slot₁, hc₁, hholder₁⟩ := h.holds t w p ha hp
        obtain rfl := Option.some.inj (hc.symm.trans hc₁)
        exact absurd (Option.some.inj (hholder.symm.trans hholder₁)) hne
      · rw [hfree] at hholder
        cases hholder
      · rw [hself, hc]
    · exact List.getElem?_set_ne (Ne.symm hslot)
  constructor <;> intro t' w' p' ha' hp'
  · rcases Pool.getElem?_set_cases ha' with ⟨rfl, heq⟩ | ⟨hne, hold⟩
    · obtain ⟨-, hslot, -⟩ := hm.stays w' p' heq.symm
      exact ⟨slot', hslot ▸ hself, hm.holds w' p' heq.symm hp'⟩
    · obtain ⟨slot₀, hc', hholder⟩ := h.holds t' w' p' hold hp'
      exact ⟨slot₀, (hother hne hold hp').trans hc', hholder⟩
  · rcases Pool.getElem?_set_cases ha' with ⟨rfl, heq⟩ | ⟨hne, hold⟩
    · obtain ⟨-, hslot, -⟩ := hm.stays w' p' heq.symm
      exact ⟨slot', hslot ▸ hself, hm.bare w' p' heq.symm hp'⟩
    · obtain ⟨slot₀, hc', hempty⟩ := h.bare t' w' p' hold hp'
      exact ⟨slot₀, (hother hne hold (Phase.holds_of_bare _ hp')).trans hc', hempty⟩

omit [DecidableEq K] in
/-- A call that begins to wait changes nothing for the others. -/
theorem Locked.wait (h : s.Locked) {r : Registry K} {slots : List ProjectSlot}
    (hslots : ∀ (i : ℕ) slot, s.slots[i]? = some slot → slots[i]? = some slot)
    (hcall : ∀ w' p', call = .working w' p' → p' = .waiting) :
    ({ registry := r, slots, calls := s.calls.set t call } : Service K).Locked := by
  constructor <;> intro t' w' p' ha' hp'
  · rcases Pool.getElem?_set_cases ha' with ⟨-, heq⟩ | ⟨-, hold⟩
    · rw [hcall w' p' heq.symm] at hp'
      cases hp'
    · obtain ⟨slot₀, hc', hholder⟩ := h.holds t' w' p' hold hp'
      exact ⟨slot₀, hslots _ _ hc', hholder⟩
  · rcases Pool.getElem?_set_cases ha' with ⟨-, heq⟩ | ⟨-, hold⟩
    · rw [hcall w' p' heq.symm] at hp'
      cases hp'
    · obtain ⟨slot₀, hc', hempty⟩ := h.bare t' w' p' hold hp'
      exact ⟨slot₀, hslots _ _ hc', hempty⟩

omit [DecidableEq K] in
/-- A call that comes back from the registry leaves its slot as it was. -/
theorem Locked.moves_settle (h : s.Locked) {ok : Bool} {p : Phase}
    (ha : s.calls[t]? = some (.working w (.brought ok))) (hc : s.slots[w.slot]? = some slot)
    (hbare : p.bare = true → slot.context = none) :
    Moves t w (.brought ok) slot (.working w p) slot := by
  obtain ⟨slot', hc', hholder⟩ := h.holds t w _ ha rfl
  obtain rfl := Option.some.inj (hc.symm.trans hc')
  exact moves_working (.inl rfl) ⟨rfl, rfl, nofun⟩ (fun _ ↦ hholder) hbare

/-- **Every step keeps the locks in agreement.** -/
theorem Locked.step (h : s.Locked) (hstep : s.Stepped e s') : s'.Locked := by
  cases hstep with
  | call key requested =>
    constructor <;> intro t w p ha hp
    · rcases Pool.getElem?_concat_cases ha with hold | ⟨⟨⟩⟩
      exact h.holds t w p hold hp
    · rcases Pool.getElem?_concat_cases ha with hold | ⟨⟨⟩⟩
      exact h.bare t w p hold hp
  | found ha hkey => exact h.wait (fun _ _ hc ↦ hc) (by rintro _ _ ⟨⟩; rfl)
  | made ha hkey =>
    exact h.wait (fun _ _ hc ↦ Pool.getElem?_concat _ hc) (by rintro _ _ ⟨⟩; rfl)
  | moved ha hc hm hk => exact h.put ha hc hm
  | used ha hc =>
    have hput := h.put ha hc (h.moves_settle (p := .current) ha hc nofun)
    exact ⟨hput.holds, hput.bare⟩
  | removed ha hc =>
    obtain ⟨slot', hc', hempty⟩ := h.bare _ _ _ ha rfl
    obtain rfl := Option.some.inj (hc.symm.trans hc')
    have hput := h.put ha hc (h.moves_settle (p := .leaving) ha hc fun _ ↦ hempty)
    exact ⟨hput.holds, hput.bare⟩
  | clearProject key => exact ⟨h.holds, h.bare⟩
  | clearAll => exact ⟨h.holds, h.bare⟩

/-! ### Every call has the registered slot -/

/-- A project is cleared, or evicted. -/
def Disturbs (s : Service K) : Event K → Prop
  | .clearProject _ | .clearAll => True
  | .settle t => ∃ w, s.calls[t]? = some (.working w (.brought true)) ∧
      ∃ k, s.registry.slotOf k ≠ none ∧ (s.registry.use s.slots w.key w.slot).slotOf k = none
  | _ => False

/-- A failed load takes a slot out of the registry that another call works on. -/
def Orphans (s : Service K) (e : Event K) : Prop :=
  ∃ t w, e = .settle t ∧ s.calls[t]? = some (.working w (.brought false)) ∧
    ∃ t' w' p, t' ≠ t ∧ s.calls[t']? = some (.working w' p) ∧ w'.slot = w.slot

/-- Every call has the slot its project is registered under, unless it found nothing to load. -/
structure Registered (s : Service K) : Prop where
  calls : ∀ (t : ℕ) (w : Work K) (p : Phase), s.calls[t]? = some (.working w p) → p ≠ .leaving →
    s.registry.slotOf w.key = some w.slot
  inj : ∀ k k' i, s.registry.slotOf k = some i → s.registry.slotOf k' = some i → k = k'
  made : ∀ k i, s.registry.slotOf k = some i → i < s.slots.length

/-- A call goes on, and the registry as it is. -/
theorem Registered.put (h : s.Registered) {p : Phase}
    (ha : s.calls[t]? = some (.working w p)) (hm : Moves t w p slot call slot') :
    (s.put t call w.slot slot').Registered := by
  refine ⟨fun t' w' p' ha' hp' ↦ ?_, h.inj, fun k i hk ↦ ?_⟩
  · rcases Pool.getElem?_set_cases ha' with ⟨rfl, heq⟩ | ⟨-, hold⟩
    · obtain ⟨hkey, hslot, hleft⟩ := hm.stays w' p' heq.symm
      rw [hkey, hslot]
      exact h.calls t' w p ha hleft
    · exact h.calls t' w' p' hold hp'
  · show i < (s.slots.set w.slot slot').length
    rw [List.length_set]
    exact h.made k i hk

/-- A registry that says the same. -/
theorem Registered.registry (h : s.Registered) {r : Registry K}
    (hsame : ∀ k, r.slotOf k = s.registry.slotOf k) : ({ s with registry := r }).Registered :=
  ⟨fun t w p ha hp ↦ (hsame _).trans (h.calls t w p ha hp),
    fun k k' i hk hk' ↦ h.inj k k' i ((hsame k).symm.trans hk) ((hsame k').symm.trans hk'),
    fun k i hk ↦ h.made k i ((hsame k).symm.trans hk)⟩

/-- A use that evicts nothing leaves every slot where it is. -/
theorem slotOf_use_of_undisturbed {t : ℕ} (ha : s.calls[t]? = some (.working w (.brought true)))
    (hquiet : ¬s.Disturbs (.settle t)) (k : K) :
    (s.registry.use s.slots w.key w.slot).slotOf k = s.registry.slotOf k := by
  rcases (Registry.slotOf_use s.registry :
    (s.registry.use s.slots w.key w.slot).slotOf k = _ ∨ _) with
    heq | hnone
  · exact heq
  · by_contra hne
    exact hquiet ⟨w, ha, k, fun hold ↦ hne (hnone.trans hold.symm), hnone⟩

/-- **A step that disturbs nothing and orphans nothing keeps the calls registered.** -/
theorem Registered.step (h : s.Registered) (hlocked : s.Locked) (hquiet : ¬s.Disturbs e)
    (horphans : ¬s.Orphans e) (hstep : s.Stepped e s') : s'.Registered := by
  cases hstep with
  | call key requested =>
    refine ⟨fun t w p ha hp ↦ ?_, h.inj, h.made⟩
    rcases Pool.getElem?_concat_cases ha with hold | ⟨⟨⟩⟩
    exact h.calls t w p hold hp
  | found ha hkey =>
    refine ⟨fun t w p ha' hp ↦ ?_, h.inj, h.made⟩
    rcases Pool.getElem?_set_cases ha' with ⟨rfl, ⟨⟩⟩ | ⟨-, hold⟩
    · show Option.map _ _ = _
      rw [hkey]
      rfl
    · exact h.calls t w p hold hp
  | @made t key requested lastUsed ha hkey =>
    have hnone : s.registry.slotOf key = none := by rw [Registry.slotOf, hkey]; rfl
    have hslotOf : ∀ k, ({ s.registry with
        clock := lastUsed
        projects := s.registry.projects.insert key { slot := s.slots.length, lastUsed } }).slotOf
          k =
        if k = key then some s.slots.length else s.registry.slotOf k :=
      fun k ↦ Registry.slotOf_insert key k _ lastUsed s.registry
    refine ⟨fun t' w p ha' hp ↦ ?_, fun k k' i hk hk' ↦ ?_, fun k i hk ↦ ?_⟩
    · refine (hslotOf _).trans ?_
      rcases Pool.getElem?_set_cases ha' with ⟨rfl, ⟨⟩⟩ | ⟨-, hold⟩
      · exact if_pos rfl
      · have hreg := h.calls t' w p hold hp
        rw [if_neg, hreg]
        rintro rfl
        rw [hnone] at hreg
        cases hreg
    · replace hk := (hslotOf k).symm.trans hk
      replace hk' := (hslotOf k').symm.trans hk'
      -- The new slot is none of the old ones.
      have hnew : ∀ k, s.registry.slotOf k ≠ some s.slots.length :=
        fun k hk ↦ Nat.lt_irrefl _ (h.made k _ hk)
      split_ifs at hk hk' with heq heq' heq'
      · rw [heq, heq']
      · obtain rfl := Option.some.inj hk
        exact absurd hk' (hnew k')
      · obtain rfl := Option.some.inj hk'
        exact absurd hk (hnew k)
      · exact h.inj k k' i hk hk'
    · replace hk := (hslotOf k).symm.trans hk
      show i < (s.slots ++ [_]).length
      rw [List.length_append, List.length_singleton]
      split_ifs at hk with heq
      · obtain rfl := Option.some.inj hk
        omega
      · have := h.made k i hk
        omega
  | moved ha hc hm hk => exact h.put ha hm
  | @used t w slot ha hc =>
    have hput := h.put ha (hlocked.moves_settle (p := .current) ha hc nofun)
    exact hput.registry (slotOf_use_of_undisturbed ha hquiet)
  | @removed t w slot ha hc =>
    have hslotOf : ∀ k, (if slot.context.isNone then s.registry.removeIfSame w.key w.slot
        else s.registry).slotOf k = s.registry.slotOf k ∨ k = w.key ∧ (if slot.context.isNone
        then s.registry.removeIfSame w.key w.slot else s.registry).slotOf k = none := by
      intro k
      split_ifs
      · rw [Registry.slotOf_removeIfSame]
        split_ifs with hboth
        · exact .inr ⟨hboth.1, rfl⟩
        · exact .inl rfl
      · exact .inl rfl
    have hkept : ∀ k i, (if slot.context.isNone then s.registry.removeIfSame w.key w.slot
        else s.registry).slotOf k = some i → s.registry.slotOf k = some i := by
      intro k i hk
      rcases hslotOf k with heq | ⟨-, hnone⟩
      · exact heq.symm.trans hk
      · rw [hnone] at hk
        cases hk
    refine ⟨fun t' w' p ha' hp ↦ ?_, fun k k' i hk hk' ↦
      h.inj k k' i (hkept k i hk) (hkept k' i hk'), fun k i hk ↦ ?_⟩
    · rcases Pool.getElem?_set_cases ha' with ⟨rfl, ⟨⟩⟩ | ⟨hne, hold⟩
      · exact absurd rfl hp
      · have hreg := h.calls t' w' p hold hp
        rcases hslotOf w'.key with heq | ⟨hkey, -⟩
        · exact heq.trans hreg
        · -- The other call of this project would have been on the same slot.
          rw [hkey, h.calls t w _ ha nofun] at hreg
          exact absurd ⟨t, w, rfl, ha, t', w', p, hne, hold, (Option.some.inj hreg).symm⟩ horphans
    · show i < (s.slots.set w.slot slot).length
      rw [List.length_set]
      exact h.made k i (hkept k i hk)
  | clearProject key => exact absurd trivial hquiet
  | clearAll => exact absurd trivial hquiet

/-! ### Contexts -/

/-- The slot at `i` has a context of the project: one that the registry names, or that a call on the
project works on. -/
def Loaded (s : Service K) (key : K) (i : ℕ) : Prop :=
  (∃ slot, s.slots[i]? = some slot ∧ slot.context.isSome = true) ∧
    (s.registry.slotOf key = some i ∨
      ∃ (t : ℕ) (w : Work K) (p : Phase), s.calls[t]? = some (.working w p) ∧
        w.key = key ∧ w.slot = i)

/-- A loaded context is in the slot of its project. -/
theorem Registered.loaded (h : s.Registered) (hlocked : s.Locked) {key : K} {i : ℕ}
    (hloaded : s.Loaded key i) : s.registry.slotOf key = some i := by
  obtain ⟨⟨slot, hc, hsome⟩, hreg | ⟨t, w, p, ha, rfl, rfl⟩⟩ := hloaded
  · exact hreg
  · refine h.calls t w p ha ?_
    rintro rfl
    obtain ⟨slot', hc', hempty⟩ := hlocked.bare t w _ ha rfl
    obtain rfl := Option.some.inj (hc.symm.trans hc')
    rw [hempty] at hsome
    cases hsome

/-- Who asks for the project next is given the slot at `i`, and finds its context there, or waits
for the call that is loading it. -/
def Finds (s : Service K) (key : K) (i : ℕ) : Prop :=
  s.registry.slotOf key = some i ∧ ((∃ slot, s.slots[i]? = some slot ∧ slot.context.isSome = true) ∨
    ∃ (t : ℕ) (w : Work K), s.calls[t]? = some (.working w .loading) ∧ w.slot = i)

/-- A load of the slot at `i` ends in an error. -/
def FailsLoad (s : Service K) (i : ℕ) (e : Event K) : Prop :=
  ∃ (t : ℕ) (w : Work K) (p : Phase), e = .load t false ∧ s.calls[t]? = some (.working w p) ∧
    w.slot = i

/-- The context is found, and nobody is about to take its slot out of the registry. -/
structure Kept (s : Service K) (key : K) (i : ℕ) : Prop where
  finds : s.Finds key i
  settled : ∀ (t : ℕ) (w : Work K), s.calls[t]? = some (.working w (.brought false)) → w.slot ≠ i

/-- A call changes a slot, and the context is still found. -/
theorem Kept.put {key : K} {i : ℕ} (h : s.Kept key i) {p : Phase}
    (ha : s.calls[t]? = some (.working w p))
    (hc : s.slots[w.slot]? = some slot) (hm : Moves t w p slot call slot')
    (hk : Keeps t p slot e call slot') (hfails : ¬s.FailsLoad i e) :
    (s.put t call w.slot slot').Kept key i := by
  have hfailed : e = .load t false → w.slot ≠ i := fun he hi ↦ hfails ⟨t, w, p, he, ha, hi⟩
  have hself : (s.slots.set w.slot slot')[w.slot]? = some slot' :=
    List.getElem?_set_self (List.getElem?_eq_some_iff.1 hc).1
  have hat : (s.calls.set t call)[t]? = some call :=
    List.getElem?_set_self (List.getElem?_eq_some_iff.1 ha).1
  refine ⟨⟨h.finds.1, ?_⟩, fun t' w' ha' ↦ ?_⟩
  · by_cases hi : w.slot = i
    · rcases hk.context with hsome | ⟨w', rfl⟩ | ⟨hsame, hload⟩ | he
      · exact .inl ⟨slot', hi ▸ hself, hsome⟩
      · exact .inr ⟨t, w', hat, (hm.stays w' _ rfl).2.1.trans hi⟩
      · rcases h.finds.2 with ⟨slot₀, hc₀, hsome⟩ | ⟨t', w', ha', hi'⟩
        · rw [← hi, hc] at hc₀
          obtain rfl := Option.some.inj hc₀
          exact .inl ⟨slot', hi ▸ hself, hsame ▸ hsome⟩
        · refine .inr ⟨t', w', (List.getElem?_set_ne ?_).trans ha', hi'⟩
          rintro rfl
          obtain ⟨-, rfl⟩ := Call.working.inj (Option.some.inj (ha.symm.trans ha'))
          exact hload rfl
      · exact absurd hi (hfailed he)
    · rcases h.finds.2 with ⟨slot₀, hc₀, hsome⟩ | ⟨t', w', ha', hi'⟩
      · exact .inl ⟨slot₀, (List.getElem?_set_ne hi).trans hc₀, hsome⟩
      · refine .inr ⟨t', w', (List.getElem?_set_ne ?_).trans ha', hi'⟩
        rintro rfl
        obtain ⟨rfl, -⟩ := Call.working.inj (Option.some.inj (ha.symm.trans ha'))
        exact hi hi'
  · rcases Pool.getElem?_set_cases ha' with ⟨rfl, heq⟩ | ⟨-, hold⟩
    · rw [(hm.stays w' _ heq.symm).2.1]
      exact hfailed (hk.failed w' heq.symm)
    · exact h.settled t' w' hold

/-- Calls and slots change, and the context stays where it was. -/
theorem Kept.of_same {key : K} {i : ℕ} (h : s.Kept key i)
    (hreg : s'.registry.slotOf key = s.registry.slotOf key)
    (hslots : ∀ (j : ℕ) slot, s.slots[j]? = some slot → s'.slots[j]? = some slot)
    (hload : ∀ (t : ℕ) (w : Work K), s.calls[t]? = some (.working w .loading) →
      s'.calls[t]? = some (.working w .loading))
    (hfailed : ∀ (t : ℕ) (w : Work K), s'.calls[t]? = some (.working w (.brought false)) →
      s.calls[t]? = some (.working w (.brought false))) : s'.Kept key i := by
  refine ⟨⟨hreg.trans h.finds.1, ?_⟩, fun t w ha ↦ h.settled t w (hfailed t w ha)⟩
  rcases h.finds.2 with ⟨slot, hc, hsome⟩ | ⟨t, w, ha, hi⟩
  · exact .inl ⟨slot, hslots i slot hc, hsome⟩
  · exact .inr ⟨t, w, hload t w ha, hi⟩

/-- **A step keeps a context**, unless a load of its slot fails. -/
theorem Kept.step {key : K} {i : ℕ} (h : s.Kept key i) (hquiet : ¬s.Disturbs e)
    (hfails : ¬s.FailsLoad i e) (hstep : s.Stepped e s') : s'.Kept key i := by
  have hset : ∀ {t : ℕ} {a call : Call K}, s.calls[t]? = some a →
      (∀ w : Work K, a ≠ .working w .loading) → ∀ (t' : ℕ) (w : Work K),
      s.calls[t']? = some (.working w .loading) →
      (s.calls.set t call)[t']? = some (.working w .loading) := by
    intro t a call ha hne t' w ha'
    rwa [List.getElem?_set_ne]
    rintro rfl
    exact hne w (Option.some.inj (ha.symm.trans ha'))
  have hput : ∀ {t : ℕ} {call : Call K}, (∀ w : Work K, call ≠ .working w (.brought false)) →
      ∀ (t' : ℕ) (w : Work K), (s.calls.set t call)[t']? = some (.working w (.brought false)) →
      s.calls[t']? = some (.working w (.brought false)) := by
    intro t call hne t' w ha'
    rcases Pool.getElem?_set_cases ha' with ⟨-, heq⟩ | ⟨-, hold⟩
    · exact absurd heq.symm (hne w)
    · exact hold
  have hsame : ∀ {i : ℕ} {slot : ProjectSlot}, s.slots[i]? = some slot → ∀ (j : ℕ) slot',
      s.slots[j]? = some slot' → (s.slots.set i slot)[j]? = some slot' := by
    intro i slot hc j slot' hc'
    by_cases hj : j = i
    · rw [hj] at hc' ⊢
      rw [List.getElem?_set_self (List.getElem?_eq_some_iff.1 hc).1, ← hc, hc']
    · rwa [List.getElem?_set_ne (Ne.symm hj)]
  cases hstep with
  | call k requested =>
    refine h.of_same rfl (fun _ _ hc ↦ hc) (fun t w ha ↦ Pool.getElem?_concat _ ha) fun t w ha ↦ ?_
    rcases Pool.getElem?_concat_cases ha with hold | ⟨⟨⟩⟩
    exact hold
  | found ha hkey =>
    exact h.of_same rfl (fun _ _ hc ↦ hc) (hset ha nofun) (hput nofun)
  | @made t k requested lastUsed ha hkey =>
    refine h.of_same ?_ (fun _ _ hc ↦ Pool.getElem?_concat _ hc) (hset ha nofun) (hput nofun)
    refine (Registry.slotOf_insert k key _ lastUsed s.registry).trans (if_neg ?_)
    rintro rfl
    have hfound := h.finds.1
    rw [Registry.slotOf, hkey] at hfound
    cases hfound
  | moved ha hc hm hk => exact h.put ha hc hm hk hfails
  | used ha hc =>
    exact h.of_same (slotOf_use_of_undisturbed ha hquiet key) (hsame hc)
      (hset ha nofun) (hput nofun)
  | @removed t w slot ha hc =>
    refine h.of_same ?_ (hsame hc) (hset ha nofun) (hput nofun)
    -- The slot taken out is another project's.
    show (if slot.context.isNone then s.registry.removeIfSame w.key w.slot
      else s.registry).slotOf key
      = s.registry.slotOf key
    split_ifs
    · rw [Registry.slotOf_removeIfSame, if_neg]
      rintro ⟨rfl, hslot⟩
      exact h.settled t w ha (Option.some.inj (hslot.symm.trans h.finds.1))
    · rfl
  | clearProject k => exact absurd trivial hquiet
  | clearAll => exact absurd trivial hquiet

/-- The load that succeeds puts its context where it will be found. -/
theorem Locked.kept (h : s.Locked) (hreg : s.Registered)
    (ha : s.calls[t]? = some (.working w .loading)) (hstep : s.step (.load t true) = some s') :
    s'.Kept w.key w.slot := by
  obtain ⟨slot, hc, hholder⟩ := h.holds t w _ ha rfl
  obtain rfl : s.put t (.working w (.brought true)) w.slot
    { slot with context := some w.requested } =
      s' := by
    simp only [Service.step, Event.call?, Option.bind_some, ha, hc] at hstep
    exact Option.some.inj hstep
  refine ⟨⟨hreg.calls t w _ ha nofun, .inl ⟨_, List.getElem?_set_self
    (List.getElem?_eq_some_iff.1 hc).1, rfl⟩⟩, fun t' w' ha' hi ↦ ?_⟩
  rcases Pool.getElem?_set_cases ha' with ⟨-, ⟨⟩⟩ | ⟨hne, hold⟩
  obtain ⟨slot', hc', hholder'⟩ := h.holds t' w' _ hold rfl
  rw [hi, hc] at hc'
  obtain rfl := Option.some.inj hc'
  exact hne (Option.some.inj (hholder'.symm.trans hholder))

/-- The steps of a run in which no project is cleared or evicted and no failed load takes a slot out
of the registry that another call works on. -/
def Regular (s : Service K) (e : Event K) : Prop :=
  ¬s.Disturbs e ∧ ¬s.Orphans e

theorem locked_start (n : ℕ) : (machine K n).start.Locked :=
  ⟨fun _ _ _ ha ↦ (nomatch ha), fun _ _ _ ha ↦ (nomatch ha)⟩

theorem registered_start (n : ℕ) : (machine K n).start.Registered :=
  ⟨fun _ _ _ ha ↦ (nomatch ha), fun _ _ _ hk ↦ (nomatch hk), fun _ _ hk ↦ (nomatch hk)⟩

theorem locked_of_reachable {n : ℕ} {Ok : Service K → Event K → Prop}
    (h : (machine K n).Reachable Ok s) : s.Locked :=
  h.invariant (locked_start n)
    fun _ _ _ _ hstep hlocked ↦ hlocked.step (stepped_of_step hlocked hstep)

theorem registered_of_reachable {n : ℕ} (h : (machine K n).Reachable Regular s) : s.Registered := by
  have hboth : s.Locked ∧ s.Registered := by
    refine h.invariant (P := fun s ↦ s.Locked ∧ s.Registered)
      ⟨locked_start n, registered_start n⟩ ?_
    intro s e s' hok hstep hs
    have hstepped := stepped_of_step hs.1 hstep
    exact ⟨hs.1.step hstepped, hs.2.step hs.1 hok.1 hok.2 hstepped⟩
  exact hboth.2

/-- **One context a project, and it stays.** In every run of regular steps a project has one context
at most; and what a load has put into the registry, every later call finds there, unless a later
load of it fails. -/
theorem one_context_of_reachable {n : ℕ} (h : (machine K n).Reachable Regular s) :
    (∀ key i j, s.Loaded key i → s.Loaded key j → i = j) ∧
    ∀ t w s' es u, s.calls[t]? = some (.working w .loading) → s.step (.load t true) = some s' →
      (machine K n).Runs (fun s e ↦ s.Regular e ∧ ¬s.FailsLoad w.slot e) s' es u →
      u.Finds w.key w.slot := by
  have hlocked := locked_of_reachable h
  have hreg := registered_of_reachable h
  refine ⟨fun key i j hi hj ↦ ?_, fun t w s' es u ha hstep hruns ↦ ?_⟩
  · exact Option.some.inj ((hreg.loaded hlocked hi).symm.trans (hreg.loaded hlocked hj))
  · have hkept := hlocked.kept hreg ha hstep
    have hlocked' := hlocked.step (stepped_of_step hlocked hstep)
    have hboth : u.Locked ∧ u.Kept w.key w.slot := by
      refine hruns.invariant (P := fun u ↦ u.Locked ∧ u.Kept w.key w.slot) ⟨hlocked', hkept⟩ ?_
      intro u e v hok hnext hu
      have hstepped := stepped_of_step hu.1 hnext
      exact ⟨hu.1.step hstepped, hu.2.step hok.1.1 hok.2 hstepped⟩
    exact hboth.2.finds

/-- The steps that cannot take anything out of the registry, but for a failed load. -/
def spares (s : Service K) : Event K → Bool
  | .clearProject _ | .clearAll => false
  | .settle t => !(s.calls[t]? matches some (.working _ (.brought true)))
  | _ => true

theorem not_disturbs_of_spares (h : s.spares e = true) : ¬s.Disturbs e := by
  cases e with
  | clearProject k => cases h
  | clearAll => cases h
  | settle t =>
    rintro ⟨w, ha, -⟩
    rw [spares, ha] at h
    cases h
  | _ => exact fun hd ↦ hd

/-- A call comes back to the registry. -/
def Event.settles : Event K → Bool
  | .settle _ => true
  | _ => false

theorem regular_of_spares (h : (s.spares e && !e.settles) = true) : s.Regular e := by
  obtain ⟨hspares, hsettle⟩ := Bool.and_eq_true_iff.1 h
  refine ⟨not_disturbs_of_spares hspares, ?_⟩
  rintro ⟨t, w, rfl, -⟩
  cases hsettle

/-- A load ends in an error. -/
def Event.failsLoad : Event K → Bool
  | .load _ false => true
  | _ => false

theorem quiet_of_spares (h : (s.spares e && !e.settles && !e.failsLoad) = true) {i : ℕ} :
    s.Regular e ∧ ¬s.FailsLoad i e := by
  obtain ⟨hregular, hfails⟩ := Bool.and_eq_true_iff.1 h
  refine ⟨regular_of_spares hregular, ?_⟩
  rintro ⟨t, w, p, rfl, -⟩
  cases hfails

/-- Two calls on one project and one on another; the first loads. -/
def threeCalls : List (Event ℕ) :=
  [.call 0 .full, .slotFor 0, .call 0 .full, .slotFor 1, .call 5 .full, .slotFor 2,
    .lock 0, .unload 0]

/-- The other project is loaded, and a fourth call asks for the first one. -/
def fourthCall : List (Event ℕ) :=
  [.lock 2, .unload 2, .load 2 true, .call 0 .full, .slotFor 3]

/-- What the first call has loaded is there for the others, and it is all there is. -/
theorem one_context_of_reachable_threeCalls :
    ∃ s s' u : Service ℕ, (machine ℕ 3).run (machine ℕ 3).start threeCalls = some s ∧
      s.step (.load 0 true) = some s' ∧ (machine ℕ 3).run s' fourthCall = some u ∧
      u.Finds 0 0 ∧ ∀ i, u.Loaded 0 i → i = 0 := by
  have hrun := Option.some_get (by decide : ((machine ℕ 3).runIf
    (fun s e ↦ s.spares e && !e.settles) (machine ℕ 3).start threeCalls).isSome = true)
  have hrest := Option.some_get (by decide : ((machine ℕ 3).runIf
    (fun s e ↦ s.spares e && !e.settles && !e.failsLoad)
    (((machine ℕ 3).run (machine ℕ 3).start (threeCalls ++ [.load 0 true])).get rfl)
    fourthCall).isSome = true)
  have hstart : (machine ℕ 3).Reachable Regular _ :=
    ⟨_, runs_of_runIf (fun _ _ ↦ regular_of_spares) hrun.symm⟩
  have hruns := runs_of_runIf (M := machine ℕ 3) (fun _ _ ↦ quiet_of_spares (i := 0)) hrest.symm
  have hwhole := Option.some_get (by decide : ((machine ℕ 3).runIf
    (fun s e ↦ s.spares e && !e.settles) (machine ℕ 3).start
    (threeCalls ++ .load 0 true :: fourthCall)).isSome = true)
  have hend : (machine ℕ 3).Reachable Regular _ :=
    ⟨_, runs_of_runIf (fun _ _ ↦ regular_of_spares) hwhole.symm⟩
  refine ⟨_, _, _, rfl, rfl, rfl, ?_, fun i hi ↦ ?_⟩
  · exact (one_context_of_reachable hstart).2 0 ⟨0, .full, 0, 1⟩ _ fourthCall _ rfl rfl hruns
  · exact (one_context_of_reachable hend).1 0 i 0 hi ⟨⟨_, rfl, rfl⟩, .inl rfl⟩

/-- **Two contexts of one project.** The first load fails while a second call waits for the slot:
the second loads into a slot that is no longer registered, and a third call makes another. -/
theorem two_contexts : ∃ s : Service ℕ, (machine ℕ 3).Reachable (fun s e ↦ ¬s.Disturbs e) s ∧
    s.Loaded 0 0 ∧ s.Loaded 0 1 := by
  have hrun := Option.some_get (by decide : ((machine ℕ 3).runIf spares (machine ℕ 3).start
    [.call 0 .full, .slotFor 0, .call 0 .full, .slotFor 1, .lock 0, .unload 0,
      .load 0 false, .settle 0,
      .leave 0, .lock 1, .unload 1, .load 1 true, .call 0 .full, .slotFor 2, .lock 2, .unload 2,
      .load 2 true]).isSome = true)
  exact ⟨_, ⟨_, runs_of_runIf (fun _ _ ↦ not_disturbs_of_spares) hrun.symm⟩,
    ⟨⟨_, rfl, rfl⟩, .inr ⟨1, _, _, rfl, rfl, rfl⟩⟩, ⟨⟨_, rfl, rfl⟩, .inr ⟨2, _, _, rfl, rfl, rfl⟩⟩⟩

end Service

end RustCodeMcp.SemanticService
