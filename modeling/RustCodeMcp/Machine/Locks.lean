import Mathlib.Data.List.Basic
import Mathlib.Data.List.Nodup
import Mathlib.Logic.Function.Basic
import Mathlib.Algebra.Order.BigOperators.Group.List
import Mathlib.Algebra.Order.Group.Nat
import RustCodeMcp.Machine.Pool

/-!
# Fair read-write locks

A table of locks says what each party holds and what it waits for, and in which order those who wait
for a lock came. The locks are fair: only the head of a lock's queue can be granted it, and only
beside holders it is compatible with. A mutex is a lock that nobody asks for in shared mode.

`Sound` is what such a table keeps to, whatever the parties do: queues and wishes agree, and what
two parties hold of one lock is compatible. `Sound.exists_movable` is freedom from deadlock for
parties that take their locks in the order of a rank: whenever somebody waits, somebody can be
granted what it waits for, or somebody holds a lock and waits for nothing.

Waiting is part of the state: a party that asked for a lock stands in its queue until it is granted
it or gives up, and can do nothing else meanwhile. Each way for the table to change has a lemma that
keeps it sound (`Sound.ask`, `Sound.grant`, `Sound.cancel`, `Sound.shrink`, `Sound.join`), so that a
machine over such a table proves its steps sound by citing one of them.

**Freedom from deadlock is about somebody.** Who can get on is not necessarily who waits; it may be
the party at the end of a chain of waiting, which holds what it needs.
-/

namespace Locks

/-- How a lock is held. -/
inductive Mode
  | shared
  | exclusive
  deriving DecidableEq

/-- Two parties hold a lock at once only in shared mode. -/
def Mode.compatible : Mode → Mode → Bool
  | shared, shared => true
  | _, _ => false

/-- What a party holds, and what it waits for. -/
structure Party (L : Type*) where
  held : List (L × Mode)
  wants : Option (L × Mode)

/-- The parties, and the queue of each lock. -/
structure Table (L : Type*) where
  parties : List (Party L)
  /-- Who waits for a lock, in the order they came. -/
  queue : L → List ℕ

namespace Table

variable {L : Type*} [DecidableEq L] {T : Table L} {t : ℕ} {a a' : Party L} {l : L} {m : Mode}

/-- Nobody holds the lock in a way that keeps the mode out. -/
def free (T : Table L) (l : L) (m : Mode) : Bool :=
  T.parties.all fun a ↦ a.held.all fun x ↦ decide (x.1 ≠ l) || x.2.compatible m

/-- Whether the party at `t` is the next to get what it waits for, and can have it. -/
def grantable (T : Table L) (t : ℕ) (l : L) (m : Mode) : Bool :=
  decide ((T.queue l).head? = some t) && T.free l m

theorem compatible_of_free (h : T.free l m = true) (ha : T.parties[t]? = some a) {m' : Mode}
    (hl : (l, m') ∈ a.held) : m'.compatible m = true := by
  have hall := List.all_eq_true.1 (List.all_eq_true.1 h a (List.mem_of_getElem? ha)) _ hl
  simpa using hall

theorem exists_of_not_free (h : T.free l m = false) :
    ∃ (t : ℕ) (a : Party L) (m' : Mode), T.parties[t]? = some a ∧ (l, m') ∈ a.held := by
  obtain ⟨a, hmem, ha⟩ := List.all_eq_false.1 h
  obtain ⟨⟨l', m'⟩, hl, hne⟩ := List.all_eq_false.1 (Bool.eq_false_of_not_eq_true ha)
  obtain ⟨t, ht⟩ := List.mem_iff_getElem?.1 hmem
  obtain ⟨rfl, -⟩ : l' = l ∧ _ := by simpa using hne
  exact ⟨t, a, m', ht, hl⟩

/-- Queues and wishes agree, and what is held is compatible. -/
structure Sound (T : Table L) : Prop where
  queued : ∀ (t : ℕ) (a : Party L) l m, T.parties[t]? = some a →
    a.wants = some (l, m) → t ∈ T.queue l
  waits : ∀ l, ∀ t ∈ T.queue l, ∃ (a : Party L) (m : Mode), T.parties[t]? = some a ∧
    a.wants = some (l, m)
  nodup : ∀ l, (T.queue l).Nodup
  apart : ∀ (t t' : ℕ) (a a' : Party L) l m m', t ≠ t' → T.parties[t]? = some a →
    T.parties[t']? = some a' → (l, m) ∈ a.held → (l, m') ∈ a'.held → m.compatible m' = true

theorem compatible_comm (m m' : Mode) : m.compatible m' = m'.compatible m := by
  cases m <;> cases m' <;> rfl

/-! ### What keeps a table sound -/

omit [DecidableEq L] in
/-- A party that holds no more than it did is apart from the others as it was. -/
theorem Sound.apart_set (h : T.Sound) (ha : T.parties[t]? = some a) (hheld : a'.held ⊆ a.held) :
    ∀ (s s' : ℕ) (b b' : Party L) l m m', s ≠ s' → (T.parties.set t a')[s]? = some b →
      (T.parties.set t a')[s']? = some b' → (l, m) ∈ b.held → (l, m') ∈ b'.held →
      m.compatible m' = true := by
  intro s s' b b' l m m' hne hb hb' hl hl'
  rcases Pool.getElem?_set_cases hb with ⟨rfl, rfl⟩ | ⟨hs, hold⟩ <;>
    rcases Pool.getElem?_set_cases hb' with ⟨rfl, rfl⟩ | ⟨hs', hold'⟩
  · exact absurd rfl hne
  · exact h.apart _ _ _ _ l m m' hne ha hold' (hheld hl) hl'
  · exact h.apart _ _ _ _ l m m' hne hold ha hl (hheld hl')
  · exact h.apart _ _ _ _ l m m' hne hold hold' hl hl'

omit [DecidableEq L] in
/-- A party gives something back, or nothing. -/
theorem Sound.shrink (h : T.Sound) (ha : T.parties[t]? = some a) (hwants : a.wants = none)
    (hwants' : a'.wants = none) (hheld : a'.held ⊆ a.held) :
    ({ T with parties := T.parties.set t a' }).Sound := by
  refine ⟨fun s b l m hb hw ↦ ?_, fun l s hs ↦ ?_, h.nodup, h.apart_set ha hheld⟩
  · rcases Pool.getElem?_set_cases hb with ⟨-, rfl⟩ | ⟨-, hold⟩
    · rw [hwants'] at hw
      cases hw
    · exact h.queued s b l m hold hw
  · obtain ⟨b, m, hb, hw⟩ := h.waits l s hs
    refine ⟨b, m, (List.getElem?_set_ne ?_).trans hb, hw⟩
    rintro rfl
    obtain rfl := Option.some.inj (ha.symm.trans hb)
    rw [hwants] at hw
    cases hw

/-- A party joins the queue of a lock. -/
theorem Sound.ask (h : T.Sound) (ha : T.parties[t]? = some a) (hwants : a.wants = none)
    (hwants' : a'.wants = some (l, m)) (hheld : a'.held ⊆ a.held) :
    ({ parties := T.parties.set t a',
       queue := Function.update T.queue l (T.queue l ++ [t]) } : Table L).Sound := by
  have hself : (T.parties.set t a')[t]? = some a' :=
    List.getElem?_set_self (List.getElem?_eq_some_iff.1 ha).1
  have hnot : ∀ k, t ∉ T.queue k := by
    intro k hk
    obtain ⟨b, m', hb, hw⟩ := h.waits k t hk
    obtain rfl := Option.some.inj (ha.symm.trans hb)
    rw [hwants] at hw
    cases hw
  have hqueue : ∀ k s, s ∈ Function.update T.queue l (T.queue l ++ [t]) k ↔
      s ∈ T.queue k ∨ k = l ∧ s = t := by
    intro k s
    by_cases hk : k = l
    · rw [hk, Function.update_self, List.mem_append, List.mem_singleton]
      simp
    · rw [Function.update_of_ne hk]
      simp [hk]
  refine ⟨fun s b k m' hb hw ↦ ?_, fun k s hs ↦ ?_, fun k ↦ ?_, h.apart_set ha hheld⟩
  · rw [hqueue]
    rcases Pool.getElem?_set_cases hb with ⟨rfl, rfl⟩ | ⟨-, hold⟩
    · rw [hwants'] at hw
      exact .inr ⟨(Prod.mk.inj (Option.some.inj hw)).1.symm, rfl⟩
    · exact .inl (h.queued s b k m' hold hw)
  · rcases (hqueue k s).1 hs with hold | ⟨rfl, rfl⟩
    · obtain ⟨b, m', hb, hw⟩ := h.waits k s hold
      refine ⟨b, m', (List.getElem?_set_ne ?_).trans hb, hw⟩
      rintro rfl
      exact hnot k hold
    · exact ⟨a', m, hself, hwants'⟩
  · by_cases hk : k = l
    · show (Function.update T.queue l _ k).Nodup
      rw [hk, Function.update_self]
      exact (h.nodup l).append (List.nodup_singleton t) (by simpa using hnot l)
    · show (Function.update T.queue l _ k).Nodup
      rw [Function.update_of_ne hk]
      exact h.nodup k

/-- A party leaves the queue it stood in, with no more than it held. -/
theorem Sound.unqueue (h : T.Sound) (ha : T.parties[t]? = some a) (hwants : a.wants = some (l, m))
    (hwants' : a'.wants = none) (hapart : ∀ (s s' : ℕ) (b b' : Party L) l m m', s ≠ s' →
      (T.parties.set t a')[s]? = some b → (T.parties.set t a')[s']? = some b' →
      (l, m) ∈ b.held → (l, m') ∈ b'.held → m.compatible m' = true) :
    ({ parties := T.parties.set t a',
       queue := Function.update T.queue l ((T.queue l).erase t) } : Table L).Sound := by
  have hqueue : ∀ k s, s ∈ Function.update T.queue l ((T.queue l).erase t) k ↔
      s ∈ T.queue k ∧ ¬(k = l ∧ s = t) := by
    intro k s
    by_cases hk : k = l
    · rw [hk, Function.update_self, (h.nodup l).mem_erase_iff]
      simp [and_comm]
    · rw [Function.update_of_ne hk]
      simp [hk]
  refine ⟨fun s b k m' hb hw ↦ ?_, fun k s hs ↦ ?_, fun k ↦ ?_, hapart⟩
  · rw [hqueue]
    rcases Pool.getElem?_set_cases hb with ⟨-, rfl⟩ | ⟨hne, hold⟩
    · rw [hwants'] at hw
      cases hw
    · exact ⟨h.queued s b k m' hold hw, fun hboth ↦ hne hboth.2⟩
  · obtain ⟨hold, hne⟩ := (hqueue k s).1 hs
    obtain ⟨b, m', hb, hw⟩ := h.waits k s hold
    refine ⟨b, m', (List.getElem?_set_ne ?_).trans hb, hw⟩
    rintro rfl
    obtain rfl := Option.some.inj (ha.symm.trans hb)
    rw [hwants] at hw
    exact hne ⟨(Prod.mk.inj (Option.some.inj hw)).1.symm, rfl⟩
  · show (Function.update T.queue l _ k).Nodup
    by_cases hk : k = l
    · rw [hk, Function.update_self]
      exact (h.nodup l).erase t
    · rw [Function.update_of_ne hk]
      exact h.nodup k

/-- A party gives up waiting. -/
theorem Sound.cancel (h : T.Sound) (ha : T.parties[t]? = some a) (hwants : a.wants = some (l, m))
    (hwants' : a'.wants = none) (hheld : a'.held ⊆ a.held) :
    ({ parties := T.parties.set t a',
       queue := Function.update T.queue l ((T.queue l).erase t) } : Table L).Sound :=
  h.unqueue ha hwants hwants' (h.apart_set ha hheld)

/-- **A party is granted what it waits for.** -/
theorem Sound.grant (h : T.Sound) (ha : T.parties[t]? = some a) (hwants : a.wants = some (l, m))
    (hfree : T.free l m = true) (hwants' : a'.wants = none) (hheld : a'.held ⊆ (l, m) :: a.held) :
    ({ parties := T.parties.set t a',
       queue := Function.update T.queue l ((T.queue l).erase t) } : Table L).Sound := by
  -- What the others hold is compatible with what is granted and with what was held.
  have hother : ∀ (s : ℕ) (b : Party L) k m₁ m₂, t ≠ s → T.parties[s]? = some b →
      (k, m₁) ∈ a'.held → (k, m₂) ∈ b.held → m₁.compatible m₂ = true := by
    intro s b k m₁ m₂ hne hb hk hk'
    rcases List.mem_cons.1 (hheld hk) with heq | hold
    · obtain ⟨rfl, rfl⟩ := Prod.mk.inj heq
      rw [compatible_comm]
      exact compatible_of_free hfree hb hk'
    · exact h.apart t s a b k m₁ m₂ hne ha hb hold hk'
  refine h.unqueue ha hwants hwants' fun s s' b b' k m₁ m₂ hne hb hb' hk hk' ↦ ?_
  rcases Pool.getElem?_set_cases hb with ⟨rfl, rfl⟩ | ⟨hs, hold⟩ <;>
    rcases Pool.getElem?_set_cases hb' with ⟨rfl, rfl⟩ | ⟨hs', hold'⟩
  · exact absurd rfl hne
  · exact hother s' b' k m₁ m₂ hne hold' hk hk'
  · rw [compatible_comm]
    exact hother s b k m₂ m₁ (Ne.symm hne) hold hk' hk
  · exact h.apart s s' b b' k m₁ m₂ hne hold hold' hk hk'

omit [DecidableEq L] in
/-- A new party holds nothing and waits for nothing. -/
theorem Sound.join (h : T.Sound) :
    ({ T with parties := T.parties ++ [(⟨[], none⟩ : Party L)] }).Sound := by
  refine ⟨fun s b l m hb hw ↦ ?_, fun l s hs ↦ ?_, h.nodup,
    fun s s' b b' l m m' hne hb hb' hl hl' ↦ ?_⟩
  · rcases Pool.getElem?_concat_cases hb with hold | rfl
    · exact h.queued s b l m hold hw
    · cases hw
  · obtain ⟨b, m, hb, hw⟩ := h.waits l s hs
    exact ⟨b, m, Pool.getElem?_concat _ hb, hw⟩
  · rcases Pool.getElem?_concat_cases hb with hold | rfl
    · rcases Pool.getElem?_concat_cases hb' with hold' | rfl
      · exact h.apart s s' b b' l m m' hne hold hold' hl hl'
      · cases hl'
    · cases hl

/-! ### Nobody waits for ever on somebody who waits -/

/-- The parties ask for their locks in the order of a rank. -/
def Ranked (rank : L → ℕ) (T : Table L) : Prop :=
  ∀ (t : ℕ) (a : Party L) l m, T.parties[t]? = some a → a.wants = some (l, m) →
    ∀ x ∈ a.held, rank x.1 < rank l

/-- Either can get on: by being granted what it waits for, or by waiting for nothing while it holds
something. -/
def Movable (T : Table L) (t : ℕ) (a : Party L) : Prop :=
  (∃ l m, a.wants = some (l, m) ∧ T.grantable t l m = true) ∨ a.wants = none ∧ a.held ≠ []

/-- **No deadlock.** -/
theorem Sound.exists_movable (h : T.Sound) {rank : L → ℕ} (hrank : T.Ranked rank)
    (ha : T.parties[t]? = some a) (hwants : a.wants = some (l, m)) :
    ∃ (s : ℕ) (b : Party L), T.parties[s]? = some b ∧ T.Movable s b := by
  by_contra hnone
  -- Behind whoever waits stands somebody who waits for a lock of a higher rank, without end.
  have hhigher : ∀ n, ∃ (s : ℕ) (b : Party L) (k : L) (m' : Mode), T.parties[s]? = some b ∧
      b.wants = some (k, m') ∧ n ≤ rank k := by
    intro n
    induction n with
    | zero => exact ⟨t, a, l, m, ha, hwants, Nat.zero_le _⟩
    | succ n ih =>
      obtain ⟨s, b, k, m', hb, hw, hle⟩ := ih
      obtain ⟨s', q, hq⟩ := List.exists_cons_of_ne_nil
        (List.ne_nil_of_mem (h.queued s b k m' hb hw))
      obtain ⟨b', m₁, hb', hw'⟩ := h.waits k s' (hq ▸ List.mem_cons_self)
      have hbusy : T.free k m₁ = false := by
        by_contra hfree
        refine hnone ⟨s', b', hb', .inl ⟨k, m₁, hw', ?_⟩⟩
        rw [grantable, hq, Bool.eq_true_of_not_eq_false hfree]
        simp
      obtain ⟨u, c, m₂, hc, hk⟩ := exists_of_not_free hbusy
      rcases hcw : c.wants with - | ⟨k', m₃⟩
      · exact absurd ⟨u, c, hc, .inr ⟨hcw, List.ne_nil_of_mem hk⟩⟩ hnone
      · have hlt : rank k < rank k' := hrank u c k' m₃ hc hcw _ hk
        exact ⟨u, c, k', m₃, hc, hcw, by omega⟩
  have hbound : ∀ (s : ℕ) (b : Party L) (k : L) (m' : Mode), T.parties[s]? = some b →
      b.wants = some (k, m') →
      rank k ≤ (T.parties.map fun b ↦ (b.wants.map fun x ↦ rank x.1).getD 0).sum := by
    intro s b k m' hb hw
    refine List.single_le_sum (fun _ _ ↦ Nat.zero_le _) _
      (List.mem_map.2 ⟨b, List.mem_of_getElem? hb, ?_⟩)
    rw [hw]
    rfl
  obtain ⟨s, b, k, m', hb, hw, hle⟩ := hhigher
    ((T.parties.map fun b ↦ (b.wants.map fun x ↦ rank x.1).getD 0).sum + 1)
  have := hbound s b k m' hb hw
  omega

end Table

end Locks
