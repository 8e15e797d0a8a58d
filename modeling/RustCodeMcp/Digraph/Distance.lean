import Mathlib.Data.Nat.Find
import Mathlib.Order.Bounds.Basic

/-!
# Distances in a directed graph

`Steps r n a b` is a path of `n` edges. The distance to a target is that of the shortest path with
at least one edge (`AtDistance`), so that a target is at a distance from itself when it lies on a
cycle.

A search that goes backwards from the target needs one law for each of its levels: what is at
distance `k + 1` has an edge to something at distance `k`, and was not seen before
(`atDistance_succ`).

**A distance is never zero.** Callers are asked for, not vertices, so a path without an edge is of
no interest; a target reaches itself only around a cycle, and then at the length of the shortest
one. This is why the search may come back to its own target, and why level zero, which holds nothing
but the target, follows a law of its own (`atDistance_one`).

Relations are arbitrary here: distances are defined without a list of edges, and whether a search
can find them is left to the module that has one.
-/

namespace DirectedGraph

variable {V : Type*} {r : V → V → Prop} {a b c t : V} {k m n : ℕ}

/-- There is a path of `n` edges. -/
def Steps (r : V → V → Prop) : ℕ → V → V → Prop
  | 0, a, b => a = b
  | n + 1, a, c => ∃ b, r a b ∧ Steps r n b c

@[simp] theorem steps_zero : Steps r 0 a b ↔ a = b :=
  .rfl

theorem steps_succ : Steps r (n + 1) a c ↔ ∃ b, r a b ∧ Steps r n b c :=
  .rfl

@[simp] theorem steps_one : Steps r 1 a b ↔ r a b := by
  simp [steps_succ]

/-- A path with one more edge behind it. -/
theorem Steps.snoc (h : Steps r n a b) (hbc : r b c) : Steps r (n + 1) a c := by
  induction n generalizing a with
  | zero =>
    obtain rfl := steps_zero.1 h
    exact steps_one.2 hbc
  | succ n ih =>
    obtain ⟨x, hax, hxb⟩ := h
    exact ⟨x, hax, ih hxb⟩

/-- A path stays one in a graph with more edges. -/
theorem Steps.imp {r' : V → V → Prop} (himp : ∀ a b, r a b → r' a b) (h : Steps r n a b) :
    Steps r' n a b := by
  induction n generalizing a with
  | zero => exact h
  | succ n ih =>
    obtain ⟨c, hac, hcb⟩ := h
    exact ⟨c, himp a c hac, ih hcb⟩

/-- A path is what comes before its last edge, and that edge. -/
theorem steps_succ_last : Steps r (n + 1) a c ↔ ∃ b, Steps r n a b ∧ r b c := by
  refine ⟨fun h ↦ ?_, fun ⟨b, hab, hbc⟩ ↦ hab.snoc hbc⟩
  induction n generalizing a with
  | zero => exact ⟨a, rfl, steps_one.1 h⟩
  | succ n ih =>
    obtain ⟨x, hax, hxc⟩ := h
    obtain ⟨b, hxb, hbc⟩ := ih hxc
    exact ⟨b, ⟨x, hax, hxb⟩, hbc⟩

/-- There is a path of at least one edge and at most `k`. -/
def Within (r : V → V → Prop) (k : ℕ) (a t : V) : Prop :=
  ∃ n, 1 ≤ n ∧ n ≤ k ∧ Steps r n a t

/-- The shortest path of at least one edge has `n`. -/
def AtDistance (r : V → V → Prop) (n : ℕ) (a t : V) : Prop :=
  1 ≤ n ∧ Steps r n a t ∧ ∀ m, 1 ≤ m → Steps r m a t → n ≤ m

/-- Within one edge is what an edge leads from. -/
theorem within_one : Within r 1 a t ↔ r a t := by
  constructor
  · rintro ⟨n, hpos, hle, h⟩
    obtain rfl : n = 1 := by omega
    exact steps_one.1 h
  · intro h
    exact ⟨1, le_rfl, le_rfl, steps_one.2 h⟩

theorem Within.mono (h : Within r k a t) (hkm : k ≤ m) : Within r m a t := by
  obtain ⟨n, hpos, hle, hn⟩ := h
  exact ⟨n, hpos, hle.trans hkm, hn⟩

theorem AtDistance.within (h : AtDistance r n a t) (hnk : n ≤ k) : Within r k a t :=
  ⟨n, h.1, hnk, h.2.1⟩

theorem AtDistance.not_within (h : AtDistance r n a t) (hkn : k < n) : ¬Within r k a t := by
  rintro ⟨m, hpos, hle, hm⟩
  have := h.2.2 m hpos hm
  omega

/-- At distance one is what an edge leads from. -/
theorem atDistance_one : AtDistance r 1 a t ↔ r a t := by
  constructor
  · intro h
    exact steps_one.1 h.2.1
  · intro h
    exact ⟨le_rfl, steps_one.2 h, fun m hm _ ↦ hm⟩

/-- What a path leads from is at some distance. -/
theorem exists_atDistance (h : ∃ n, 1 ≤ n ∧ Steps r n a t) : ∃ n, AtDistance r n a t := by
  classical
  exact ⟨Nat.find h, (Nat.find_spec h).1, (Nat.find_spec h).2,
    fun m hpos hm ↦ Nat.find_min' h ⟨hpos, hm⟩⟩

/-- To be within so many edges is to be at a distance of no more. -/
theorem within_iff_atDistance : Within r k a t ↔ ∃ n, n ≤ k ∧ AtDistance r n a t := by
  constructor
  · rintro ⟨m, hpos, hle, hm⟩
    obtain ⟨n, hn⟩ := exists_atDistance ⟨m, hpos, hm⟩
    have hnm := hn.2.2 m hpos hm
    exact ⟨n, hnm.trans hle, hn⟩
  · rintro ⟨n, hle, hn⟩
    exact hn.within hle

/-- The first edge of a shortest path comes closer by one. -/
theorem AtDistance.exists_closer (h : AtDistance r (k + 1) a t) (hk : 1 ≤ k) :
    ∃ b, AtDistance r k b t ∧ r a b := by
  obtain ⟨-, ⟨b, hab, hbt⟩, hmin⟩ := h
  refine ⟨b, ⟨hk, hbt, fun m hm hsteps ↦ ?_⟩, hab⟩
  have := hmin (m + 1) (by omega) ⟨b, hab, hsteps⟩
  omega

/-- **The law of a level**: not seen before, with an edge to the level before. -/
theorem atDistance_succ (hk : 1 ≤ k) :
    AtDistance r (k + 1) a t ↔ ¬Within r k a t ∧ ∃ b, AtDistance r k b t ∧ r a b := by
  constructor
  · intro h
    exact ⟨h.not_within (by omega), h.exists_closer hk⟩
  · rintro ⟨hnot, b, hb, hab⟩
    refine ⟨by omega, ⟨b, hab, hb.2.1⟩, fun m hpos hm ↦ ?_⟩
    by_contra! hlt
    exact hnot ⟨m, hpos, by omega, hm⟩

/-- One more level is added to what is within. -/
theorem within_succ (hk : 1 ≤ k) :
    Within r (k + 1) a t ↔ Within r k a t ∨ ∃ b, AtDistance r k b t ∧ r a b := by
  constructor
  · intro h
    by_contra! hnot
    obtain ⟨n, hle, hn⟩ := within_iff_atDistance.1 h
    have hnk : ¬n ≤ k := fun hnk ↦ hnot.1 (hn.within hnk)
    obtain rfl : n = k + 1 := by omega
    obtain ⟨b, hb, hab⟩ := hn.exists_closer hk
    exact hnot.2 b hb hab
  · rintro (h | ⟨b, hb, hab⟩)
    · exact h.mono (by omega)
    · exact ⟨k + 1, by omega, le_rfl, b, hab, hb.2.1⟩

/-- No distance below one that occurs is left out. -/
theorem AtDistance.exists_of_le (h : AtDistance r n a t) (hm : 1 ≤ m) (hmn : m ≤ n) :
    ∃ b, AtDistance r m b t := by
  induction n, hmn using Nat.le_induction generalizing a with
  | base => exact ⟨a, h⟩
  | succ n hmn ih =>
    obtain ⟨b, hb, -⟩ := h.exists_closer (by omega)
    exact ih hb

/-- Where a level is empty, the search is over. -/
theorem within_of_no_atDistance (hk : 1 ≤ k) (hnone : ∀ b, ¬AtDistance r k b t)
    (h : ∃ n, 1 ≤ n ∧ Steps r n a t) : Within r (k - 1) a t := by
  obtain ⟨n, hn⟩ := exists_atDistance h
  refine hn.within ?_
  by_contra! hlt
  obtain ⟨b, hb⟩ := hn.exists_of_le hk (by omega)
  exact hnone b hb

/-- Something is farther away than `k`: then something is just so far. -/
theorem exists_atDistance_succ : (∃ a, AtDistance r (k + 1) a t) ↔
    ∃ a, (∃ n, 1 ≤ n ∧ Steps r n a t) ∧ ∀ n, 1 ≤ n → Steps r n a t → k < n := by
  constructor
  · rintro ⟨a, ha⟩
    exact ⟨a, ⟨k + 1, ha.1, ha.2.1⟩, fun n hpos hn ↦ ha.2.2 n hpos hn⟩
  · rintro ⟨a, hreach, hfar⟩
    obtain ⟨n, hn⟩ := exists_atDistance hreach
    have hlt := hfar n hn.1 hn.2.1
    exact hn.exists_of_le (by omega) hlt

end DirectedGraph
