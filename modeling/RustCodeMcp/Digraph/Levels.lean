import Mathlib.Data.Finset.Union
import Mathlib.Data.Finset.Image
import Mathlib.Order.Bounds.Basic
import RustCodeMcp.Digraph.Distance

/-!
# Levels of a breadth-first search

A search finds from each vertex some others, each by an edge. Level by level, it has what at most so
many edges lead to from the roots (`within`), its frontier is what no fewer lead to, and it has the
edges by which it has found something (`Levels`). In which order a level goes through its frontier
does not matter.

The edges found are collected with the vertices: an edge is kept when what it comes from is within
fewer than `d` edges, whether or not what it leads to was new. A vertex is in one frontier only, at
its least number of edges, so **each vertex is expanded once**, and what the search has is a set
that can be said without it.
-/

namespace DirectedGraph

variable {V E : Type*} [DecidableEq V] (found : V → Finset (V × E)) (roots : Finset V)

/-- What at most so many edges lead to. -/
def within : ℕ → Finset V
  | 0 => roots
  | k + 1 => within k ∪ (within k).biUnion fun v ↦ (found v).image Prod.fst

/-- What a search has after `d` levels. -/
structure Levels (d : ℕ) (retained frontier : Finset V) (dist : V → Option ℕ) (edges : Finset E) :
    Prop where
  retained : retained = within found roots d
  frontier : ∀ v, v ∈ frontier ↔ IsLeast {k | v ∈ within found roots k} d
  dist : ∀ v k, dist v = some k ↔ k ≤ d ∧ IsLeast {k | v ∈ within found roots k} k
  edges : ∀ e, e ∈ edges ↔ ∃ k < d, ∃ v ∈ within found roots k, ∃ w, (w, e) ∈ found v

variable {found roots} {d k m : ℕ} {retained frontier : Finset V} {dist : V → Option ℕ}
  {edges : Finset E} {v w : V} {e : E}

theorem within_mono (h : k ≤ m) : within found roots k ⊆ within found roots m := by
  induction h with
  | refl => exact Finset.Subset.refl _
  | step _ ih => exact ih.trans Finset.subset_union_left

theorem mem_within_succ : w ∈ within found roots (k + 1) ↔
    w ∈ within found roots k ∨ ∃ v ∈ within found roots k, ∃ e, (w, e) ∈ found v := by
  rw [within, Finset.mem_union, Finset.mem_biUnion]
  simp only [Finset.mem_image, Prod.exists, exists_and_right, exists_eq_right]

/-- Within so many edges is what a path of at most so many leads to from a root. -/
theorem mem_within : w ∈ within found roots k ↔
    ∃ j ≤ k, ∃ v ∈ roots, Steps (fun a b ↦ ∃ e, (b, e) ∈ found a) j v w := by
  induction k generalizing w with
  | zero =>
    constructor
    · exact fun h ↦ ⟨0, Nat.le_refl 0, w, h, rfl⟩
    · rintro ⟨j, hj, v, hv, hsteps⟩
      obtain rfl := Nat.le_zero.1 hj
      exact (steps_zero.1 hsteps : v = w) ▸ hv
  | succ k ih =>
    rw [mem_within_succ]
    constructor
    · rintro (h | ⟨u, hu, hfound⟩)
      · obtain ⟨j, hj, v, hv, hsteps⟩ := ih.1 h
        exact ⟨j, hj.trans (Nat.le_succ k), v, hv, hsteps⟩
      · obtain ⟨j, hj, v, hv, hsteps⟩ := ih.1 hu
        exact ⟨j + 1, Nat.succ_le_succ hj, v, hv, hsteps.snoc hfound⟩
    · rintro ⟨j, hj, v, hv, hsteps⟩
      rcases Nat.lt_or_eq_of_le hj with hlt | rfl
      · exact .inl (ih.2 ⟨j, Nat.le_of_lt_succ hlt, v, hv, hsteps⟩)
      · obtain ⟨u, hsteps, hfound⟩ := steps_succ_last.1 hsteps
        exact .inr ⟨u, ih.2 ⟨k, Nat.le_refl k, v, hv, hsteps⟩, hfound⟩

/-- The least number of edges is the level at which something is first within. -/
theorem isLeast_within : IsLeast {k | v ∈ within found roots k} k ↔
    v ∈ within found roots k ∧ ∀ j < k, v ∉ within found roots j :=
  and_congr_right fun _ ↦
    ⟨fun h _ hlt hj ↦ Nat.not_le.2 hlt (h hj), fun h j hj ↦ Nat.not_lt.1 fun hlt ↦ h j hlt hj⟩

/-- The least number of edges is the length of a shortest path. -/
theorem isLeast_within_iff : IsLeast {k | v ∈ within found roots k} k ↔
    IsLeast {k | ∃ u ∈ roots, Steps (fun a b ↦ ∃ e, (b, e) ∈ found a) k u v} k := by
  constructor
  · rintro ⟨hmem, hleast⟩
    obtain ⟨j, hj, u, hu, hsteps⟩ := mem_within.1 hmem
    obtain rfl : j = k :=
      Nat.le_antisymm hj (hleast (mem_within.2 ⟨j, Nat.le_refl j, u, hu, hsteps⟩))
    exact ⟨⟨u, hu, hsteps⟩, fun i hi ↦ hleast (mem_within.2 ⟨i, Nat.le_refl i, hi⟩)⟩
  · rintro ⟨hmem, hleast⟩
    refine ⟨mem_within.2 ⟨k, Nat.le_refl k, hmem⟩, fun i hi ↦ ?_⟩
    obtain ⟨j, hj, hsteps⟩ := mem_within.1 hi
    exact (hleast hsteps).trans hj

/-- What is within depends on what is found within. -/
theorem within_congr {found' : V → Finset (V × E)}
    (h : ∀ k < d, ∀ v ∈ within found roots k, found v = found' v) (hk : k ≤ d) :
    within found roots k = within found' roots k := by
  induction k with
  | zero => rfl
  | succ k ih =>
    have hprev := ih (Nat.le_of_succ_le hk)
    rw [within, within, ← hprev]
    refine congrArg (within found roots k ∪ ·) (Finset.biUnion_congr rfl fun v hv ↦ ?_)
    rw [h k hk v hv]

theorem exists_isLeast (h : v ∈ within found roots k) :
    ∃ j ≤ k, IsLeast {k | v ∈ within found roots k} j := by
  classical
  have hex : ∃ k, v ∈ within found roots k := ⟨k, h⟩
  exact ⟨Nat.find hex, Nat.find_min' hex h, Nat.find_spec hex, fun _ hm ↦ Nat.find_min' hex hm⟩

namespace Levels

/-- Before the first level only the roots are there. -/
theorem zero : Levels found roots 0 roots roots
    (fun v ↦ if v ∈ roots then some 0 else none) (∅ : Finset E) where
  retained := rfl
  frontier v := ⟨fun h ↦ ⟨h, fun _ _ ↦ Nat.zero_le _⟩, fun h ↦ h.1⟩
  dist v k := by
    constructor
    · intro h
      split at h
      · rename_i hv
        obtain rfl := Option.some.inj h
        exact ⟨Nat.le_refl 0, hv, fun _ _ ↦ Nat.zero_le _⟩
      · cases h
    · rintro ⟨hk, hleast⟩
      obtain rfl := Nat.le_zero.1 hk
      exact if_pos hleast.1
  edges e := ⟨fun h ↦ absurd h (Finset.notMem_empty e),
    fun ⟨_, hk, _⟩ ↦ absurd hk (Nat.not_lt_zero _)⟩

theorem dist_eq_none (h : Levels found roots d retained frontier dist edges) (hv : v ∉ retained) :
    dist v = none := by
  refine Option.eq_none_iff_forall_ne_some.2 fun k hk ↦ hv ?_
  obtain ⟨hkd, hleast⟩ := (h.dist v k).1 hk
  rw [h.retained]
  exact within_mono hkd hleast.1

/-- What is within, but not in the frontier, was found before. -/
theorem lt_of_notMem (h : Levels found roots d retained frontier dist edges)
    (hv : v ∈ within found roots d) (hnot : v ∉ frontier) :
    ∃ k < d, v ∈ within found roots k := by
  obtain ⟨k, hk, hleast⟩ := exists_isLeast hv
  refine ⟨k, Nat.lt_of_le_of_ne hk ?_, hleast.1⟩
  rintro rfl
  exact hnot ((h.frontier v).2 hleast)

/-- **One more level.** -/
theorem succ (h : Levels found roots d retained frontier dist edges)
    {retained' frontier' : Finset V} {dist' : V → Option ℕ} {edges' : Finset E}
    (hretained : ∀ w, w ∈ retained' ↔ w ∈ retained ∨ ∃ v ∈ frontier, ∃ e, (w, e) ∈ found v)
    (hfrontier : ∀ w, w ∈ frontier' ↔
      w ∉ retained ∧ ∃ v ∈ frontier, ∃ e, (w, e) ∈ found v)
    (hdist : ∀ w, dist' w = if w ∈ frontier' then some (d + 1) else dist w)
    (hedges : ∀ e, e ∈ edges' ↔ e ∈ edges ∨ ∃ v ∈ frontier, ∃ w, (w, e) ∈ found v) :
    Levels found roots (d + 1) retained' frontier' dist' edges' := by
  -- What the frontier finds is what is found within, up to what was there.
  have hnew : ∀ w, (w ∈ retained ∨ ∃ v ∈ frontier, ∃ e, (w, e) ∈ found v) ↔
      w ∈ within found roots (d + 1) := by
    intro w
    rw [mem_within_succ, h.retained]
    constructor
    · rintro (hw | ⟨v, hv, hfound⟩)
      · exact .inl hw
      · exact .inr ⟨v, ((h.frontier v).1 hv).1, hfound⟩
    · rintro (hw | ⟨v, hv, hfound⟩)
      · exact .inl hw
      · by_cases hmem : v ∈ frontier
        · exact .inr ⟨v, hmem, hfound⟩
        · obtain ⟨k, hk, hv⟩ := h.lt_of_notMem hv hmem
          exact .inl (within_mono hk (mem_within_succ.2 (.inr ⟨v, hv, hfound⟩)))
  have hleast : ∀ w, w ∈ frontier' ↔ IsLeast {k | w ∈ within found roots k} (d + 1) := by
    intro w
    rw [hfrontier]
    constructor
    · rintro ⟨hnot, hfound⟩
      refine ⟨(hnew w).1 (.inr hfound), fun k hk ↦ ?_⟩
      by_contra hlt
      rw [h.retained] at hnot
      exact hnot (within_mono (by omega) hk)
    · intro hleast
      have hnot : w ∉ retained := by
        rw [h.retained]
        intro hmem
        have hle := hleast.2 hmem
        omega
      exact ⟨hnot, ((hnew w).2 hleast.1).resolve_left hnot⟩
  refine ⟨Finset.ext fun w ↦ (hretained w).trans (hnew w), hleast, fun w k ↦ ?_, fun e ↦ ?_⟩
  · rw [hdist]
    split
    · rename_i hmem
      have hw := (hleast w).1 hmem
      constructor
      · intro heq
        obtain rfl := Option.some.inj heq
        exact ⟨Nat.le_refl _, hw⟩
      · rintro ⟨-, hk⟩
        rw [hk.unique hw]
    · rename_i hmem
      rw [h.dist]
      refine ⟨fun hk ↦ ⟨hk.1.trans (Nat.le_succ d), hk.2⟩, fun hk ↦ ⟨?_, hk.2⟩⟩
      refine Nat.le_of_lt_succ (Nat.lt_of_le_of_ne hk.1 ?_)
      rintro rfl
      exact hmem ((hleast w).2 hk.2)
  · rw [hedges, h.edges]
    constructor
    · rintro (⟨k, hk, v, hv, hfound⟩ | ⟨v, hv, hfound⟩)
      · exact ⟨k, hk.trans (Nat.lt_succ_self d), v, hv, hfound⟩
      · exact ⟨d, Nat.lt_succ_self d, v, ((h.frontier v).1 hv).1, hfound⟩
    · rintro ⟨k, hk, v, hv, hfound⟩
      by_cases hmem : v ∈ frontier
      · exact .inr ⟨v, hmem, hfound⟩
      · obtain ⟨j, hj, hv⟩ := h.lt_of_notMem (within_mono (Nat.le_of_lt_succ hk) hv) hmem
        exact .inl ⟨j, hj, v, hv, hfound⟩

/-- Where the frontier is empty, the search is over. -/
theorem of_empty (h : Levels found roots d retained ∅ dist edges) (j : ℕ) :
    Levels found roots (d + j) retained ∅ dist edges := by
  induction j with
  | zero => exact h
  | succ j ih =>
    refine ih.succ (fun w ↦ ?_) (fun w ↦ ?_) (fun w ↦ ?_) (fun e ↦ ?_) <;> simp

/-- What a search has does not depend on what it would find later. -/
theorem congr {found' : V → Finset (V × E)} (h : Levels found roots d retained frontier dist edges)
    (hsame : ∀ k < d, ∀ v ∈ within found roots k, found v = found' v) :
    Levels found' roots d retained frontier dist edges := by
  have hwithin : ∀ k ≤ d, within found roots k = within found' roots k := fun k hk ↦
    within_congr hsame hk
  have hleast : ∀ v, ∀ k ≤ d, IsLeast {k | v ∈ within found roots k} k ↔
      IsLeast {k | v ∈ within found' roots k} k := by
    intro v k hk
    rw [isLeast_within, isLeast_within, hwithin k hk]
    refine and_congr_right fun _ ↦ forall₂_congr fun j hj ↦ ?_
    rw [hwithin j (hj.le.trans hk)]
  refine ⟨h.retained.trans (hwithin d (Nat.le_refl d)), fun v ↦ ?_, fun v k ↦ ?_, fun e ↦ ?_⟩
  · rw [h.frontier, hleast v d (Nat.le_refl d)]
  · rw [h.dist]
    exact and_congr_right fun hk ↦ hleast v k hk
  · rw [h.edges]
    refine exists_congr fun k ↦ and_congr_right fun hk ↦ exists_congr fun v ↦ ?_
    rw [← hwithin k hk.le]
    exact and_congr_right fun hv ↦ by rw [hsame k hk v hv]

end Levels

end DirectedGraph
