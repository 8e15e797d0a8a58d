import Mathlib.Data.List.Cycle

/-!
# Simple cycles in a directed graph

A cycle is a list up to rotation. Of the lists of a simple cycle one begins with the least vertex
(`LeastFirst`), and it is the only one (`LeastFirst.eq_of_isRotated`).

Cycles are found by searches that start somewhere, so the same cycle comes up once for each of its
vertices. To report each cycle once, a search keeps the lists that begin with their least vertex: a
simple cycle has no vertex twice, so it has exactly one such list, and whoever compares two reports
need not rotate anything.

Mathlib's `Cycle` is what is counted; its chain relation says that the edges are there.
-/

namespace DirectedGraph

variable {V : Type*} {r : V → V → Prop} {a b : V} {l l' : List V}

/-- A cycle of edges that goes through no vertex twice. -/
structure SimpleCycle (r : V → V → Prop) (c : Cycle V) : Prop where
  ne_nil : c ≠ Cycle.nil
  nodup : c.Nodup
  chain : c.Chain r

/-- A simple cycle as a search from one of its vertices finds it. -/
theorem simpleCycle_cons :
    SimpleCycle r (a :: l : List V) ↔ (a :: l).Nodup ∧ List.IsChain r (a :: (l ++ [a])) := by
  constructor
  · intro h
    exact ⟨Cycle.nodup_coe_iff.1 h.nodup, (Cycle.chain_coe_cons r a l).1 h.chain⟩
  · rintro ⟨hnodup, hchain⟩
    exact ⟨by simp, Cycle.nodup_coe_iff.2 hnodup, (Cycle.chain_coe_cons r a l).2 hchain⟩

/-- Every vertex of a cycle has an edge. -/
theorem exists_edge_of_mem_chain {c : Cycle V} (h : c.Chain r) (ha : a ∈ c) : ∃ b ∈ c, r a b := by
  induction c using Quotient.inductionOn with
  | h l =>
    obtain ⟨l', m, rfl⟩ := List.append_of_mem (Cycle.mem_coe_iff.1 ha)
    have hrotated : (↑(l' ++ a :: m) : Cycle V) = ↑(a :: (m ++ l')) :=
      Cycle.coe_eq_coe.2 ⟨l'.length, by simp⟩
    have hchain : List.IsChain r (a :: (m ++ l' ++ [a])) := by
      rw [← Cycle.chain_coe_cons]
      exact hrotated ▸ h
    rcases hnext : m ++ l' ++ [a] with - | ⟨b, rest⟩
    · simp at hnext
    · rw [hnext, List.isChain_cons_cons] at hchain
      have hb : b ∈ m ++ l' ++ [a] := by simp [hnext]
      exact ⟨b, Cycle.mem_coe_iff.2 (by simp at hb ⊢; tauto), hchain.1⟩

theorem chain_imp_of_mem {r' : V → V → Prop} {c : Cycle V}
    (himp : ∀ a b, a ∈ c → b ∈ c → r a b → r' a b) (h : c.Chain r) : c.Chain r' := by
  induction c using Cycle.induction_on with
  | nil => exact Cycle.Chain.nil _
  | cons a l =>
    rw [Cycle.chain_coe_cons] at h ⊢
    refine h.imp_of_mem_imp fun x y hx hy hxy ↦ himp x y ?_ ?_ hxy
    · simp at hx ⊢
      tauto
    · simp at hy ⊢
      tauto

section LeastFirst

variable [LinearOrder V]

/-- The least vertex comes first. -/
def LeastFirst (l : List V) : Prop :=
  ∃ a ∈ l.head?, ∀ b ∈ l, a ≤ b

/-- **A simple cycle has one list that begins with its least vertex.** -/
theorem LeastFirst.eq_of_isRotated (h : LeastFirst l) (h' : LeastFirst l') (hnodup : l.Nodup)
    (hrotated : l ~r l') : l = l' := by
  obtain ⟨n, hn, rfl⟩ := List.isRotated_iff_mod.1 hrotated
  obtain ⟨a, ha, hleast⟩ := h
  obtain ⟨b, hb, hleast'⟩ := h'
  obtain rfl : a = b := le_antisymm
    (hleast b (List.mem_rotate.1 (List.mem_of_mem_head? hb)))
    (hleast' a (List.mem_rotate.2 (List.mem_of_mem_head? ha)))
  rcases hn.lt_or_eq with hlt | rfl
  · -- the first vertex of the rotation is that of the list
    rw [List.head?_rotate hlt] at hb
    rw [List.head?_eq_getElem?] at ha
    obtain ⟨h0, hget0⟩ := List.getElem?_eq_some_iff.1 ha
    obtain ⟨_, hgetn⟩ := List.getElem?_eq_some_iff.1 hb
    obtain rfl : n = 0 := hnodup.getElem_inj_iff.1 (hgetn.trans hget0.symm)
    exact (List.rotate_zero l).symm
  · exact (List.rotate_length l).symm

end LeastFirst

end DirectedGraph
