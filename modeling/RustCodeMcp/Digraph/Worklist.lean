import Mathlib.Algebra.BigOperators.Group.Finset.Basic
import Mathlib.Algebra.Order.BigOperators.Group.Finset
import Mathlib.Logic.Relation

/-!
# What a stack leads to

The vertex on the top of a stack is taken and, unless it has been reached, its successors are put
onto the stack. The loop ends with what the vertices of the stack lead to (`mem_reach`): a turn
takes a vertex from the stack, and the successors of a vertex are put there once.

The stack may hold a vertex many times over, since it is looked at when it is taken and not when it
is put; so the length of the stack can exceed the number of vertices. What ends the loop is counted
with the edges: **a turn takes one vertex off, and a vertex brings its successors once, when it is
reached** (`turns`). With that many turns granted the loop is over before they run out.

The set it leaves is closed under successors and made of what the roots lead to, which determines
it; neither the order of the stack nor that of the successors is seen in it.
-/

namespace Worklist

variable {V : Type*} [DecidableEq V] (out : V → List V)

/-- The head of the list is the top of the stack, where a successor comes that is put there last. -/
def reach : ℕ → List V → Finset V → Finset V
  | 0, _, reached => reached
  | _ + 1, [], reached => reached
  | n + 1, v :: stack, reached =>
    if v ∈ reached then reach n stack reached
    else reach n ((out v).reverse ++ stack) (insert v reached)

/-- How many turns are left: those for the stack, and those for what is not reached yet. -/
def turns (U : Finset V) (stack : List V) (reached : Finset V) : ℕ :=
  stack.length + ∑ v ∈ U \ reached, (out v).length

variable {out} {U reached : Finset V} {stack roots : List V} {v w : V} {n : ℕ}

theorem turns_enter (hU : v ∈ U) (hv : v ∉ reached) :
    turns out U ((out v).reverse ++ stack) (insert v reached) + 1 =
      turns out U (v :: stack) reached := by
  have hsplit : U \ reached = insert v (U \ insert v reached) := by
    ext w
    simp only [Finset.mem_sdiff, Finset.mem_insert, not_or]
    constructor
    · rintro ⟨hw, hreached⟩
      by_cases hwv : w = v
      · exact .inl hwv
      · exact .inr ⟨hw, hwv, hreached⟩
    · rintro (rfl | ⟨hw, -, hreached⟩)
      · exact ⟨hU, hv⟩
      · exact ⟨hw, hreached⟩
  have hnot : v ∉ U \ insert v reached := fun h ↦
    (Finset.mem_sdiff.1 h).2 (Finset.mem_insert_self _ _)
  rw [turns, turns, hsplit, Finset.sum_insert hnot, List.length_append, List.length_reverse,
    List.length_cons]
  omega

/-- How far the loop has come: the successors of what is reached are reached or on the stack, and
all of it is what the roots lead to. -/
structure Reaching (out : V → List V) (roots stack : List V) (reached : Finset V) : Prop where
  started : ∀ v ∈ roots, v ∈ reached ∨ v ∈ stack
  closed : ∀ v ∈ reached, ∀ w ∈ out v, w ∈ reached ∨ w ∈ stack
  led : ∀ w, w ∈ reached ∨ w ∈ stack →
    ∃ v ∈ roots, Relation.ReflTransGen (fun a b ↦ b ∈ out a) v w

omit [DecidableEq V] in
theorem Reaching.skip (h : Reaching out roots (v :: stack) reached) (hv : v ∈ reached) :
    Reaching out roots stack reached := by
  have hdrop : ∀ w, w ∈ reached ∨ w ∈ v :: stack → w ∈ reached ∨ w ∈ stack := by
    rintro w (hw | hw)
    · exact .inl hw
    · rcases List.mem_cons.1 hw with rfl | hw
      · exact .inl hv
      · exact .inr hw
  exact ⟨fun w hw ↦ hdrop w (h.started w hw), fun a ha w hw ↦ hdrop w (h.closed a ha w hw),
    fun w hw ↦ h.led w (hw.imp_right (List.mem_cons_of_mem _))⟩

/-- A vertex that is reached puts its successors onto the stack. -/
theorem Reaching.enter (h : Reaching out roots (v :: stack) reached) :
    Reaching out roots ((out v).reverse ++ stack) (insert v reached) := by
  have hkeep : ∀ w, w ∈ reached ∨ w ∈ v :: stack →
      w ∈ insert v reached ∨ w ∈ (out v).reverse ++ stack := by
    rintro w (hw | hw)
    · exact .inl (Finset.mem_insert_of_mem hw)
    · rcases List.mem_cons.1 hw with rfl | hw
      · exact .inl (Finset.mem_insert_self _ _)
      · exact .inr (List.mem_append_right _ hw)
  refine ⟨fun w hw ↦ hkeep w (h.started w hw), fun a ha w hw ↦ ?_, fun w hw ↦ ?_⟩
  · rcases Finset.mem_insert.1 ha with rfl | ha
    · exact .inr (List.mem_append_left _ (List.mem_reverse.2 hw))
    · exact hkeep w (h.closed a ha w hw)
  · obtain ⟨root, hroot, hpath⟩ := h.led v (.inr List.mem_cons_self)
    rcases hw with hw | hw
    · rcases Finset.mem_insert.1 hw with rfl | hw
      · exact ⟨root, hroot, hpath⟩
      · exact h.led w (.inl hw)
    · rcases List.mem_append.1 hw with hw | hw
      · exact ⟨root, hroot, hpath.tail (List.mem_reverse.1 hw)⟩
      · exact h.led w (.inr (List.mem_cons_of_mem _ hw))

/-- **With enough turns the stack is empty in the end.** -/
theorem Reaching.reach (h : Reaching out roots stack reached) (hstack : ∀ v ∈ stack, v ∈ U)
    (hU : ∀ v ∈ U, ∀ w ∈ out v, w ∈ U) (hn : turns out U stack reached ≤ n) :
    Reaching out roots [] (reach out n stack reached) := by
  induction n generalizing stack reached with
  | zero =>
    rw [turns] at hn
    obtain rfl : stack = [] := List.eq_nil_of_length_eq_zero (by omega)
    exact h
  | succ n ih =>
    cases stack with
    | nil => exact h
    | cons v stack =>
      obtain ⟨hv, hstack⟩ := List.forall_mem_cons.1 hstack
      rw [Worklist.reach]
      split_ifs with hmem
      · refine ih (h.skip hmem) hstack ?_
        rw [turns, List.length_cons] at hn
        rw [turns]
        omega
      · refine ih h.enter (fun w hw ↦ ?_) ?_
        · rcases List.mem_append.1 hw with hw | hw
          · exact hU v hv w (List.mem_reverse.1 hw)
          · exact hstack w hw
        · have hturn : turns out U ((out v).reverse ++ stack) (insert v reached) + 1 =
              turns out U (v :: stack) reached := turns_enter hv hmem
          omega

/-- **What is reached** is what the roots lead to. -/
theorem mem_reach (hroots : ∀ v ∈ roots, v ∈ U) (hU : ∀ v ∈ U, ∀ w ∈ out v, w ∈ U)
    (hn : turns out U roots ∅ ≤ n) : w ∈ reach out n roots.reverse ∅ ↔
      ∃ v ∈ roots, Relation.ReflTransGen (fun a b ↦ b ∈ out a) v w := by
  have hstart : Reaching out roots roots.reverse ∅ :=
    ⟨fun v hv ↦ .inr (List.mem_reverse.2 hv), fun v hv ↦ absurd hv (Finset.notMem_empty v),
      fun v hv ↦ ⟨v, List.mem_reverse.1 (hv.resolve_left (Finset.notMem_empty v)), .refl⟩⟩
  have hturns : turns out U roots.reverse ∅ ≤ n := by
    rw [turns, List.length_reverse]
    exact hn
  have hend := hstart.reach (fun v hv ↦ hroots v (List.mem_reverse.1 hv)) hU hturns
  refine ⟨fun hw ↦ hend.led w (.inl hw), ?_⟩
  rintro ⟨v, hv, hpath⟩
  induction hpath with
  | refl => exact (hend.started v hv).resolve_right List.not_mem_nil
  | tail _ hedge ih => exact (hend.closed _ ih _ hedge).resolve_right List.not_mem_nil

end Worklist
