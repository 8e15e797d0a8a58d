import Mathlib.Data.Finset.Card
import Mathlib.Data.List.Nodup
import Mathlib.Logic.Relation

/-!
# Post-order

A depth-first walk enters a vertex once, walks from each of its successors, and then leaves the
vertex. The vertices are listed as they are left. What has been entered and not left is the stack of
the walk, and leads to the vertex the walk is at. So, where the graph has no cycle but loops, no
successor of a vertex that is left is on the stack: every vertex comes after its successors
(`Walking.visit`).

**The recursion is on fuel, the walk is not.** `visit` counts down a number with each step down, and
stops if it comes to zero; a walk never does as long as there are fewer vertices left to enter than
the number says (`Fuelled`), and the number of all vertices is enough to begin with. Everything that
is proved of the walk is proved under that condition, and the caller provides it once
(`visitAll_spec`).

What carries the induction is a statement about a walk in the middle of others: what it adds, given
the stack it started on (`Grown`).
-/

namespace PostOrder

variable {V : Type*} (out : V → List V)

/-- How far a walk has come: what has been entered, and what has been left, in order. -/
structure Walked (V : Type*) where
  entered : Finset V
  left : List V

/-- A walk from a vertex, unless it has been entered. -/
def visit [DecidableEq V] : ℕ → V → Walked V → Walked V
  | 0, _, s => s
  | n + 1, v, s =>
    if v ∈ s.entered then s
    else
      let t := (out v).foldl (fun t w ↦ visit n w t) ⟨insert v s.entered, s.left⟩
      ⟨t.entered, t.left ++ [v]⟩

/-- Walks from some vertices, one after another. -/
def visitAll [DecidableEq V] (n : ℕ) (vs : List V) (s : Walked V) : Walked V :=
  vs.foldl (fun s v ↦ visit out n v s) s

/-- An edge that is no loop. -/
def Edge (a b : V) : Prop :=
  b ∈ out a ∧ b ≠ a

/-- No vertex leads back to itself, but for loops. -/
def Acyclic : Prop :=
  ∀ v, ¬Relation.TransGen (Edge out) v v

/-- Every vertex of the list comes after its successors. -/
def Ordered (l : List V) : Prop :=
  ∀ before v after, l = before ++ v :: after → ∀ w, Edge out v w → w ∈ before

/-- A walk whose stack is given. -/
structure Walking (stack : Finset V) (s : Walked V) : Prop where
  mem_entered : ∀ v, v ∈ s.entered ↔ v ∈ stack ∨ v ∈ s.left
  apart : ∀ v ∈ stack, v ∉ s.left
  nodup : s.left.Nodup
  ordered : Acyclic out → Ordered out s.left

/-- What a walk from some vertices adds. -/
structure Grown (vs : List V) (s t : Walked V) : Prop where
  isPrefix : s.left <+: t.left
  subset : s.entered ⊆ t.entered
  mem : ∀ v ∈ vs, v ∈ t.entered
  reached : ∀ w ∈ t.left, w ∈ s.left ∨ ∃ v ∈ vs, Relation.ReflTransGen (fun a b ↦ b ∈ out a) v w

variable {out} {n : ℕ} {v w : V} {vs : List V} {stack U : Finset V} {s t u : Walked V}
  {l : List V}

/-! ### Lists in order -/

theorem ordered_nil : Ordered out [] := by
  intro before v after h
  exact absurd h (by simp)

theorem Ordered.concat (h : Ordered out l) (hv : ∀ w, Edge out v w → w ∈ l) :
    Ordered out (l ++ [v]) := by
  intro before x after heq w hw
  rcases List.eq_nil_or_concat after with rfl | ⟨init, last, rfl⟩
  · obtain ⟨rfl, hx⟩ := List.append_inj' heq rfl
    obtain rfl : v = x := by simpa using hx
    exact hv w hw
  · rw [List.concat_eq_append, ← List.cons_append, ← List.append_assoc] at heq
    obtain ⟨hinit, -⟩ := List.append_inj' heq rfl
    exact h before x init hinit w hw

/-- What a vertex leads to comes before it. -/
theorem Ordered.mem_of_transGen (h : Ordered out l) {before after : List V}
    (heq : l = before ++ v :: after) (hw : Relation.TransGen (Edge out) v w) : w ∈ before := by
  induction hw with
  | single hedge => exact h before v after heq _ hedge
  | @tail x w _ hedge ih =>
    obtain ⟨first, last, rfl⟩ := List.append_of_mem ih
    have hmem := h first x (last ++ v :: after) (by rw [heq]; simp) w hedge
    exact List.mem_append_left _ hmem

theorem Ordered.of_concat (h : Ordered out (l ++ [v])) : Ordered out l := by
  rintro before x after rfl
  exact h before x (after ++ [v]) (by simp)

/-- **Nothing leads to what comes after it.** -/
theorem Ordered.pairwise (h : Ordered out l) (hnodup : l.Nodup) :
    l.Pairwise fun a b ↦ ¬Relation.TransGen (Edge out) a b := by
  induction l using List.reverseRecOn with
  | nil => exact List.Pairwise.nil
  | append_singleton l v ih =>
    obtain ⟨hnodup, -, hdisjoint⟩ := List.nodup_append'.1 hnodup
    refine List.pairwise_append.2 ⟨ih h.of_concat hnodup, List.pairwise_singleton _ _, ?_⟩
    intro a ha b hb hlead
    obtain rfl := List.mem_singleton.1 hb
    obtain ⟨before, after, rfl⟩ := List.append_of_mem ha
    have heq : (before ++ a :: after) ++ [b] = before ++ a :: (after ++ [b]) := by simp
    have hmem := h.mem_of_transGen heq hlead
    exact hdisjoint (List.mem_append_left _ hmem) (List.mem_singleton_self _)

/-! ### The walk -/

theorem Grown.refl (hmem : ∀ v ∈ vs, v ∈ s.entered) : Grown out vs s s where
  isPrefix := List.prefix_refl _
  subset := Finset.Subset.refl _
  mem := hmem
  reached _ hw := .inl hw

/-- What one walk adds, and the walks after it. -/
theorem Grown.trans (h : Grown out [v] s t) (h' : Grown out vs t u) : Grown out (v :: vs) s u where
  isPrefix := h.isPrefix.trans h'.isPrefix
  subset := h.subset.trans h'.subset
  mem := by
    intro w hw
    rcases List.mem_cons.1 hw with rfl | hw
    · exact h'.subset (h.mem w List.mem_cons_self)
    · exact h'.mem w hw
  reached := by
    intro w hw
    rcases h'.reached w hw with hw | ⟨x, hx, hreach⟩
    · rcases h.reached w hw with hw | ⟨x, hx, hreach⟩
      · exact .inl hw
      · exact .inr ⟨x, List.mem_cons.2 (.inl (List.mem_singleton.1 hx)), hreach⟩
    · exact .inr ⟨x, List.mem_cons_of_mem _ hx, hreach⟩

section Walk

variable [DecidableEq V]

theorem visit_of_mem (h : v ∈ s.entered) : visit out n v s = s := by
  cases n with
  | zero => rfl
  | succ n => rw [visit, if_pos h]

/-- A walk enters its vertex, walks from the successors, and leaves it. -/
theorem visit_succ (h : v ∉ s.entered) : visit out (n + 1) v s =
    ⟨(visitAll out n (out v) ⟨insert v s.entered, s.left⟩).entered,
      (visitAll out n (out v) ⟨insert v s.entered, s.left⟩).left ++ [v]⟩ := by
  rw [visit, if_neg h]
  rfl

/-- The vertices that are still to be entered are fewer than the fuel. -/
def Fuelled (out : V → List V) (U : Finset V) (n : ℕ) (s : Walked V) : Prop :=
  (∀ v ∈ U, ∀ w ∈ out v, w ∈ U) ∧ (U \ s.entered).card ≤ n

theorem Fuelled.mono (h : Fuelled out U n s) (hsub : s.entered ⊆ t.entered) : Fuelled out U n t :=
  ⟨h.1, (Finset.card_le_card (Finset.sdiff_subset_sdiff (Finset.Subset.refl _) hsub)).trans h.2⟩

/-- Entering a vertex uses up one step. -/
theorem Fuelled.enter (h : Fuelled out U (n + 1) s) (hU : v ∈ U) (hv : v ∉ s.entered) :
    Fuelled out U n ⟨insert v s.entered, l⟩ := by
  refine ⟨h.1, Nat.le_of_lt_succ (lt_of_lt_of_le (Finset.card_lt_card ?_) h.2)⟩
  refine Finset.ssubset_iff_of_subset ?_ |>.2 ⟨v, ?_, ?_⟩
  · exact Finset.sdiff_subset_sdiff (Finset.Subset.refl _) (Finset.subset_insert _ _)
  · exact Finset.mem_sdiff.2 ⟨hU, hv⟩
  · intro hmem
    exact (Finset.mem_sdiff.1 hmem).2 (Finset.mem_insert_self _ _)

/-- A vertex that is entered is on the top of the stack. -/
theorem Walking.enter (h : Walking out stack s) (hv : v ∉ s.entered) :
    Walking out (insert v stack) ⟨insert v s.entered, s.left⟩ where
  mem_entered w := by
    rw [Finset.mem_insert, Finset.mem_insert, h.mem_entered, or_assoc]
  apart := by
    intro w hw hleft
    rcases Finset.mem_insert.1 hw with rfl | hw
    · exact hv ((h.mem_entered _).2 (.inr hleft))
    · exact h.apart w hw hleft
  nodup := h.nodup
  ordered := h.ordered

/-- Leaving the vertex on the top of the stack, whose successors have been entered. -/
theorem Walking.leave (h : Walking out (insert v stack) s) (hv : v ∉ stack)
    (hlead : ∀ g ∈ stack, Relation.TransGen (Edge out) g v)
    (hout : ∀ w ∈ out v, w ∈ s.entered) :
    Walking out stack ⟨s.entered, s.left ++ [v]⟩ where
  mem_entered w := by
    rw [h.mem_entered, Finset.mem_insert, List.mem_append, List.mem_singleton]
    tauto
  apart := by
    intro w hw hleft
    rcases List.mem_append.1 hleft with hleft | hleft
    · exact h.apart w (Finset.mem_insert_of_mem hw) hleft
    · exact hv (List.mem_singleton.1 hleft ▸ hw)
  nodup := by
    refine h.nodup.append (List.nodup_singleton _) ?_
    rw [List.disjoint_singleton]
    exact h.apart v (Finset.mem_insert_self _ _)
  ordered hacyclic := by
    refine (h.ordered hacyclic).concat fun w hw ↦ ?_
    rcases (h.mem_entered w).1 (hout w hw.1) with hstack | hleft
    · rcases Finset.mem_insert.1 hstack with rfl | hstack
      · exact absurd rfl hw.2
      · exact absurd ((hlead w hstack).tail hw) (hacyclic w)
    · exact hleft

/-- **A walk leaves what it has entered, each vertex after its successors**, by induction on the
fuel and, for the successors of a vertex, on their list. -/
theorem Walking.visit (n : ℕ) : ∀ {v : V} {stack : Finset V} {s : Walked V},
    Walking out stack s → (∀ g ∈ stack, v ∈ s.entered ∨ Relation.TransGen (Edge out) g v) →
    v ∈ U → Fuelled out U n s →
    Walking out stack (visit out n v s) ∧ Grown out [v] s (visit out n v s) := by
  induction n with
  | zero =>
    intro v stack s h _ hU hfuel
    have hmem : v ∈ s.entered := by
      by_contra hv
      have hempty := Finset.card_eq_zero.1 (Nat.le_zero.1 hfuel.2)
      exact Finset.notMem_empty v (hempty ▸ Finset.mem_sdiff.2 ⟨hU, hv⟩)
    rw [visit_of_mem hmem]
    exact ⟨h, Grown.refl (by simpa using hmem)⟩
  | succ n ih =>
    intro v stack s h hlead hU hfuel
    by_cases hv : v ∈ s.entered
    · rw [visit_of_mem hv]
      exact ⟨h, Grown.refl (by simpa using hv)⟩
    have hlead : ∀ g ∈ stack, Relation.TransGen (Edge out) g v := fun g hg ↦
      (hlead g hg).resolve_left hv
    have hnot : v ∉ stack := fun hstack ↦ hv ((h.mem_entered v).2 (.inl hstack))
    -- The walks from the successors, with `v` on the stack.
    have hall : ∀ (vs : List V) (s : Walked V), (∀ w ∈ vs, w ∈ out v) →
        Walking out (insert v stack) s → Fuelled out U n s →
        Walking out (insert v stack) (visitAll out n vs s) ∧
          Grown out vs s (visitAll out n vs s) := by
      intro vs
      induction vs with
      | nil => exact fun s _ h _ ↦ ⟨h, Grown.refl fun _ hw ↦ absurd hw List.not_mem_nil⟩
      | cons w vs ihvs =>
        intro s hvs h hfuel
        have hw := hvs w List.mem_cons_self
        have hstep := ih h (v := w) (fun g hg ↦ ?_) (hfuel.1 v hU w hw) hfuel
        · obtain ⟨hrest, hgrown⟩ := ihvs _ (fun x hx ↦ hvs x (List.mem_cons_of_mem _ hx)) hstep.1
            (hfuel.mono hstep.2.subset)
          exact ⟨hrest, hstep.2.trans hgrown⟩
        · by_cases hwv : w = v
          · exact .inl (hwv ▸ (h.mem_entered v).2 (.inl (Finset.mem_insert_self _ _)))
          · rcases Finset.mem_insert.1 hg with rfl | hg
            · exact .inr (.single ⟨hw, hwv⟩)
            · exact .inr ((hlead g hg).tail ⟨hw, hwv⟩)
    obtain ⟨hwalking, hgrown⟩ := hall (out v) _ (fun _ hw ↦ hw) (h.enter hv) (hfuel.enter hU hv)
    rw [visit_succ hv]
    refine ⟨hwalking.leave hnot hlead fun w hw ↦ hgrown.mem w hw, ?_, ?_, ?_, ?_⟩
    · exact hgrown.isPrefix.trans (List.prefix_append _ _)
    · exact (Finset.subset_insert _ _).trans hgrown.subset
    · intro w hw
      rw [List.mem_singleton.1 hw]
      exact hgrown.subset (Finset.mem_insert_self _ _)
    · intro w hw
      rcases List.mem_append.1 hw with hw | hw
      · rcases hgrown.reached w hw with hw | ⟨x, hx, hreach⟩
        · exact .inl hw
        · exact .inr ⟨v, List.mem_singleton_self _, hreach.head hx⟩
      · rw [List.mem_singleton.1 hw]
        exact .inr ⟨v, List.mem_singleton_self _, .refl⟩

theorem Walking.visitAll (h : Walking out ∅ s) (hU : ∀ v ∈ vs, v ∈ U) (hfuel : Fuelled out U n s) :
    Walking out ∅ (visitAll out n vs s) ∧ Grown out vs s (visitAll out n vs s) := by
  induction vs generalizing s with
  | nil => exact ⟨h, Grown.refl fun _ hw ↦ absurd hw List.not_mem_nil⟩
  | cons v vs ih =>
    have hstep := h.visit n (v := v) (fun g hg ↦ absurd hg (Finset.notMem_empty g))
      (hU v List.mem_cons_self) hfuel
    obtain ⟨hrest, hgrown⟩ := ih hstep.1 (fun w hw ↦ hU w (List.mem_cons_of_mem _ hw))
      (hfuel.mono hstep.2.subset)
    exact ⟨hrest, hstep.2.trans hgrown⟩

/-- **The walk over all vertices** lists each of them once, after its successors where the graph has
no cycle. -/
theorem visitAll_spec (hnodup : vs.Nodup) (hclosed : ∀ v ∈ vs, ∀ w ∈ out v, w ∈ vs) :
    (visitAll out vs.length vs ⟨∅, []⟩).left.Perm vs ∧
      (Acyclic out → Ordered out (visitAll out vs.length vs ⟨∅, []⟩).left) := by
  have hstart : Walking out ∅ ⟨∅, []⟩ :=
    ⟨by simp, by simp, List.nodup_nil, fun _ ↦ ordered_nil⟩
  have hfuel : Fuelled out vs.toFinset vs.length ⟨∅, []⟩ :=
    ⟨by simpa using hclosed, by simpa using List.toFinset_card_le vs⟩
  have hself : ∀ v ∈ vs, v ∈ vs.toFinset := by simp
  obtain ⟨hwalking, hgrown⟩ := hstart.visitAll hself hfuel
  refine ⟨(List.perm_ext_iff_of_nodup hwalking.nodup hnodup).2 fun w ↦ ⟨fun hw ↦ ?_, fun hw ↦ ?_⟩,
    hwalking.ordered⟩
  · rcases hgrown.reached w hw with hw | ⟨v, hv, hreach⟩
    · exact absurd hw List.not_mem_nil
    · clear hw
      induction hreach with
      | refl => exact hv
      | tail _ hedge ih => exact hclosed _ ih _ hedge
  · exact ((hwalking.mem_entered w).1 (hgrown.mem w hw)).resolve_left (Finset.notMem_empty w)

end Walk

end PostOrder
