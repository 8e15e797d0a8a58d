import Mathlib.Data.Set.Function

/-!
# Hash trees

A binary tree with digests at its leaves is hashed up to its root. Where hashing is injective on the
pairs that occur, two trees have one root exactly when they coincide (`value_eq_iff`): leaf against
leaf the digests are equal, and where one tree ends and the other goes on, what goes on hashes to
the leaf. So two trees of one shape have one root exactly when they have the same leaves
(`coincides_map`).

Nothing is assumed of the digest but what the statement names: that no two different pairs on the
way up to the two roots are combined to one value. For a real digest that is no theorem, and so it
is a condition on the trees at hand, not on the function; and **a leaf may be what a pair hashes
to**, which is why trees of different shape can have one root without any collision.
-/

/-- A binary tree with values at its leaves. -/
inductive HashTree (D : Type*)
  | leaf (d : D)
  | node (left right : HashTree D)

namespace HashTree

variable {D E : Type*}

/-- The leaves from left to right. -/
def leaves : HashTree D → List D
  | leaf d => [d]
  | node left right => left.leaves ++ right.leaves

/-- The same tree with other values. -/
def map (f : E → D) : HashTree E → HashTree D
  | leaf e => leaf (f e)
  | node left right => node (left.map f) (right.map f)

variable (combine : D → D → D)

/-- The root. -/
def value : HashTree D → D
  | leaf d => d
  | node left right => combine left.value right.value

/-- The pairs that are hashed on the way to the root. -/
def pairs : HashTree D → List (D × D)
  | leaf _ => []
  | node left right => (left.value combine, right.value combine) :: (left.pairs ++ right.pairs)

/-- The trees are the same as far as both go, and where one ends, its leaf is what the rest of the
other hashes to. -/
def Coincides : HashTree D → HashTree D → Prop
  | leaf d, t => d = t.value combine
  | t, leaf d => t.value combine = d
  | node left right, node left' right' => left.Coincides left' ∧ right.Coincides right'

variable {combine}

/-- **The roots are equal exactly when the trees coincide.** -/
theorem value_eq_iff {t t' : HashTree D}
    (hinj : Set.InjOn (Function.uncurry combine) {p | p ∈ t.pairs combine ∨ p ∈ t'.pairs combine}) :
    t.value combine = t'.value combine ↔ t.Coincides combine t' := by
  induction t generalizing t' with
  | leaf d => exact Iff.rfl
  | node left right ihl ihr =>
    cases t' with
    | leaf d => exact Iff.rfl
    | node left' right' =>
      -- The pairs of the subtrees are among those of the trees.
      have hleft := ihl (hinj.mono fun p hp ↦ hp.imp
        (fun h ↦ List.mem_cons_of_mem _ (List.mem_append_left _ h))
        fun h ↦ List.mem_cons_of_mem _ (List.mem_append_left _ h))
      have hright := ihr (hinj.mono fun p hp ↦ hp.imp
        (fun h ↦ List.mem_cons_of_mem _ (List.mem_append_right _ h))
        fun h ↦ List.mem_cons_of_mem _ (List.mem_append_right _ h))
      rw [Coincides, ← hleft, ← hright, ← Prod.mk.injEq]
      exact ⟨fun h ↦ hinj (.inl List.mem_cons_self) (.inr List.mem_cons_self) h,
        congrArg (Function.uncurry combine)⟩

/-- Trees of one shape coincide when their leaves do. -/
theorem coincides_map {t : HashTree E} {f g : E → D} :
    (t.map f).Coincides combine (t.map g) ↔ ∀ e ∈ t.leaves, f e = g e := by
  induction t with
  | leaf e =>
    show f e = g e ↔ ∀ e' ∈ [e], f e' = g e'
    rw [List.forall_mem_singleton]
  | node left right ihl ihr =>
    rw [leaves, List.forall_mem_append, ← ihl, ← ihr]
    exact Iff.rfl

end HashTree
