import Mathlib.Data.List.Basic

/-!
# Computations that ended well

What can be read off an `Except` that is `ok`: every step before the end was.

Steps come one after another with `do`, and loops are `foldlM` and `mapM` over lists; so what is
needed is what a loop that ended well has done, and when a loop does.
-/

namespace Effect

variable {ε σ α β : Type}

theorem ok_of_bind {x : Except ε α} {f : α → Except ε β} {b : β} (h : x >>= f = .ok b) :
    ∃ a, x = .ok a ∧ f a = .ok b := by
  rcases x with e | a
  · cases h
  · exact ⟨a, rfl, h⟩

/-- A loop that ends well has done each of its steps. -/
theorem ok_of_foldlM {f : σ → α → Except ε σ} :
    ∀ {l : List α} {s t : σ}, l.foldlM f s = .ok t → ∀ a ∈ l, ∃ s' t', f s' a = .ok t'
  | b :: l, s, t, h, a, ha => by
    rw [List.foldlM_cons] at h
    obtain ⟨s', hb, hl⟩ := ok_of_bind h
    rcases List.mem_cons.1 ha with rfl | ha
    · exact ⟨s, s', hb⟩
    · exact ok_of_foldlM hl a ha

/-- A loop of steps that all end well ends well. -/
theorem mapM_eq_ok {f : α → Except ε β} {g : α → β} :
    ∀ {l : List α}, (∀ a ∈ l, f a = .ok (g a)) → l.mapM f = .ok (l.map g)
  | [], _ => rfl
  | a :: l, h => by
    rw [List.mapM_cons, h a List.mem_cons_self,
      mapM_eq_ok fun b hb ↦ h b (List.mem_cons_of_mem a hb)]
    rfl

end Effect
