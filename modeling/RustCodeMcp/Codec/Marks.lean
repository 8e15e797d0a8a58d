import Mathlib.Data.List.Basic

/-!
# Words that end at a mark

A word without a mark in it is told from what follows, if that is nothing or begins with the mark.
So a sequence of records, each a word, a mark, a block of a fixed length and a mark, can be read
back (`flatMap_record_inj`).

Nothing is escaped: the records are told apart only because a name cannot hold the mark and a block
has a known length. A block may hold anything, the mark included, so it is the length that ends it
and the mark behind it is not looked for.
-/

namespace Marks

variable {α : Type*} {mark : α} {x y s t : List α}

/-- Up to the first mark, two words are the same when they are with what follows. -/
theorem append_inj_of_mark (hx : mark ∉ x) (hy : mark ∉ y) (hs : ∀ b ∈ s.head?, b = mark)
    (ht : ∀ b ∈ t.head?, b = mark) (h : x ++ s = y ++ t) : x = y ∧ s = t := by
  induction x generalizing y with
  | nil =>
    rcases y with - | ⟨b, y⟩
    · exact ⟨rfl, h⟩
    · -- the mark would be in `y`
      rw [List.nil_append] at h
      have hb := hs b (by simp [h])
      exact absurd (hb ▸ List.mem_cons_self) hy
  | cons a x ih =>
    rcases y with - | ⟨b, y⟩
    · rw [List.nil_append] at h
      have ha := ht a (by simp [← h])
      exact absurd (ha ▸ List.mem_cons_self) hx
    · rw [List.cons_append, List.cons_append, List.cons.injEq] at h
      obtain ⟨rfl, h⟩ := h
      obtain ⟨rfl, hst⟩ := ih (fun hmem ↦ hx (List.mem_cons_of_mem _ hmem))
        (fun hmem ↦ hy (List.mem_cons_of_mem _ hmem)) h
      exact ⟨rfl, hst⟩

/-- A word and a block, each with a mark after it. -/
def record (mark : α) (r : List α × List α) : List α :=
  r.1 ++ mark :: (r.2 ++ [mark])

theorem record_append_inj {r r' : List α × List α} (hr : mark ∉ r.1) (hr' : mark ∉ r'.1)
    (hlength : r.2.length = r'.2.length) (h : record mark r ++ s = record mark r' ++ t) :
    r = r' ∧ s = t := by
  simp only [record, List.append_assoc, List.cons_append, List.nil_append] at h
  obtain ⟨hword, h⟩ := append_inj_of_mark hr hr' (by simp) (by simp) h
  obtain ⟨hblock, h⟩ := List.append_inj (List.cons.inj h).2 hlength
  exact ⟨Prod.ext hword hblock, (List.cons.inj h).2⟩

/-- **A sequence of records can be read back** when no name has a mark and all blocks are equally
long. -/
theorem flatMap_record_inj {length : ℕ} {l l' : List (List α × List α)}
    (h : ∀ r ∈ l, mark ∉ r.1 ∧ r.2.length = length)
    (h' : ∀ r ∈ l', mark ∉ r.1 ∧ r.2.length = length)
    (heq : l.flatMap (record mark) = l'.flatMap (record mark)) : l = l' := by
  induction l generalizing l' with
  | nil =>
    rcases l' with - | ⟨r', l'⟩
    · rfl
    · simp [record] at heq
  | cons r l ih =>
    rcases l' with - | ⟨r', l'⟩
    · simp [record] at heq
    · obtain ⟨hr, hlength⟩ := h r List.mem_cons_self
      obtain ⟨hr', hlength'⟩ := h' r' List.mem_cons_self
      obtain ⟨rfl, hrest⟩ := record_append_inj hr hr' (hlength.trans hlength'.symm) heq
      rw [ih (fun x hx ↦ h x (List.mem_cons_of_mem _ hx))
        (fun x hx ↦ h' x (List.mem_cons_of_mem _ hx)) hrest]

end Marks
