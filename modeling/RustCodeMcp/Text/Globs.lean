import Mathlib.Data.List.Infix

/-!
# Globs

A pattern over any alphabet in which one letter, `star`, stands for every word. Splitting the
pattern at its stars leaves its parts, and a word fits when it is made of them with words in between
(`spells_splitOn`). A part that is to be followed by others may be placed at its first occurrence:
what is left behind an earlier place ends in all that is left behind a later one (`after_first`).
-/

namespace Glob

variable {α : Type*}

/-- The word comes of the pattern when each star is replaced with some word. -/
inductive Replaces (star : α) : List α → List α → Prop
  | nil : Replaces star [] []
  | star {pattern text : List α} (word : List α) : Replaces star pattern text →
      Replaces star (star :: pattern) (word ++ text)
  | letter {a : α} {pattern text : List α} : a ≠ star → Replaces star pattern text →
      Replaces star (a :: pattern) (a :: text)

/-- The word is made of the parts, with words in between. -/
def Spells : List (List α) → List α → Prop
  | [], text => text = []
  | [part], text => text = part
  | part :: next :: parts, text => ∃ rest tail, text = part ++ rest ∧ tail <:+ rest ∧
      Spells (next :: parts) tail

/-- Some word stands before the parts. -/
def After (parts : List (List α)) (text : List α) : Prop :=
  ∃ tail, tail <:+ text ∧ Spells parts tail

variable {star a : α} {part next pattern text rest : List α} {parts : List (List α)}

/-- The first part begins the word, and the others come after it. -/
theorem spells_cons (h : parts ≠ []) :
    Spells (part :: parts) text ↔ ∃ rest, text = part ++ rest ∧ After parts rest := by
  obtain ⟨next, parts, rfl⟩ := List.exists_cons_of_ne_nil h
  simp only [Spells, After]
  constructor
  · rintro ⟨rest, tail, rfl, htail, hspells⟩
    exact ⟨rest, rfl, tail, htail, hspells⟩
  · rintro ⟨rest, rfl, tail, htail, hspells⟩
    exact ⟨rest, tail, rfl, htail, hspells⟩

theorem After.mono (h : After parts text) (hsub : text <:+ rest) : After parts rest := by
  obtain ⟨tail, htail, hspells⟩ := h
  exact ⟨tail, htail.trans hsub, hspells⟩

theorem after_single : After [part] text ↔ part <:+ text := by
  constructor
  · rintro ⟨_, htail, rfl⟩
    exact htail
  · exact fun h ↦ ⟨part, h, rfl⟩

theorem after_nil (h : parts ≠ []) : After ([] :: parts) text ↔ After parts text := by
  constructor
  · rintro ⟨tail, htail, hspells⟩
    obtain ⟨rest, rfl, hafter⟩ := (spells_cons h).1 hspells
    exact hafter.mono htail
  · exact fun hafter ↦ ⟨text, List.suffix_rfl, (spells_cons h).2 ⟨text, rfl, hafter⟩⟩

/-- **A part may be placed at its first occurrence.** -/
theorem after_first {before : List α} (h : parts ≠ [])
    (hfirst : ∀ before' rest', text = before' ++ (part ++ rest') → before.length ≤ before'.length)
    (htext : text = before ++ (part ++ rest)) : After (part :: parts) text ↔ After parts rest := by
  constructor
  · rintro ⟨tail, ⟨before', heq⟩, hspells⟩
    obtain ⟨rest', rfl, hafter⟩ := (spells_cons h).1 hspells
    refine hafter.mono ?_
    -- Both rests end the word, and this one is no longer.
    have hle := hfirst before' rest' heq.symm
    have hlength := congrArg List.length (heq.trans htext)
    simp only [List.length_append] at hlength
    have htail : rest' <:+ text := ⟨before' ++ part, by rw [List.append_assoc, heq]⟩
    have hrest : rest <:+ text := ⟨before ++ part, by rw [List.append_assoc, htext]⟩
    exact List.suffix_of_suffix_length_le htail hrest (by omega)
  · intro hafter
    exact ⟨part ++ rest, ⟨before, htext.symm⟩, (spells_cons h).2 ⟨rest, rfl, hafter⟩⟩

/-- A part that does not occur cannot be placed. -/
theorem not_after_of_not_infix (h : parts ≠ []) (hnot : ¬ part <:+: text) :
    ¬ After (part :: parts) text := by
  rintro ⟨tail, ⟨before, rfl⟩, hspells⟩
  obtain ⟨rest, rfl, -⟩ := (spells_cons h).1 hspells
  exact hnot ⟨before, rest, List.append_assoc ..⟩

/-! ### The parts of a pattern -/

/-- A star stands for what is left out of the word. -/
theorem replaces_star_cons :
    Replaces star (star :: pattern) text ↔ ∃ tail, tail <:+ text ∧ Replaces star pattern tail := by
  constructor
  · intro h
    cases h with
    | star word h => exact ⟨_, ⟨word, rfl⟩, h⟩
    | letter hne => exact absurd rfl hne
  · rintro ⟨tail, ⟨word, rfl⟩, h⟩
    exact .star word h

theorem replaces_letter_cons (hne : a ≠ star) :
    Replaces star (a :: pattern) text ↔ ∃ rest, text = a :: rest ∧ Replaces star pattern rest := by
  constructor
  · intro h
    cases h with
    | star => exact absurd rfl hne
    | letter _ h => exact ⟨_, rfl, h⟩
  · rintro ⟨rest, rfl, h⟩
    exact .letter hne h

/-- A letter in front of the first part is one in front of the word. -/
theorem spells_modifyHead (h : parts ≠ []) : Spells (parts.modifyHead (List.cons a)) text ↔
    ∃ rest, text = a :: rest ∧ Spells parts rest := by
  obtain ⟨part, parts, rfl⟩ := List.exists_cons_of_ne_nil h
  rw [List.modifyHead_cons]
  rcases parts with - | ⟨next, parts⟩
  · simp [Spells]
  · simp only [Spells, List.cons_append]
    constructor
    · rintro ⟨rest, tail, rfl, htail⟩
      exact ⟨_, rfl, rest, tail, rfl, htail⟩
    · rintro ⟨_, rfl, rest, tail, rfl, htail⟩
      exact ⟨rest, tail, rfl, htail⟩

/-- **A word fits a pattern when it is made of the parts between the stars.** -/
theorem spells_splitOn [DecidableEq α] :
    Spells (pattern.splitOn star) text ↔ Replaces star pattern text := by
  induction pattern generalizing text with
  | nil =>
    constructor
    · rintro rfl
      exact .nil
    · rintro ⟨⟩
      rfl
  | cons a pattern ih =>
    rw [List.splitOn_eq_splitOnP, List.splitOnP_cons_eq_if_modifyHead,
      ← List.splitOn_eq_splitOnP]
    by_cases ha : a = star
    · obtain rfl := ha
      rw [if_pos (beq_self_eq_true a), spells_cons (List.splitOn_ne_nil _ _), replaces_star_cons]
      simp only [List.nil_append, After, ih]
      exact ⟨fun ⟨_, h, h'⟩ ↦ h ▸ h', fun h ↦ ⟨text, rfl, h⟩⟩
    · rw [if_neg (by simpa using ha), spells_modifyHead (List.splitOn_ne_nil _ _),
        replaces_letter_cons ha]
      simp only [ih]

end Glob
