import Mathlib.Data.List.Basic

/-!
# Fields of a text

A text split at every separator, or at the first one. Fields without the separator come out of a
text they were joined into.

Formats with one separator are read by taking a field off at a time, which is what the lemmas here
do.
-/

namespace Fields

variable {α : Type} [DecidableEq α] {sep : α} {field before after rest : List α}

/-- The fields of a text. There is always one. -/
def split (sep : α) : List α → List (List α)
  | [] => [[]]
  | c :: rest =>
    if c = sep then [] :: split sep rest
    else
      match split sep rest with
      | [] => [[c]]
      | first :: more => (c :: first) :: more

/-- What stands before and after the first separator. -/
def splitOnce (sep : α) : List α → Option (List α × List α)
  | [] => none
  | c :: rest =>
    if c = sep then some ([], rest)
    else (splitOnce sep rest).map fun (before, after) ↦ (c :: before, after)

/-- A field that is followed by a separator comes out first. -/
theorem split_append (h : sep ∉ field) (rest : List α) :
    split sep (field ++ sep :: rest) = field :: split sep rest := by
  induction field with
  | nil => rw [List.nil_append, split, if_pos rfl]
  | cons c field ih =>
    obtain ⟨hc, hfield⟩ := not_or.1 (List.mem_cons.not.1 h)
    rw [List.cons_append, split, if_neg (Ne.symm hc), ih hfield]

theorem split_of_notMem (h : sep ∉ field) : split sep field = [field] := by
  induction field with
  | nil => rfl
  | cons c field ih =>
    obtain ⟨hc, hfield⟩ := not_or.1 (List.mem_cons.not.1 h)
    rw [split, if_neg (Ne.symm hc), ih hfield]

/-- The first separator is found. -/
theorem splitOnce_append (h : sep ∉ before) (after : List α) :
    splitOnce sep (before ++ sep :: after) = some (before, after) := by
  induction before with
  | nil => rw [List.nil_append, splitOnce, if_pos rfl]
  | cons c before ih =>
    obtain ⟨hc, hbefore⟩ := not_or.1 (List.mem_cons.not.1 h)
    rw [List.cons_append, splitOnce, if_neg (Ne.symm hc), ih hbefore]
    rfl

theorem splitOnce_of_notMem {text : List α} (h : sep ∉ text) : splitOnce sep text = none := by
  induction text with
  | nil => rfl
  | cons c text ih =>
    obtain ⟨hc, htext⟩ := not_or.1 (List.mem_cons.not.1 h)
    rw [splitOnce, if_neg (Ne.symm hc), ih htext]
    rfl

end Fields
