import Mathlib.Data.List.Basic
import RustCodeMcp.Codec.Marks

/-!
# Streams of lines

A line of a stream begins where the stream does, or after a mark, and ends at the next mark. What
comes after the last mark is not a line yet. The lines of a stream that was put together of lines
are these (`isLine_flatten`): so a line that lacks its mark, and has another after it, makes one
line of two.

Lines are found in a stream by where they begin and end (`IsLine`), not by splitting it, so that one
can speak of the lines of a stream that is still being written, or that was cut off in the middle of
one. **A line that was never ended and one that comes after it make a single line**, which belongs
to neither of their writers.
-/

namespace Marks

variable {α : Type*} {mark : α} {line rest stream s t : List α}

/-- A line ends at its only mark. -/
def Ended (mark : α) (line : List α) : Prop :=
  ∃ word, mark ∉ word ∧ line = word ++ [mark]

/-- After so much of a stream a line begins. -/
def Begins (mark : α) (before : List α) : Prop :=
  ∀ a ∈ before.getLast?, a = mark

/-- A line of the stream: it begins after so much of it, and ends at the next mark. -/
def IsLine (mark : α) (stream line : List α) : Prop :=
  Ended mark line ∧ ∃ before after, stream = before ++ line ++ after ∧ Begins mark before

/-- What comes after the last mark, if anything does. -/
def IsRest (mark : α) (stream rest : List α) : Prop :=
  mark ∉ rest ∧ rest ≠ [] ∧ ∃ before, stream = before ++ rest ∧ Begins mark before

theorem begins_nil : Begins mark [] :=
  nofun

theorem Ended.begins_append (h : Ended mark line) : Begins mark (s ++ line) := by
  obtain ⟨word, -, rfl⟩ := h
  intro a ha
  rw [← List.append_assoc, List.getLast?_append] at ha
  exact (Option.some.inj ha).symm

theorem begins_flatten {lines : List (List α)} (h : ∀ line ∈ lines, Ended mark line) :
    Begins mark lines.flatten := by
  rcases List.eq_nil_or_concat lines with rfl | ⟨lines, line, rfl⟩
  · exact begins_nil
  · rw [List.concat_eq_append, List.flatten_append, List.flatten_singleton]
    exact (h line (by simp)).begins_append

/-- What is a line of a stream stays one, whatever is written behind it. -/
theorem IsLine.append (h : IsLine mark stream line) (t : List α) :
    IsLine mark (stream ++ t) line := by
  obtain ⟨hended, before, after, rfl, hbefore⟩ := h
  exact ⟨hended, before, after ++ t, List.append_assoc _ _ _, hbefore⟩

/-- The first line of a stream, or one of the rest. -/
theorem isLine_append_iff (h : Ended mark line) {l : List α} :
    IsLine mark (line ++ stream) l ↔ l = line ∨ IsLine mark stream l := by
  obtain ⟨word, hword, rfl⟩ := h
  constructor
  · rintro ⟨⟨word', hword', rfl⟩, before, after, heq, hbefore⟩
    by_cases hmark : mark ∈ before
    · obtain ⟨first, before, rfl, hfirst⟩ := List.eq_append_cons_of_mem hmark
      simp only [List.append_assoc, List.cons_append, List.nil_append] at heq
      obtain ⟨rfl, heq⟩ := append_inj_of_mark hword hfirst (by simp) (by simp) heq
      refine .inr ⟨⟨word', hword', rfl⟩, before, after, ?_, fun a ha ↦ hbefore a ?_⟩
      · simpa using heq
      · rw [List.getLast?_append, List.getLast?_cons, ha]
        rfl
    · -- a line that begins before a mark begins at once
      have hnil : before = [] := by
        rcases List.eq_nil_or_concat before with hnil | ⟨before, a, rfl⟩
        · exact hnil
        · have ha := hbefore a (by simp)
          exact absurd (by simp [ha]) hmark
      subst hnil
      simp only [List.append_assoc, List.cons_append, List.nil_append] at heq
      obtain ⟨rfl, -⟩ := append_inj_of_mark hword hword' (by simp) (by simp) heq
      exact .inl rfl
  · rintro (rfl | ⟨hended, before, after, rfl, hbefore⟩)
    · exact ⟨⟨word, hword, rfl⟩, [], stream, rfl, begins_nil⟩
    · refine ⟨hended, word ++ [mark] ++ before, after, by simp, fun a ha ↦ ?_⟩
      rw [List.getLast?_append] at ha
      rcases hlast : before.getLast? with - | b
      · rw [hlast, List.getLast?_append] at ha
        exact (Option.some.inj ha).symm
      · rw [hlast] at ha
        obtain rfl := Option.some.inj ha
        exact hbefore _ hlast

/-- **A stream put together of lines has these.** -/
theorem isLine_flatten {lines : List (List α)} (h : ∀ line ∈ lines, Ended mark line)
    (hrest : mark ∉ rest) {l : List α} : IsLine mark (lines.flatten ++ rest) l ↔ l ∈ lines := by
  induction lines with
  | nil =>
    refine ⟨fun hl ↦ ?_, nofun⟩
    obtain ⟨⟨word, -, rfl⟩, before, after, heq, -⟩ := hl
    refine absurd ?_ hrest
    rw [List.flatten_nil, List.nil_append] at heq
    simp [heq]
  | cons line lines ih =>
    rw [List.flatten_cons, List.append_assoc, isLine_append_iff (h line List.mem_cons_self),
      ih fun l hl ↦ h l (List.mem_cons_of_mem _ hl), List.mem_cons]

/-- Something without a mark after ended lines is not a line yet. -/
theorem isRest_append (h : Begins mark s) (hrest : mark ∉ rest) (hne : rest ≠ []) :
    IsRest mark (s ++ rest) rest :=
  ⟨hrest, hne, s, rfl, h⟩

/-- What comes after the last mark is so in one way. -/
theorem IsRest.eq (h : IsRest mark (s ++ t) rest) (hs : Begins mark s) (ht : mark ∉ t) :
    rest = t := by
  obtain ⟨hrest, -, before, heq, hbefore⟩ := h
  have hreverse := congrArg List.reverse heq
  rw [List.reverse_append, List.reverse_append] at hreverse
  obtain ⟨hword, -⟩ := append_inj_of_mark (by rwa [List.mem_reverse]) (by rwa [List.mem_reverse])
    (by rwa [List.head?_reverse]) (by rwa [List.head?_reverse]) hreverse
  exact (List.reverse_injective hword).symm

theorem Ended.mem (h : Ended mark line) : mark ∈ line := by
  obtain ⟨word, -, rfl⟩ := h
  simp

/-- Of lines that have all ended nothing is left over. -/
theorem not_isRest_flatten {lines : List (List α)} (h : ∀ line ∈ lines, Ended mark line) :
    ¬IsRest mark lines.flatten rest := fun hrest ↦ by
  rw [← List.append_nil lines.flatten] at hrest
  exact hrest.2.1 (hrest.eq (begins_flatten h) nofun)

/-- In a stream of lines of which only the last may lack its mark, no two are one line. -/
theorem mem_of_pairwise {lines : List (List α)} (h : lines.Pairwise fun line _ ↦ Ended mark line)
    (hlast : ∀ line ∈ lines, Ended mark line ∨ mark ∉ line) :
    (∀ l, IsLine mark lines.flatten l → l ∈ lines) ∧
      ∀ r, IsRest mark lines.flatten r → r ∈ lines ∧ mark ∉ r := by
  have hended : (∀ line ∈ lines, Ended mark line) → (∀ l, IsLine mark lines.flatten l → l ∈ lines) ∧
      ∀ r, IsRest mark lines.flatten r → r ∈ lines ∧ mark ∉ r := by
    intro hall
    refine ⟨fun l hl ↦ ?_, fun r hr ↦ absurd hr (not_isRest_flatten hall)⟩
    rw [← List.append_nil lines.flatten] at hl
    exact (isLine_flatten hall List.not_mem_nil).1 hl
  rcases List.eq_nil_or_concat lines with rfl | ⟨lines, last, rfl⟩
  · exact hended nofun
  rw [List.concat_eq_append] at h hlast hended ⊢
  have hinit : ∀ line ∈ lines, Ended mark line := fun line hline ↦
    (List.pairwise_append.1 h).2.2 line hline last (List.mem_singleton_self _)
  rcases hlast last (by simp) with hmarked | hnot
  · refine hended fun line hline ↦ ?_
    rcases List.mem_append.1 hline with hline | hline
    · exact hinit line hline
    · exact List.mem_singleton.1 hline ▸ hmarked
  · rw [List.flatten_append, List.flatten_singleton]
    refine ⟨fun l hl ↦ List.mem_append_left _ ((isLine_flatten hinit hnot).1 hl), fun r hr ↦ ?_⟩
    obtain rfl := hr.eq (begins_flatten hinit) hnot
    exact ⟨by simp, hnot⟩

end Marks
