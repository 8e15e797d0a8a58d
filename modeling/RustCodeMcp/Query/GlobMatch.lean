import RustCodeMcp.Text.Globs
import Mathlib.Algebra.GroupWithZero.Nat

/-!
# The patterns of the dependency rules

`globMatch` goes through the parts of a pattern with a cursor in the bytes of the text, and places
each part at its first occurrence from the cursor on, but for the first and the last one, which are
anchored. The cursor is always at the end of a placed part, so no slice is refused, and the first
occurrences are enough (`globMatch_eq`).

Taking first occurrences is right because each part may be placed as early as it can: what is left
of the text is then longest, and the next part is looked for in it. The last part is not placed but
compared with the end, since it has to reach there.
-/

namespace RustCodeMcp.Rules

open Glob

/-- Characters; a cursor counts their bytes. -/
abbrev Text := List Char

/-! ### Slices of a text -/

/-- `str::len` -/
def len (text : Text) : ℕ :=
  (text.map Char.utf8Size).sum

/-- `&text[cursor..]`, which panics inside a character and past the end. -/
def sliceFrom : Text → ℕ → Option Text
  | text, 0 => some text
  | [], _ + 1 => none
  | c :: text, cursor + 1 =>
    if c.utf8Size ≤ cursor + 1 then sliceFrom text (cursor + 1 - c.utf8Size) else none

/-- `str::find`: the byte where the part begins first. -/
def find (part : Text) : Text → Option ℕ
  | [] => if part.isEmpty then some 0 else none
  | c :: text =>
    if part.isPrefixOf (c :: text) then some 0 else (find part text).map (· + c.utf8Size)

/-! ### The matcher -/

/-- The loop over the parts from the `i`-th on; `none` is a panic. -/
def globParts (text : Text) (last : ℕ) : ℕ → List Text → ℕ → Option Bool
  | _, [], _ => some true
  | i, part :: parts, cursor =>
    if part.isEmpty then
      if i = last then some true else globParts text last (i + 1) parts cursor
    else do
      let rest ← sliceFrom text cursor
      if i = 0 then
        if part.isPrefixOf rest then globParts text last (i + 1) parts (cursor + len part)
        else some false
      else if i = last then
        some (part.isSuffixOf rest && decide (len part ≤ len text - cursor))
      else
        match find part rest with
        | some pos => globParts text last (i + 1) parts (cursor + (pos + len part))
        | none => some false

/-- Match a text with a pattern; `none` is a panic. -/
def globMatch (pattern text : Text) : Option Bool :=
  if pattern.contains '*' then
    let parts := pattern.splitOn '*'
    globParts text (parts.length - 1) 0 parts 0
  else some (pattern = text)

/-! ### Slices -/

variable {text part rest before : Text} {parts : List Text}

@[simp] theorem len_nil : len [] = 0 := rfl

@[simp] theorem len_append (a b : Text) : len (a ++ b) = len a + len b := by
  simp [len]

/-- **A cursor at the end of a prefix is at the beginning of a character.** -/
theorem sliceFrom_append (before rest : Text) :
    sliceFrom (before ++ rest) (len before) = some rest := by
  induction before with
  | nil =>
    rw [List.nil_append, len_nil]
    unfold sliceFrom
    rfl
  | cons c before ih =>
    have hlen : len (c :: before) = len before + c.utf8Size := by
      simp [len, Nat.add_comm]
    obtain ⟨n, hn⟩ : ∃ n, len before + c.utf8Size = n + 1 :=
      ⟨len before + c.utf8Size - 1, by have := c.utf8Size_pos; omega⟩
    rw [hlen, hn, List.cons_append, sliceFrom, if_pos (by omega), ← hn, Nat.add_sub_cancel, ih]

/-- What is found is there, and not before. -/
theorem find_eq_some {pos : ℕ} (h : find part text = some pos) :
    ∃ before rest, text = before ++ (part ++ rest) ∧ pos = len before ∧
      ∀ before' rest', text = before' ++ (part ++ rest') → before.length ≤ before'.length := by
  induction text generalizing pos with
  | nil =>
    rw [find] at h
    split at h
    · rename_i hempty
      obtain rfl := List.isEmpty_iff.1 hempty
      obtain rfl := Option.some.inj h
      exact ⟨[], [], rfl, rfl, fun _ _ _ ↦ Nat.zero_le _⟩
    · nomatch h
  | cons c text ih =>
    rw [find] at h
    split at h
    · rename_i hprefix
      obtain ⟨rest, hrest⟩ := List.isPrefixOf_iff_prefix.1 hprefix
      obtain rfl := Option.some.inj h
      exact ⟨[], rest, hrest.symm, rfl, fun _ _ _ ↦ Nat.zero_le _⟩
    · rename_i hprefix
      obtain ⟨pos', hpos', rfl⟩ := Option.map_eq_some_iff.1 h
      obtain ⟨before, rest, rfl, rfl, hfirst⟩ := ih hpos'
      refine ⟨c :: before, rest, rfl, by simp [len, Nat.add_comm], fun before' rest' heq ↦ ?_⟩
      rcases before' with - | ⟨c', before'⟩
      · exact absurd (List.isPrefixOf_iff_prefix.2 ⟨rest', heq.symm⟩) hprefix
      · exact Nat.succ_le_succ (hfirst before' rest' (List.cons.inj heq).2)

theorem find_eq_none (h : find part text = none) : ¬ part <:+: text := by
  induction text with
  | nil =>
    rw [find] at h
    rintro ⟨before, rest, heq⟩
    simp at heq
    simp [heq] at h
  | cons c text ih =>
    rw [find] at h
    split at h
    · nomatch h
    · rename_i hprefix
      rw [List.infix_cons_iff]
      rintro (hp | hp)
      · exact hprefix (List.isPrefixOf_iff_prefix.2 hp)
      · exact ih (Option.map_eq_none_iff.1 h) hp

/-! ### The loop -/

/-- Behind the first part. -/
theorem globParts_succ (last i : ℕ) (hparts : parts ≠ []) (hlast : i + parts.length = last + 1)
    (hi : i ≠ 0) :
    ∃ b, globParts (before ++ rest) last i parts (len before) = some b ∧
      (b = true ↔ After parts rest) := by
  induction parts generalizing before rest i with
  | nil => exact absurd rfl hparts
  | cons part parts ih =>
    rw [globParts]
    rcases parts with - | ⟨next, parts⟩
    · obtain rfl : i = last := by simpa using hlast
      rcases part with - | ⟨c, part⟩
      · exact ⟨true, by simp, by simp [after_single, List.nil_suffix]⟩
      · refine ⟨(c :: part).isSuffixOf rest && decide (len (c :: part) ≤ len rest),
          by simp [sliceFrom_append, hi], ?_⟩
        rw [after_single, Bool.and_eq_true, List.isSuffixOf_iff_suffix, decide_eq_true_eq,
          and_iff_left_iff_imp]
        rintro ⟨word, rfl⟩
        simp only [len_append]
        omega
    have hne : i ≠ last := by
      simp only [List.length_cons] at hlast
      omega
    have hnext := fun before rest ↦ @ih rest before (i + 1) (List.cons_ne_nil _ _)
      (by simp only [List.length_cons] at hlast ⊢; omega) (Nat.succ_ne_zero i)
    rcases part with - | ⟨c, part⟩
    · simp only [List.isEmpty_nil, if_true, if_neg hne, after_nil (List.cons_ne_nil _ _)]
      exact hnext before rest
    simp only [List.isEmpty_cons, Bool.false_eq_true, if_false, if_neg hi, if_neg hne,
      sliceFrom_append, Option.bind_eq_bind, Option.bind_some]
    rcases hfind : find (c :: part) rest with - | pos
    · exact ⟨false, rfl, by
        simpa using not_after_of_not_infix (List.cons_ne_nil _ _) (find_eq_none hfind)⟩
    · obtain ⟨word, tail, rfl, rfl, hfirst⟩ := find_eq_some hfind
      have := hnext (before ++ (word ++ (c :: part))) tail
      rw [len_append, len_append, List.append_assoc, List.append_assoc] at this
      rw [after_first (List.cons_ne_nil _ _) hfirst rfl]
      exact this

theorem exists_splitOn_of_mem {pattern : Text} (h : '*' ∈ pattern) :
    ∃ part next parts, pattern.splitOn '*' = part :: next :: parts := by
  obtain ⟨before, rest, rfl⟩ := List.append_of_mem h
  rw [List.splitOn_eq_splitOnP, List.splitOnP_append_cons (p := (· == '*')) _ _ rfl]
  obtain ⟨part, parts, hbefore⟩ :=
    List.exists_cons_of_ne_nil (List.splitOnP_ne_nil (· == '*') before)
  obtain ⟨next, parts', hrest⟩ := List.exists_cons_of_ne_nil (List.splitOnP_ne_nil (· == '*') rest)
  rw [hbefore, hrest]
  rcases parts with - | ⟨second, parts⟩
  · exact ⟨part, next, parts', rfl⟩
  · exact ⟨part, second, parts ++ next :: parts', rfl⟩

/-- **A pattern matches what comes of it when each star is replaced**, and no slice is refused. -/
theorem globMatch_eq (pattern text : Text) :
    ∃ b, globMatch pattern text = some b ∧ (b = true ↔ Replaces '*' pattern text) := by
  rw [globMatch, ← spells_splitOn]
  by_cases hstar : '*' ∈ pattern
  · rw [if_pos (List.contains_iff_mem.2 hstar)]
    obtain ⟨part, next, parts, hparts⟩ := exists_splitOn_of_mem hstar
    simp only [hparts]
    rw [globParts, spells_cons (List.cons_ne_nil _ _)]
    have hnext := fun before rest ↦ @globParts_succ rest before (next :: parts)
      ((part :: next :: parts).length - 1) 1 (List.cons_ne_nil _ _)
      (by simp only [List.length_cons]; omega) Nat.one_ne_zero
    rcases part with - | ⟨c, part⟩
    · obtain ⟨b, hb, hiff⟩ := hnext [] text
      exact ⟨b, by simpa using hb, by simpa using hiff⟩
    have hslice : sliceFrom text 0 = some text := sliceFrom_append [] text
    simp only [List.isEmpty_cons, Bool.false_eq_true, if_false, if_true, hslice,
      Option.bind_eq_bind, Option.bind_some]
    by_cases hprefix : (c :: part).isPrefixOf text
    · obtain ⟨rest, rfl⟩ := List.isPrefixOf_iff_prefix.1 hprefix
      obtain ⟨b, hb, hiff⟩ := hnext (c :: part) rest
      refine ⟨b, ?_, hiff.trans ?_⟩
      · rw [if_pos hprefix, Nat.zero_add (len _)]
        exact hb
      · simp
    · refine ⟨false, if_neg hprefix, ?_⟩
      simp only [Bool.false_eq_true, false_iff]
      rintro ⟨rest, rfl, -⟩
      exact hprefix (List.isPrefixOf_iff_prefix.2 (List.prefix_append _ _))
  · rw [if_neg (by simpa using hstar)]
    have hsingle : pattern.splitOn '*' = [pattern] :=
      List.splitOnP_eq_singleton fun c hc ↦ beq_eq_false_iff_ne.2 fun heq ↦ hstar (heq ▸ hc)
    rw [hsingle]
    exact ⟨_, rfl, decide_eq_true_iff.trans eq_comm⟩

end RustCodeMcp.Rules
