import Mathlib.Data.List.Infix
import Mathlib.Tactic.Tauto

/-!
# Formats in which a cut shows

What is written to a file in place may be cut off at any length. A `Format` is a way to write values
under which this shows: no proper beginning of what is written is read as a value.

Formats are put together from `Delimited` parts, whose reader knows by itself where a value ends:
fixed words, quoted strings, one part after another. `Delimited.format` reads a file that holds one
value and nothing else.

**The reader of a part does not know where the file ends, the reader of a file does.** So
`Delimited` asks for more than `Format`: what stands behind a value must not matter, and a value
that was cut off must not be read with anything. A list of values that are `Delimited` is one again,
and at the end, where nothing may follow, it becomes a `Format`.
-/

universe u v w

/-- A way to write values, and to read them back. -/
structure Format (β : Type u) (ε : Type v) (α : Type w) where
  write : α → List β
  read : List β → Except ε α
  read_write : ∀ a, read (write a) = .ok a
  /-- A cut shows. -/
  read_cut : ∀ a bytes, bytes <+: write a → bytes ≠ write a → ∃ e, read bytes = .error e

/-- A way to write values one after another: the reader takes the first off the front. -/
structure Delimited (β : Type u) (α : Type w) where
  write : α → List β
  read : List β → Option (α × List β)
  read_append : ∀ a rest, read (write a ++ rest) = some (a, rest)
  read_cut : ∀ a bytes, bytes <+: write a → bytes ≠ write a → read bytes = none

namespace Format

variable {β : Type u} {ε : Type v} {α : Type w} (f : Format β ε α) {a b : α} {bytes : List β}

/-- Of the beginnings of a written value only the whole is read, as that value. -/
theorem eq_of_read (hpre : bytes <+: f.write a) (hread : f.read bytes = .ok b) :
    bytes = f.write a ∧ b = a := by
  by_contra hne
  by_cases hwhole : bytes = f.write a
  · rw [hwhole, f.read_write] at hread
    exact hne ⟨hwhole, (Except.ok.inj hread).symm⟩
  · obtain ⟨e, he⟩ := f.read_cut a bytes hpre hwhole
    rw [hread] at he
    cases he

/-- A value between two marks. -/
def marked (α : Type u) : Format (Option α) String α where
  write a := [none, some a, none]
  read
    | [none, some a, none] => .ok a
    | _ => .error "EOF while parsing an object"
  read_write _ := rfl
  read_cut a bytes hpre hne := by
    obtain ⟨rest, hrest⟩ := hpre
    rcases bytes with - | ⟨b, - | ⟨b', - | ⟨b'', bytes⟩⟩⟩
    · exact ⟨_, rfl⟩
    · exact ⟨_, by rcases b with - | b <;> rfl⟩
    · exact ⟨_, by rcases b with - | b <;> rcases b' with - | b' <;> rfl⟩
    · refine absurd ?_ hne
      injection hrest with h₁ hrest
      injection hrest with h₂ hrest
      injection hrest with h₃ hrest
      rw [h₁, h₂, h₃, (List.append_eq_nil_iff.1 hrest).1]

end Format

namespace Delimited

variable {β : Type u} {α γ : Type w}

/-- A beginning of two words is one of the first, or the first and a beginning of the second. -/
theorem prefix_append_cases {l l₁ l₂ : List β} (h : l <+: l₁ ++ l₂) :
    l <+: l₁ ∧ l ≠ l₁ ∨ ∃ l', l = l₁ ++ l' ∧ l' <+: l₂ := by
  rcases List.prefix_or_prefix_of_prefix h (List.prefix_append l₁ l₂) with hle | ⟨l', rfl⟩
  · by_cases heq : l = l₁
    · exact .inr ⟨[], by rw [heq, List.append_nil], List.nil_prefix⟩
    · exact .inl ⟨hle, heq⟩
  · exact .inr ⟨l', rfl, (List.prefix_append_right_inj l₁).1 h⟩

/-- A fixed word. -/
def literal [DecidableEq β] (word : List β) : Delimited β Unit where
  write _ := word
  read bytes := if word <+: bytes then some ((), bytes.drop word.length) else none
  read_append _ rest := by
    rw [if_pos (List.prefix_append word rest), List.drop_left]
  read_cut _ bytes hpre hne := by
    refine if_neg fun hle ↦ hne ?_
    exact hpre.eq_of_length (le_antisymm hpre.length_le hle.length_le)

/-- One value after another. -/
def seq (f : Delimited β α) (g : Delimited β γ) : Delimited β (α × γ) where
  write a := f.write a.1 ++ g.write a.2
  read bytes := (f.read bytes).bind fun a ↦ (g.read a.2).map fun c ↦ ((a.1, c.1), c.2)
  read_append a rest := by
    rw [List.append_assoc, f.read_append, Option.bind_some, g.read_append, Option.map_some]
  read_cut a bytes hpre hne := by
    rcases prefix_append_cases hpre with ⟨hle, hcut⟩ | ⟨rest, rfl, hle⟩
    · rw [f.read_cut a.1 bytes hle hcut, Option.bind_none]
    · have hcut : rest ≠ g.write a.2 := fun heq ↦ hne (by rw [heq])
      rw [f.read_append, Option.bind_some, g.read_cut a.2 rest hle hcut, Option.map_none]

/-- The same values under other names. -/
def map (f : Delimited β α) (there : α → γ) (back : γ → α) (h : ∀ c, there (back c) = c) :
    Delimited β γ where
  write c := f.write (back c)
  read bytes := (f.read bytes).map fun a ↦ (there a.1, a.2)
  read_append c rest := by rw [f.read_append, Option.map_some, h]
  read_cut c bytes hpre hne := by rw [f.read_cut _ bytes hpre hne, Option.map_none]

/-! ### Quoted strings -/

/-- What is written for a symbol, between `quote`s: those that `special` picks go behind an
`escape`. -/
def escaped (special : β → Bool) (escape c : β) : List β :=
  if special c then [escape, c] else [c]

/-- Read up to the quote; the flag says that the next symbol stands for itself. -/
def readQuoted [DecidableEq β] (quote escape : β) : Bool → List β → Option (List β × List β)
  | _, [] => none
  | true, c :: rest => (readQuoted quote escape false rest).map fun r ↦ (c :: r.1, r.2)
  | false, c :: rest =>
    if c = quote then some ([], rest)
    else if c = escape then readQuoted quote escape true rest
    else (readQuoted quote escape false rest).map fun r ↦ (c :: r.1, r.2)

section Quoted

variable [DecidableEq β] (quote escape : β)

/-- The symbols that are escaped. -/
def special (c : β) : Bool := c = quote || c = escape

/-- The symbols of a string, escaped, and the closing quote. -/
def body (l : List β) : List β := l.flatMap (escaped (special quote escape) escape) ++ [quote]

variable {quote escape}

theorem body_cons (c : β) (l : List β) :
    body quote escape (c :: l) = escaped
    (special quote escape) escape c ++ body quote escape l := by
  rw [body, List.flatMap_cons, List.append_assoc]
  rfl

theorem readQuoted_escaped (hne : escape ≠ quote) (c : β) (rest : List β) :
    readQuoted quote escape false (escaped (special quote escape) escape c ++ rest) =
      (readQuoted quote escape false rest).map fun r ↦ (c :: r.1, r.2) := by
  rw [escaped]
  split_ifs with hc
  · show readQuoted quote escape false (escape :: c :: rest) = _
    rw [readQuoted, if_neg hne, if_pos rfl, readQuoted]
  · rw [special, Bool.or_eq_true, decide_eq_true_iff, decide_eq_true_iff, not_or] at hc
    show readQuoted quote escape false (c :: rest) = _
    rw [readQuoted, if_neg hc.1, if_neg hc.2]

theorem readQuoted_append (hne : escape ≠ quote) (l rest : List β) :
    readQuoted quote escape false (body quote escape l ++ rest) = some (l, rest) := by
  induction l with
  | nil =>
    show readQuoted quote escape false (quote :: rest) = _
    rw [readQuoted, if_pos rfl]
  | cons c l ih => rw [body_cons, List.append_assoc, readQuoted_escaped hne, ih, Option.map_some]

/-- A string without its end is not read. -/
theorem readQuoted_cut (hne : escape ≠ quote) (l : List β) {bytes : List β}
    (hpre : bytes <+: body quote escape l) (hcut : bytes ≠ body quote escape l) :
    readQuoted quote escape false bytes = none := by
  induction l generalizing bytes with
  | nil =>
    rcases List.prefix_cons_iff.1 (hpre : bytes <+: quote :: []) with rfl | ⟨rest, rfl, hrest⟩
    · rfl
    · exact absurd (by rw [List.prefix_nil.1 hrest]; rfl) hcut
  | cons c l ih =>
    rw [body_cons] at hpre hcut
    rcases prefix_append_cases hpre with ⟨hle, hshort⟩ | ⟨rest, rfl, hle⟩
    · -- The cut lies within one symbol: nothing of it is left, or the escape alone.
      rw [escaped] at hle hshort
      split_ifs at hle hshort with hc
      · rcases List.prefix_cons_iff.1 hle with rfl | ⟨rest, rfl, hrest⟩
        · rfl
        · rcases List.prefix_cons_iff.1 hrest with rfl | ⟨rest', rfl, hrest'⟩
          · rw [readQuoted, if_neg hne, if_pos rfl, readQuoted]
          · exact absurd (by rw [List.prefix_nil.1 hrest']) hshort
      · rcases List.prefix_cons_iff.1 hle with rfl | ⟨rest, rfl, hrest⟩
        · rfl
        · exact absurd (by rw [List.prefix_nil.1 hrest]) hshort
    · rw [readQuoted_escaped hne, ih hle fun heq ↦ hcut (by rw [heq]), Option.map_none]

end Quoted

/-- A string between quotes. -/
def quoted [DecidableEq β] (quote escape : β) (hne : escape ≠ quote) : Delimited β (List β) where
  write l := quote :: body quote escape l
  read
    | [] => none
    | c :: rest => if c = quote then readQuoted quote escape false rest else none
  read_append l rest := by
    show (if quote = quote then readQuoted quote escape false
      (body quote escape l ++ rest) else none) = _
    rw [if_pos rfl, readQuoted_append hne]
  read_cut l bytes hpre hcut := by
    rcases List.prefix_cons_iff.1 hpre with rfl | ⟨rest, rfl, hrest⟩
    · rfl
    · show (if quote = quote then readQuoted quote escape false rest else none) = _
      rw [if_pos rfl, readQuoted_cut hne l hrest fun heq ↦ hcut (by rw [heq])]

/-! ### Whole files -/

/-- A file with one value and nothing behind it. -/
def format {ε : Type v} (f : Delimited β α) (error : ε) : Format β ε α where
  write := f.write
  read bytes :=
    match f.read bytes with
    | some (a, []) => .ok a
    | _ => .error error
  read_write a := by
    have h := f.read_append a []
    rw [List.append_nil] at h
    rw [h]
  read_cut a bytes hpre hne := by
    rw [f.read_cut a bytes hpre hne]
    exact ⟨error, rfl⟩

end Delimited
