import Mathlib.Algebra.GroupWithZero.Nat
import Mathlib.Data.List.Infix
import Mathlib.Data.String.Basic

/-!
# Where a name occurs

A token scan looks for a name in a file's text and probes each place where it stands as a whole
identifier. Matches are found from left to right, each after the end of the one before; what stands
before and after a match decides whether it is a whole identifier. No whole identifier is skipped
for a match that overlaps it, since the character before it would be one of the name's
(`mem_identifierOccurrences`).

The place probed is one byte into the match. That is one character into it when the first character
of the name takes one byte, and inside the first character otherwise (`probes_sound_iff`).

Bytes and characters are counted by one function (`byteLen`), and slicing at the length of a prefix
is dropping the prefix; so every offset in the scan is the length of what stands before it, and a
position is said by the text around it and never by a number alone.
-/

namespace RustCodeMcp.Position

/-! ### Bytes and characters -/

/-- Length in bytes. -/
def byteLen (chars : List Char) : ℕ := (chars.map Char.utf8Size).sum

@[simp] theorem byteLen_nil : byteLen [] = 0 := rfl

@[simp] theorem byteLen_cons (c : Char) (chars : List Char) :
    byteLen (c :: chars) = c.utf8Size + byteLen chars := List.sum_cons

@[simp] theorem byteLen_append (chars chars' : List Char) :
    byteLen (chars ++ chars') = byteLen chars + byteLen chars' := by
  rw [byteLen, List.map_append, List.sum_append]
  rfl

/-- `text[..offset]`, for an offset between two characters. -/
def sliceTo : ℕ → List Char → List Char
  | _, [] => []
  | offset, c :: rest => if c.utf8Size ≤ offset then c :: sliceTo (offset - c.utf8Size) rest else []

/-- `text[offset..]`, for an offset between two characters. -/
def sliceFrom : ℕ → List Char → List Char
  | _, [] => []
  | offset, c :: rest => if c.utf8Size ≤ offset then sliceFrom
    (offset - c.utf8Size) rest else c :: rest

theorem sliceTo_byteLen (before after : List Char) :
    sliceTo (byteLen before) (before ++ after) = before := by
  induction before with
  | nil =>
    rcases after with - | ⟨c, rest⟩
    · rfl
    · exact if_neg (Nat.not_le.2 c.utf8Size_pos)
  | cons c rest ih =>
    rw [byteLen_cons, List.cons_append, sliceTo, if_pos (Nat.le_add_right _ _),
      Nat.add_sub_cancel_left, ih]

theorem sliceFrom_byteLen (before after : List Char) :
    sliceFrom (byteLen before) (before ++ after) = after := by
  induction before with
  | nil =>
    rcases after with - | ⟨c, rest⟩
    · rfl
    · exact if_neg (Nat.not_le.2 c.utf8Size_pos)
  | cons c rest ih =>
    rw [byteLen_cons, List.cons_append, sliceFrom, if_pos (Nat.le_add_right _ _),
      Nat.add_sub_cancel_left, ih]

/-! ### The scan -/

/-- `text.match_indices(name)` for a name that is not empty: the byte offsets of the matches from
left to right, none beginning inside another. `skip` characters still belong to the last one. -/
def matchIndices (name : List Char) : ℕ → ℕ → List Char → List ℕ
  | _, _, [] => []
  | skip + 1, offset, c :: rest => matchIndices name skip (offset + c.utf8Size) rest
  | 0, offset, c :: rest =>
    if name.isPrefixOf (c :: rest) then
      offset :: matchIndices name (name.length - 1) (offset + c.utf8Size) rest
    else matchIndices name 0 (offset + c.utf8Size) rest

/-- Characters of identifiers. `isAlphanumeric` is Unicode's. -/
def isIdentChar (isAlphanumeric : Char → Bool) (c : Char) : Bool := isAlphanumeric c || c == '_'

/-- Whether a match is a whole identifier. -/
def isWhole (isAlphanumeric : Char → Bool) (text name : List Char) (start : ℕ) : Bool :=
  (sliceTo start text).getLast?.all (fun c ↦ !isIdentChar isAlphanumeric c) &&
    (sliceFrom (start + byteLen name) text).head?.all fun c ↦ !isIdentChar isAlphanumeric c

/-- Byte offsets at which `name` appears as a whole identifier. -/
def identifierOccurrences (isAlphanumeric : Char → Bool) (text name : List Char) : List ℕ :=
  if name.isEmpty then [] else (matchIndices name 0 0 text).filter
    (isWhole isAlphanumeric text name)

/-- The byte offset that is probed for an occurrence, as a `u32`. -/
def probeOffset (name : List Char) (start : ℕ) : ℕ :=
  (if 1 < byteLen name then start + 1 else start) % 2 ^ 32

/-! ### Occurrences -/

/-- A name made of characters of identifiers. -/
structure Identifier (isAlphanumeric : Char → Bool) where
  name : List Char
  ne_nil : name ≠ []
  isIdent : ∀ c ∈ name, isIdentChar isAlphanumeric c = true

/-- The name stands at this byte offset, with no character of an identifier before or after it. -/
def Occurs (isAlphanumeric : Char → Bool) (text name : List Char) (start : ℕ) : Prop :=
  ∃ before after, text = before ++ name ++ after ∧ start = byteLen before ∧
    (∀ c ∈ before.getLast?, isIdentChar isAlphanumeric c = false) ∧
    ∀ c ∈ after.head?, isIdentChar isAlphanumeric c = false

variable {isAlphanumeric : Char → Bool} {text name : List Char} {before after : List Char}

theorem le_of_mem_matchIndices {skip offset start : ℕ}
    (h : start ∈ matchIndices name skip offset text) : offset ≤ start := by
  induction text generalizing skip offset with
  | nil =>
    rw [matchIndices] at h
    cases h
  | cons c rest ih =>
    rcases skip with - | skip
    · rw [matchIndices] at h
      split at h
      · rcases List.mem_cons.1 h with rfl | h
        · exact le_rfl
        · exact (Nat.le_add_right _ _).trans (ih h)
      · exact (Nat.le_add_right _ _).trans (ih h)
    · rw [matchIndices] at h
      exact (Nat.le_add_right _ _).trans (ih h)

/-- **Matches come in order.** -/
theorem pairwise_matchIndices (skip offset : ℕ) :
    (matchIndices name skip offset text).Pairwise (· < ·) := by
  induction text generalizing skip offset with
  | nil =>
    rw [matchIndices]
    exact .nil
  | cons c rest ih =>
    rcases skip with - | skip
    · rw [matchIndices]
      split
      · refine List.pairwise_cons.2 ⟨fun start h ↦ ?_, ih _ _⟩
        exact (Nat.lt_add_of_pos_right c.utf8Size_pos).trans_le (le_of_mem_matchIndices h)
      · exact ih _ _
    · rw [matchIndices]
      exact ih _ _

/-- **A match is an occurrence.** -/
theorem exists_of_mem_matchIndices {skip offset start : ℕ}
    (h : start ∈ matchIndices name skip offset text) :
    ∃ before after, text = before ++ name ++ after ∧ start = offset + byteLen before := by
  induction text generalizing skip offset with
  | nil =>
    rw [matchIndices] at h
    cases h
  | cons c rest ih =>
    have hlater : ∀ {skip}, start ∈ matchIndices name skip (offset + c.utf8Size) rest →
        ∃ before after, c :: rest = before ++ name ++ after ∧ start = offset + byteLen before := by
      intro skip h
      obtain ⟨before, after, htext, hstart⟩ := ih h
      refine ⟨c :: before, after, by rw [htext]; rfl, ?_⟩
      rw [hstart, byteLen_cons, Nat.add_assoc]
    rcases skip with - | skip
    · rw [matchIndices] at h
      split at h
      next hmatch =>
        rcases List.mem_cons.1 h with rfl | h
        · obtain ⟨after, hafter⟩ := List.isPrefixOf_iff_prefix.1 hmatch
          exact ⟨[], after, hafter.symm, rfl⟩
        · exact hlater h
      next => exact hlater h
    · rw [matchIndices] at h
      exact hlater h

/-- **An occurrence after a character that no identifier has is found.** The characters still to be
skipped are the name's, so they end before it. -/
theorem mem_matchIndices (ident : Identifier isAlphanumeric)
    {skip offset : ℕ} (htext : text = before ++ ident.name ++ after)
    (hbefore : ∀ c ∈ before.getLast?, isIdentChar isAlphanumeric c = false)
    (hskip : ∀ c ∈ text.take skip, isIdentChar isAlphanumeric c = true)
    (hnil : before = [] → skip = 0) :
    offset + byteLen before ∈ matchIndices ident.name skip offset text := by
  induction before generalizing text skip offset with
  -- The occurrence is here: the first match of the search.
  | nil =>
    obtain ⟨c, rest, hname⟩ := List.exists_cons_of_ne_nil ident.ne_nil
    have hpre : ident.name.isPrefixOf text = true :=
      List.isPrefixOf_iff_prefix.2 ⟨after, htext.symm⟩
    rw [hnil rfl]
    rw [htext, hname] at hpre ⊢
    exact List.mem_of_mem_head? (by
      rw [List.nil_append, List.cons_append, matchIndices]
      rw [List.nil_append, List.cons_append] at hpre
      rw [if_pos hpre]
      rfl)
  | cons c before ih =>
    subst htext
    have hlast : ∀ c ∈ before.getLast?, isIdentChar isAlphanumeric c = false := by
      intro d hd
      refine hbefore d ?_
      rcases before with - | ⟨b, before⟩
      · cases hd
      · rwa [List.getLast?_cons_cons]
    have hfirst : before = [] → isIdentChar isAlphanumeric c = false := by
      rintro rfl
      exact hbefore c rfl
    have hoffset : offset + byteLen (c :: before) = offset + c.utf8Size + byteLen before := by
      rw [byteLen_cons, Nat.add_assoc]
    rw [hoffset]
    show _ ∈ matchIndices ident.name skip offset (c :: (before ++ ident.name ++ after))
    rcases skip with - | skip
    · rw [matchIndices]
      split
      -- A match here overlaps nothing of the later occurrence: its characters are the name's, and
      -- -- the one before the occurrence is not.
      next hmatch =>
        obtain ⟨rest, hrest⟩ := List.isPrefixOf_iff_prefix.1 hmatch
        obtain ⟨d, name, hname⟩ := List.exists_cons_of_ne_nil ident.ne_nil
        have hident : ∀ e ∈ d :: name, isIdentChar isAlphanumeric e = true := hname ▸ ident.isIdent
        have hcut : d :: (name ++ rest) = c :: (before ++ ident.name ++ after) := by
          rw [← List.cons_append, ← hname]
          exact hrest
        obtain ⟨rfl, htail⟩ := List.cons.inj hcut
        refine List.mem_cons_of_mem _ (ih rfl hlast (fun e he ↦ ?_) fun hnil' ↦ ?_)
        · rw [← htail, hname, List.length_cons, Nat.add_sub_cancel, List.take_left] at he
          exact hident e (List.mem_cons_of_mem _ he)
        · have hfalse := hfirst hnil'
          rw [hident d List.mem_cons_self] at hfalse
          cases hfalse
      next => exact ih rfl hlast (fun e he ↦ by simp at he) fun _ ↦ rfl
    · rw [matchIndices]
      refine ih rfl hlast (fun e he ↦ hskip e ?_) fun hnil' ↦ ?_
      · exact List.mem_cons_of_mem _ he
      · have hfalse := hfirst hnil'
        rw [hskip c List.mem_cons_self] at hfalse
        cases hfalse

theorem isWhole_iff :
    isWhole isAlphanumeric (before ++ name ++ after) name (byteLen before) = true ↔
      (∀ c ∈ before.getLast?, isIdentChar isAlphanumeric c = false) ∧
        ∀ c ∈ after.head?, isIdentChar isAlphanumeric c = false := by
  have hall : ∀ o : Option Char, o.all (fun c ↦ !isIdentChar isAlphanumeric c) = true ↔
      ∀ c ∈ o, isIdentChar isAlphanumeric c = false := by
    intro o
    rcases o with - | c <;> simp
  have hto : sliceTo (byteLen before) (before ++ name ++ after) = before := by
    rw [List.append_assoc]
    exact sliceTo_byteLen _ _
  have hfrom : sliceFrom (byteLen before + byteLen name) (before ++ name ++ after) = after := by
    rw [← byteLen_append]
    exact sliceFrom_byteLen _ _
  rw [isWhole, hto, hfrom, Bool.and_eq_true, hall, hall]

/-- **The scan finds exactly the whole identifiers.** -/
theorem mem_identifierOccurrences (ident : Identifier isAlphanumeric) {start : ℕ} :
    start ∈ identifierOccurrences isAlphanumeric text ident.name ↔
      Occurs isAlphanumeric text ident.name start := by
  have hne : ident.name.isEmpty = false := List.isEmpty_eq_false_iff.2 ident.ne_nil
  rw [identifierOccurrences, hne, if_neg Bool.false_ne_true, List.mem_filter]
  constructor
  · rintro ⟨hmatch, hwhole⟩
    obtain ⟨before, after, rfl, hstart⟩ := exists_of_mem_matchIndices hmatch
    rw [Nat.zero_add] at hstart
    subst hstart
    exact ⟨before, after, rfl, rfl, isWhole_iff.1 hwhole⟩
  · rintro ⟨before, after, rfl, rfl, hbefore, hafter⟩
    refine ⟨?_, isWhole_iff.2 ⟨hbefore, hafter⟩⟩
    have hmem : 0 + byteLen before ∈
        matchIndices ident.name 0 0 (before ++ ident.name ++ after) :=
      mem_matchIndices ident rfl hbefore (fun c hc ↦ by simp at hc) fun _ ↦ rfl
    rwa [Nat.zero_add] at hmem

/-- **Occurrences come in order**, each once. -/
theorem pairwise_identifierOccurrences :
    (identifierOccurrences isAlphanumeric text name).Pairwise (· < ·) := by
  rw [identifierOccurrences]
  split
  · exact .nil
  · exact (pairwise_matchIndices 0 0).filter _

/-! ### Probes -/

/-- An offset between two characters, or at an end. -/
def IsCharBoundary (text : List Char) (offset : ℕ) : Prop :=
  ∃ before after, text = before ++ after ∧ offset = byteLen before

/-- The occurrences are the whole identifiers, in order, and every probe is on a character boundary
in its occurrence. -/
structure ProbesSound (isAlphanumeric : Char → Bool) (text name : List Char) : Prop where
  increasing : (identifierOccurrences isAlphanumeric text name).Pairwise (· < ·)
  exact : ∀ start, start ∈ identifierOccurrences isAlphanumeric text name ↔
    Occurs isAlphanumeric text name start
  probe : ∀ start ∈ identifierOccurrences isAlphanumeric text name,
    IsCharBoundary text (probeOffset name start) ∧ start ≤ probeOffset name start ∧
      probeOffset name start < start + byteLen name

/-- One byte into an occurrence is a character boundary exactly when the first character takes one
byte. -/
theorem isCharBoundary_succ_iff {c : Char} :
    IsCharBoundary (before ++ c :: after) (byteLen before + 1) ↔ c.utf8Size = 1 := by
  constructor
  · rintro ⟨front, back, htext, hlen⟩
    rcases List.append_eq_append_iff.1 htext with ⟨inside, rfl, hrest⟩ | ⟨inside, rfl, -⟩
    · rw [byteLen_append] at hlen
      rcases inside with - | ⟨d, inside⟩
      · rw [byteLen_nil] at hlen
        omega
      · obtain ⟨rfl, -⟩ := List.cons.inj hrest
        have hpos := c.utf8Size_pos
        rw [byteLen_cons] at hlen
        omega
    · rw [byteLen_append] at hlen
      omega
  · intro h
    exact ⟨before ++ [c], after, by simp, by simp [h]⟩

/-- **Every probe is sound exactly when the first character of the name takes one byte** and no
probe is cut off by the `u32`, or the name does not occur at all. -/
theorem probes_sound_iff (ident : Identifier isAlphanumeric) (text : List Char) :
    ProbesSound isAlphanumeric text ident.name ↔
      ∀ start, Occurs isAlphanumeric text ident.name start →
        (∀ c ∈ ident.name.head?, c.utf8Size = 1) ∧
          (if 1 < byteLen ident.name then start + 1 else start) < 2 ^ 32 := by
  obtain ⟨c, rest, hname⟩ := List.exists_cons_of_ne_nil ident.ne_nil
  have hpos := c.utf8Size_pos
  have hlen : byteLen ident.name = c.utf8Size + byteLen rest := by rw [hname, byteLen_cons]
  constructor
  · intro h start hoccurs
    obtain ⟨hboundary, hle, hlt⟩ := h.probe start ((h.exact start).2 hoccurs)
    obtain ⟨before, after, htext, rfl, -⟩ := hoccurs
    rw [probeOffset] at hboundary hle hlt
    -- A probe that was cut off would lie before its occurrence.
    have hfits : (if 1 < byteLen ident.name then byteLen before + 1 else byteLen before) <
        2 ^ 32 := by
      split at hle <;> split <;> omega
    refine ⟨fun d hd ↦ ?_, hfits⟩
    rw [hname, List.head?_cons, Option.mem_some_iff] at hd
    subst hd
    rw [Nat.mod_eq_of_lt hfits] at hboundary
    split at hboundary
    · rw [htext, hname, List.append_assoc, List.cons_append] at hboundary
      exact isCharBoundary_succ_iff.1 hboundary
    · omega
  · intro h
    refine ⟨pairwise_identifierOccurrences, fun _ ↦ mem_identifierOccurrences ident,
      fun start hmem ↦ ?_⟩
    have hoccurs := (mem_identifierOccurrences ident).1 hmem
    obtain ⟨hone, hfits⟩ := h start hoccurs
    obtain ⟨before, after, htext, rfl, -⟩ := hoccurs
    have hfirst : c.utf8Size = 1 := hone c (by rw [hname]; rfl)
    rw [probeOffset, Nat.mod_eq_of_lt hfits]
    split
    · refine ⟨?_, by omega, by omega⟩
      rw [htext, hname, List.append_assoc, List.cons_append]
      exact isCharBoundary_succ_iff.2 hfirst
    · refine ⟨⟨before, ident.name ++ after, ?_, rfl⟩, le_rfl, by omega⟩
      rw [htext, List.append_assoc]

/-- The letters of the texts below. -/
def isLetter (c : Char) : Bool := c.isAlphanum || c == 'é'

/-- A name of one character of two bytes. -/
def accented : Identifier isLetter where
  name := ['é']
  ne_nil := List.cons_ne_nil _ _
  isIdent := by
    intro c hc
    rw [List.mem_singleton.1 hc]
    rfl

/-- Its probe is inside the character. -/
theorem accented_probe : identifierOccurrences isLetter ['é'] accented.name = [0] ∧
    ¬ ProbesSound isLetter ['é'] accented.name := by
  refine ⟨by decide, fun h ↦ ?_⟩
  obtain ⟨hboundary, -, -⟩ := h.probe 0 (by decide)
  have hone : ('é').utf8Size = 1 := isCharBoundary_succ_iff.1
    (show IsCharBoundary ([] ++ ['é']) (byteLen [] + 1) from hboundary)
  exact absurd hone (by decide)

end RustCodeMcp.Position
