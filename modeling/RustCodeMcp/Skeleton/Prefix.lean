import Mathlib.Data.List.TakeWhile
import RustCodeMcp.Embeddings.VramBudget

/-!
# What stands before a declaration

`stripLeadingAttrsDocs` skips white space, doc comments and outer attributes. It ends a block
comment at the first `*/` and an attribute at the bracket that brings the count of brackets to zero,
wherever they stand; so it returns the declaration exactly if the text before it can be read in this
way (`stripLeadingAttrsDocs_append_iff`), and not where a bracket stands in a literal or a comment
is nested.

Two readings of one text are compared. The reader's is by ends alone: the next `*/`, the bracket
that closes the count, the end of the line (`Lead`). The language's knows literals and nesting
(`LeadingTrivia`). They differ on some texts, and whether the declaration is returned is a matter of
the first.
-/

namespace RustCodeMcp.Skeleton

/-! ### Skipping -/

/-- What follows the line. -/
def afterLine (text : List Char) : List Char :=
  (text.dropWhile (· ≠ '\n')).tail

/-- What follows the first `*/`. -/
def afterBlock : List Char → Option (List Char)
  | [] => none
  | c :: rest => if c = '*' ∧ rest.head? = some '/' then some rest.tail else afterBlock rest

/-- `outer_attr_len`: what follows the bracket that closes the first one, with `depth` brackets
open. -/
def afterOuterAttr : ℕ → List Char → Option (List Char)
  | _, [] => none
  | depth, c :: rest =>
    if c = '[' then afterOuterAttr (depth + 1) rest
    else if c = ']' then
      if depth = 0 then none else if depth = 1 then some rest else afterOuterAttr (depth - 1) rest
    else afterOuterAttr depth rest

/-- Whether a doc comment of one line begins here. -/
def isLineDoc (text : List Char) : Bool :=
  "///".toList.isPrefixOf text || "//!".toList.isPrefixOf text

/-- Whether a doc comment in a block begins here. -/
def isBlockDoc (text : List Char) : Bool :=
  "/**".toList.isPrefixOf text || "/*!".toList.isPrefixOf text

/-- The loop of `strip_leading_attrs_docs`. -/
def stripFrom : ℕ → List Char → List Char
  | 0, text => text
  | fuel + 1, text =>
    let rest := text.dropWhile isWhiteSpace
    if isLineDoc rest then stripFrom fuel (afterLine rest)
    else if isBlockDoc rest then
      match afterBlock rest with
      | none => []
      | some after => stripFrom fuel after
    else if "#[".toList.isPrefixOf rest then
      match afterOuterAttr 0 rest with
      | none => rest
      | some after => stripFrom fuel after
    else rest

/-- Every round but the last skips a character. -/
def stripLeadingAttrsDocs (text : List Char) : List Char :=
  stripFrom (text.length + 1) text

/-! ### Reading by brackets and ends alone -/

/-- Brackets alone are balanced. -/
inductive Brackets : List Char → Prop
  | nil : Brackets []
  | other {c : Char} {rest : List Char} (hopen : c ≠ '[') (hclose : c ≠ ']')
      (tail : Brackets rest) : Brackets (c :: rest)
  | group {inner rest : List Char} (inside : Brackets inner) (tail : Brackets rest) :
      Brackets ('[' :: (inner ++ ']' :: rest))

/-- A text that ends with its first `*/`. -/
inductive ToEnd : List Char → Prop
  | here : ToEnd ['*', '/']
  | later {c d : Char} {rest : List Char} (hne : ¬ (c = '*' ∧ d = '/'))
      (tail : ToEnd (d :: rest)) : ToEnd (c :: d :: rest)

/-- White space, doc comments and attributes, read by their brackets and ends alone. -/
inductive Lead : List Char → Prop
  | nil : Lead []
  | space {c : Char} {rest : List Char} (hspace : isWhiteSpace c) (tail : Lead rest) :
      Lead (c :: rest)
  | line {body rest : List Char} (hdoc : isLineDoc body) (hline : '\n' ∉ body) (tail : Lead rest) :
      Lead (body ++ '\n' :: rest)
  | block {body rest : List Char} (hdoc : isBlockDoc body) (hend : ToEnd body) (tail : Lead rest) :
      Lead (body ++ rest)
  | attr {content rest : List Char} (hcontent : Brackets content) (tail : Lead rest) :
      Lead ('#' :: '[' :: (content ++ ']' :: rest))

/-- A text that begins with none of these. -/
structure StartsItem (text : List Char) : Prop where
  ne_nil : text ≠ []
  head : ∀ c ∈ text.head?, ¬ isWhiteSpace c
  line : ¬ isLineDoc text
  block : ¬ isBlockDoc text
  attr : ¬ "#[".toList.isPrefixOf text

/-! ### Ends -/

/-- Balanced content of an attribute is skipped. -/
theorem afterOuterAttr_append {content : List Char} (h : Brackets content) (depth : ℕ)
    (rest : List Char) :
    afterOuterAttr (depth + 1) (content ++ rest) = afterOuterAttr (depth + 1) rest := by
  induction h generalizing depth rest with
  | nil => rfl
  | other hopen hclose _ ih =>
    rw [List.cons_append, afterOuterAttr, if_neg hopen, if_neg hclose, ih]
  | @group inner content _ _ ihinner ih =>
    have hclose : afterOuterAttr (depth + 2) (']' :: (content ++ rest)) =
        afterOuterAttr (depth + 1) (content ++ rest) := rfl
    rw [List.cons_append, List.append_assoc, afterOuterAttr, if_pos rfl, ihinner, List.cons_append,
      hclose, ih]

/-- With brackets open, the attribute goes on with balanced brackets and the one that closes the
last of them. -/
theorem exists_brackets {text after : List Char} {depth : ℕ}
    (h : afterOuterAttr (depth + 1) text = some after) :
    ∃ content rest, Brackets content ∧ text = content ++ ']' :: rest ∧
      afterOuterAttr (depth + 1) (']' :: rest) = some after := by
  induction hlength : text.length using Nat.strong_induction_on generalizing text depth with
  | _ n ih =>
  rcases text with - | ⟨c, text⟩
  · cases h
  have hstep := h
  rw [afterOuterAttr] at hstep
  split_ifs at hstep with hopen hclose
  · -- A group, and what comes after it.
    obtain ⟨inner, rest, hinner, rfl, hrest⟩ := ih _ (by simp at hlength; omega) hstep rfl
    change afterOuterAttr (depth + 1) rest = some after at hrest
    obtain ⟨content, rest, hcontent, rfl, hafter⟩ := ih _ (by simp at hlength ⊢; omega) hrest rfl
    exact ⟨'[' :: (inner ++ ']' :: content), rest, .group hinner hcontent, by simp [hopen], hafter⟩
  · exact ⟨[], text, .nil, by rw [hclose]; rfl, by rw [← hclose]; exact h⟩
  · exact ⟨[], text, .nil, by rw [hclose]; rfl, by rw [← hclose]; exact h⟩
  · obtain ⟨content, rest, hcontent, rfl, hafter⟩ := ih _ (by simp at hlength; omega) hstep rfl
    exact ⟨c :: content, rest, .other hopen hclose hcontent, rfl, hafter⟩

/-- Where an attribute ends. -/
theorem afterOuterAttr_eq_some_iff {text after : List Char} :
    afterOuterAttr 0 ('#' :: '[' :: text) = some after ↔
      ∃ content, Brackets content ∧ text = content ++ ']' :: after := by
  show afterOuterAttr 1 text = some after ↔ _
  constructor
  · intro h
    obtain ⟨content, rest, hcontent, rfl, hafter⟩ := exists_brackets h
    obtain rfl := Option.some.inj hafter
    exact ⟨content, hcontent, rfl⟩
  · rintro ⟨content, hcontent, rfl⟩
    rw [afterOuterAttr_append hcontent]
    rfl

/-- Where a block comment ends. -/
theorem afterBlock_eq_some_iff {text after : List Char} :
    afterBlock text = some after ↔ ∃ body, ToEnd body ∧ text = body ++ after := by
  constructor
  · intro h
    induction text with
    | nil => cases h
    | cons c rest ih =>
      rw [afterBlock] at h
      split_ifs at h with hend
      · obtain ⟨rfl, hhead⟩ := hend
        obtain rfl := Option.some.inj h
        exact ⟨_, .here, by rw [← List.cons_head?_tail hhead]; rfl⟩
      · obtain ⟨body, hbody, rfl⟩ := ih h
        rcases body with - | ⟨d, body⟩
        · cases hbody
        · exact ⟨c :: d :: body, .later (fun hne ↦ hend ⟨hne.1, by rw [hne.2]; rfl⟩) hbody, rfl⟩
  · rintro ⟨body, hbody, rfl⟩
    induction hbody with
    | here => rfl
    | @later c d body hne _ ih =>
      rw [List.cons_append, afterBlock, if_neg, ih]
      rintro ⟨hc, hd⟩
      exact hne ⟨hc, Option.some.inj hd⟩

theorem afterLine_append {body rest : List Char} (h : '\n' ∉ body) :
    afterLine (body ++ '\n' :: rest) = rest := by
  rw [afterLine, List.dropWhile_append_of_pos]
  · rfl
  · intro c hc
    exact decide_eq_true fun heq ↦ h (heq ▸ hc)

/-- A line of a doc comment is left with its end, or at the end of the text. -/
theorem exists_line {text : List Char} (h : afterLine text ≠ []) :
    ∃ body, '\n' ∉ body ∧ text = body ++ '\n' :: afterLine text := by
  induction text with
  | nil => exact absurd rfl h
  | cons c rest ih =>
    by_cases hc : c = '\n'
    · subst hc
      exact ⟨[], List.not_mem_nil, rfl⟩
    · have hskip : afterLine (c :: rest) = afterLine rest := by
        simp [afterLine, hc]
      rw [hskip] at h ⊢
      obtain ⟨body, hbody, heq⟩ := ih h
      refine ⟨c :: body, ?_, congrArg (c :: ·) heq⟩
      rw [List.mem_cons]
      exact not_or.2 ⟨fun h ↦ hc h.symm, hbody⟩

/-! ### The loop -/

theorem stripFrom_space {c : Char} (hc : isWhiteSpace c) (fuel : ℕ) (text : List Char) :
    stripFrom (fuel + 1) (c :: text) = stripFrom (fuel + 1) text := by
  rw [stripFrom, stripFrom, List.dropWhile_cons_of_pos hc]

/-- No marker begins with white space. -/
theorem dropWhile_of_marker {text : List Char}
    (h : isLineDoc text ∨ isBlockDoc text ∨ "#[".toList.isPrefixOf text) :
    text.dropWhile isWhiteSpace = text := by
  rcases text with - | ⟨c, text⟩
  · rfl
  · have hc : c = '/' ∨ c = '#' := by
      simp [isLineDoc, isBlockDoc] at h
      grind
    rcases hc with rfl | rfl <;> rfl

theorem stripFrom_nil (fuel : ℕ) : stripFrom fuel [] = [] := by
  cases fuel <;> rfl

theorem stripFrom_line {text : List Char} (h : isLineDoc text) (fuel : ℕ) :
    stripFrom (fuel + 1) text = stripFrom fuel (afterLine text) := by
  rw [stripFrom, dropWhile_of_marker (.inl h)]
  exact if_pos h

theorem not_isLineDoc_of_isBlockDoc {text : List Char} (h : isBlockDoc text) :
    ¬ isLineDoc text := by
  rcases text with - | ⟨a, - | ⟨b, text⟩⟩ <;> simp_all [isLineDoc, isBlockDoc]
  grind

/-- A block comment is skipped, and all of the text if it has no end. -/
theorem stripFrom_block {text : List Char} (h : isBlockDoc text) (fuel : ℕ) :
    stripFrom (fuel + 1) text = match afterBlock text with
      | none => []
      | some after => stripFrom fuel after := by
  rw [stripFrom, dropWhile_of_marker (.inr (.inl h))]
  exact (if_neg (not_isLineDoc_of_isBlockDoc h)).trans (if_pos h)

/-- An attribute is skipped, if it has an end. -/
theorem stripFrom_attr (fuel : ℕ) (text : List Char) :
    stripFrom (fuel + 1) ('#' :: '[' :: text) = match afterOuterAttr 0 ('#' :: '[' :: text) with
      | none => '#' :: '[' :: text
      | some after => stripFrom fuel after :=
  rfl

theorem isLineDoc_of_append {body rest : List Char} (h : isLineDoc (body ++ '\n' :: rest)) :
    isLineDoc body := by
  rcases body with - | ⟨a, - | ⟨b, - | ⟨c, body⟩⟩⟩ <;> simp_all [isLineDoc]

theorem isLineDoc_append {body : List Char} (h : isLineDoc body) (rest : List Char) :
    isLineDoc (body ++ rest) := by
  rcases body with - | ⟨a, - | ⟨b, - | ⟨c, body⟩⟩⟩ <;> simp_all [isLineDoc]

theorem isBlockDoc_append {body : List Char} (h : isBlockDoc body) (rest : List Char) :
    isBlockDoc (body ++ rest) := by
  rcases body with - | ⟨a, - | ⟨b, - | ⟨c, body⟩⟩⟩ <;> simp_all [isBlockDoc]

/-- The marker of a block is in what ends with its end. -/
theorem isBlockDoc_of_append {body rest : List Char} (hend : ToEnd body)
    (h : isBlockDoc (body ++ rest)) : isBlockDoc body := by
  cases hend with
  | here => simp [isBlockDoc] at h
  | @later a b text hne htail =>
    rcases text with - | ⟨c, text⟩
    · cases htail
    · simpa [isBlockDoc] using h

/-- White space may stand in front. -/
theorem Lead.append_spaces {spaces rest : List Char} (hspaces : ∀ c ∈ spaces, isWhiteSpace c)
    (h : Lead rest) : Lead (spaces ++ rest) := by
  induction spaces with
  | nil => exact h
  | cons c spaces ih =>
    obtain ⟨hc, hspaces⟩ := List.forall_mem_cons.1 hspaces
    exact .space hc (ih hspaces)

/-- What is skipped can be read. -/
theorem exists_lead (fuel : ℕ) (text : List Char) (h : stripFrom fuel text ≠ []) :
    ∃ pre, Lead pre ∧ text = pre ++ stripFrom fuel text := by
  induction fuel generalizing text with
  | zero => exact ⟨[], .nil, rfl⟩
  | succ fuel ih =>
    have hspaces : ∀ c ∈ text.takeWhile isWhiteSpace, isWhiteSpace c := fun c hc ↦
      List.mem_takeWhile_imp hc
    have htext := List.takeWhile_append_dropWhile (p := isWhiteSpace) (l := text)
    generalize text.takeWhile isWhiteSpace = spaces at hspaces htext
    suffices hrest : ∃ pre, Lead pre ∧
        text.dropWhile isWhiteSpace = pre ++ stripFrom (fuel + 1) text by
      obtain ⟨pre, hpre, heq⟩ := hrest
      refine ⟨spaces ++ pre, .append_spaces hspaces hpre, ?_⟩
      rw [List.append_assoc, ← heq, htext]
    rw [stripFrom] at h ⊢
    generalize text.dropWhile isWhiteSpace = rest at h ⊢
    split_ifs at h ⊢ with hline hblock hattr
    · have hne : afterLine rest ≠ [] := fun hnil ↦ h (by rw [hnil, stripFrom_nil])
      obtain ⟨body, hbody, hrest⟩ := exists_line hne
      obtain ⟨pre, hpre, heq⟩ := ih _ h
      rw [hrest] at hline
      refine ⟨body ++ '\n' :: pre, .line (isLineDoc_of_append hline) hbody hpre, ?_⟩
      rw [List.append_assoc, List.cons_append, ← heq, ← hrest]
    · rcases hafter : afterBlock rest with - | after
      · rw [hafter] at h
        exact absurd rfl h
      · rw [hafter] at h
        obtain ⟨body, hbody, rfl⟩ := afterBlock_eq_some_iff.1 hafter
        obtain ⟨pre, hpre, heq⟩ := ih _ h
        exact ⟨body ++ pre, .block (isBlockDoc_of_append hbody hblock) hbody hpre,
          by rw [List.append_assoc, ← heq]⟩
    · obtain ⟨content, hcontent⟩ := List.isPrefixOf_iff_prefix.1 hattr
      change '#' :: '[' :: content = rest at hcontent
      subst hcontent
      rcases hafter : afterOuterAttr 0 ('#' :: '[' :: content) with - | after
      · exact ⟨[], .nil, rfl⟩
      · rw [hafter] at h
        obtain ⟨inner, hinner, rfl⟩ := afterOuterAttr_eq_some_iff.1 hafter
        obtain ⟨pre, hpre, heq⟩ := ih _ h
        refine ⟨'#' :: '[' :: (inner ++ ']' :: pre), .attr hinner hpre, ?_⟩
        show _ = '#' :: '[' :: ((inner ++ ']' :: pre) ++ stripFrom fuel after)
        rw [List.append_assoc, List.cons_append, ← heq]
    · exact ⟨[], .nil, rfl⟩

/-- What can be read is skipped. -/
theorem stripFrom_append {pre decl : List Char} (hpre : Lead pre) (hdecl : StartsItem decl)
    (fuel : ℕ) (hfuel : (pre ++ decl).length < fuel) : stripFrom fuel (pre ++ decl) = decl := by
  induction hpre generalizing fuel with
  | nil =>
    obtain ⟨fuel, rfl⟩ := Nat.exists_eq_succ_of_ne_zero (Nat.ne_of_gt (Nat.zero_lt_of_lt hfuel))
    obtain ⟨c, rest, rfl⟩ := List.exists_cons_of_ne_nil hdecl.ne_nil
    have hdrop : (c :: rest).dropWhile isWhiteSpace = c :: rest :=
      List.dropWhile_cons_of_neg (hdecl.head c rfl)
    show stripFrom (fuel + 1) (c :: rest) = _
    rw [stripFrom, hdrop]
    exact (if_neg hdecl.line).trans ((if_neg hdecl.block).trans (if_neg hdecl.attr))
  | space hspace _ ih =>
    obtain ⟨fuel, rfl⟩ := Nat.exists_eq_succ_of_ne_zero (Nat.ne_of_gt (Nat.zero_lt_of_lt hfuel))
    rw [List.cons_append, stripFrom_space hspace]
    exact ih _ (Nat.lt_of_succ_lt hfuel)
  | @line body rest hdoc hline _ ih =>
    obtain ⟨fuel, rfl⟩ := Nat.exists_eq_succ_of_ne_zero (Nat.ne_of_gt (Nat.zero_lt_of_lt hfuel))
    rw [List.append_assoc, List.cons_append, stripFrom_line (isLineDoc_append hdoc _),
      afterLine_append hline]
    refine ih fuel ?_
    simp at hfuel ⊢
    omega
  | @block body rest hdoc hend _ ih =>
    obtain ⟨fuel, rfl⟩ := Nat.exists_eq_succ_of_ne_zero (Nat.ne_of_gt (Nat.zero_lt_of_lt hfuel))
    rw [List.append_assoc, stripFrom_block (isBlockDoc_append hdoc _),
      afterBlock_eq_some_iff.2 ⟨body, hend, rfl⟩]
    refine ih fuel ?_
    have hpos : 0 < body.length := by
      cases hend <;> simp
    simp at hfuel ⊢
    omega
  | @attr content rest hcontent _ ih =>
    obtain ⟨fuel, rfl⟩ := Nat.exists_eq_succ_of_ne_zero (Nat.ne_of_gt (Nat.zero_lt_of_lt hfuel))
    show stripFrom (fuel + 1) ('#' :: '[' :: ((content ++ ']' :: rest) ++ decl)) = _
    rw [stripFrom_attr, List.append_assoc, List.cons_append,
      afterOuterAttr_eq_some_iff.2 ⟨content, hcontent, rfl⟩]
    refine ih fuel ?_
    simp at hfuel ⊢
    omega

/-- **When exactly the declaration is returned**: if what stands before it can be read by its
brackets and ends alone. -/
theorem stripLeadingAttrsDocs_append_iff {pre decl : List Char} (hdecl : StartsItem decl) :
    stripLeadingAttrsDocs (pre ++ decl) = decl ↔ Lead pre := by
  constructor
  · intro h
    obtain ⟨read, hread, heq⟩ := exists_lead ((pre ++ decl).length + 1) (pre ++ decl)
      (by rw [← stripLeadingAttrsDocs, h]; exact hdecl.ne_nil)
    rw [← stripLeadingAttrsDocs, h] at heq
    rwa [List.append_cancel_right heq]
  · intro h
    exact stripFrom_append h hdecl _ (Nat.lt_succ_self _)

theorem startsItem_struct : StartsItem "struct S;".toList where
  ne_nil := by decide
  head c hc := by
    obtain rfl : 's' = c := Option.some.inj hc
    decide
  line := by decide
  block := by decide
  attr := by decide

theorem stripLeadingAttrsDocs_append_iff_derive :
    stripLeadingAttrsDocs ("#[derive(Debug)]\n/// A unit.\n".toList ++ "struct S;".toList) =
        "struct S;".toList ↔ Lead "#[derive(Debug)]\n/// A unit.\n".toList :=
  stripLeadingAttrsDocs_append_iff startsItem_struct

/-! ### What the language allows -/

/-- The inside of a literal: the quote itself is escaped. -/
inductive Quoted (quote : Char) : List Char → Prop
  | nil : Quoted quote []
  | char {c : Char} {rest : List Char} (hquote : c ≠ quote) (hescape : c ≠ '\\')
      (tail : Quoted quote rest) : Quoted quote (c :: rest)
  | escape {c : Char} {rest : List Char} (tail : Quoted quote rest) :
      Quoted quote ('\\' :: c :: rest)

/-- The balanced content of an attribute. -/
inductive AttrContent : List Char → Prop
  | nil : AttrContent []
  | char {c : Char} {rest : List Char} (hc : c ∉ "[]()\x7b\x7d\"'".toList)
      (tail : AttrContent rest) : AttrContent (c :: rest)
  | group {delimiters : Char × Char} {inner rest : List Char}
      (hdelimiters : delimiters ∈ [('[', ']'), ('(', ')'), ('\x7b', '\x7d')])
      (inside : AttrContent inner) (tail : AttrContent rest) :
      AttrContent (delimiters.1 :: (inner ++ delimiters.2 :: rest))
  | string {body rest : List Char} (inside : Quoted '"' body) (tail : AttrContent rest) :
      AttrContent ('"' :: (body ++ '"' :: rest))
  | charLiteral {body rest : List Char} (inside : Quoted '\'' body) (tail : AttrContent rest) :
      AttrContent ('\'' :: (body ++ '\'' :: rest))
  | rawString {hashes : ℕ} {body rest : List Char}
      (inside : ¬ ('"' :: List.replicate hashes '#') <:+: body) (tail : AttrContent rest) :
      AttrContent ('r' :: (List.replicate hashes '#' ++ '"' :: (body ++
        '"' :: (List.replicate hashes '#' ++ rest))))

/-- The text of a block comment, with comments in it. -/
inductive CommentText : List Char → Prop
  | plain {text : List Char} (hopen : ¬ "/*".toList <:+: text) (hclose : ¬ "*/".toList <:+: text) :
      CommentText text
  | nested {before inner after : List Char} (first : CommentText before)
      (inside : CommentText inner) (tail : CommentText after) :
      CommentText (before ++ ("/*".toList ++ (inner ++ ("*/".toList ++ after))))

/-- White space, outer attributes and doc comments. -/
inductive LeadingTrivia : List Char → Prop
  | nil : LeadingTrivia []
  | space {c : Char} {rest : List Char} (hspace : isWhiteSpace c) (tail : LeadingTrivia rest) :
      LeadingTrivia (c :: rest)
  | line {marker body rest : List Char} (hmarker : marker ∈ ["///".toList, "//!".toList])
      (hdoc : marker = "///".toList → body.head? ≠ some '/') (hline : '\n' ∉ body)
      (tail : LeadingTrivia rest) : LeadingTrivia (marker ++ (body ++ '\n' :: rest))
  | block {marker body rest : List Char} (hmarker : marker ∈ ["/**".toList, "/*!".toList])
      (hdoc : marker = "/**".toList → body.head? ≠ some '*') (inside : CommentText body)
      (tail : LeadingTrivia rest) : LeadingTrivia (marker ++ (body ++ ("*/".toList ++ rest)))
  | attr {content rest : List Char} (inside : AttrContent content) (tail : LeadingTrivia rest) :
      LeadingTrivia ('#' :: '[' :: (content ++ ']' :: rest))

/-- A bracket in a string ends the attribute, and an inner comment the outer one. -/
theorem literal_and_nested :
    StartsItem "struct S;".toList ∧
    (LeadingTrivia "#[doc = \"]\"]\n".toList ∧
      stripLeadingAttrsDocs ("#[doc = \"]\"]\n".toList ++ "struct S;".toList) =
        "\"]\nstruct S;".toList) ∧
    LeadingTrivia "/** a /* b */ c */\n".toList ∧
      stripLeadingAttrsDocs ("/** a /* b */ c */\n".toList ++ "struct S;".toList) =
        "c */\nstruct S;".toList := by
  have hnewline : LeadingTrivia ['\n'] := .space (by decide) .nil
  refine ⟨startsItem_struct, ⟨?_, by decide⟩, ?_, by decide⟩
  · have hquoted : Quoted '"' "]".toList := .char (by decide) (by decide) .nil
    have hstring : AttrContent "\"]\"".toList := .string hquoted .nil
    have hcontent : AttrContent "doc = \"]\"".toList :=
      .char (by decide) <| .char (by decide) <| .char (by decide) <| .char (by decide) <|
        .char (by decide) <| .char (by decide) hstring
    exact .attr hcontent hnewline
  · have hplain : ∀ text ∈ [" a ".toList, " b ".toList, " c ".toList], CommentText text := by
      intro text htext
      refine .plain ?_ ?_ <;> revert text <;> decide
    have hbody : CommentText " a /* b */ c ".toList :=
      .nested (hplain " a ".toList (by decide)) (hplain " b ".toList (by decide))
        (hplain " c ".toList (by decide))
    have hmarker : "/**".toList ∈ ["/**".toList, "/*!".toList] := by decide
    exact .block hmarker (by decide) hbody hnewline

end RustCodeMcp.Skeleton
