import RustCodeMcp.Graph.Names
import Mathlib.Data.Char
import Mathlib.Data.List.Infix
import Mathlib.Data.List.Lex
import Mathlib.Data.List.TakeWhile

/-!
# Items with an attribute

An attribute is stored as its text `#[..]`, and a pattern is compared with the beginning of this
text, or with the path that the text begins with. What is taken off a bracketed pattern before it is
read as a path is put back when no exclamation mark follows, so a bracketed path is only ever
compared with the text (`matchAttribute_iff`).

The text is the printed attribute, which always begins with `#[` and may go on with an inner `!`, a
path and its arguments. A pattern is tried in two ways, and one is enough: as the beginning of the
text, and, without its bracket, as a path or the last segment of one. Only the first sees a pattern
whose bracket was put back.

Each spelling has its own law, and the comparison of the two is drawn from these:

* `matchAttribute_bracketed`: a bracketed path matches only the attribute that it is;
* `matchAttribute_bare`: a bare path matches the attributes that begin with it, as far as the text
  is read as a path;
* `matchAttribute_iff`: when the two agree with the path of an attribute;
* `lists_iff`: what the query lists is told by the match, item by item.
-/

namespace RustCodeMcp.Surface

open Navigation (Name ItemKind rsplitOnce)
open Ownership (NodeKind)

/-! ### The match -/

/-- `str::strip_prefix` -/
def stripPrefix (pre text : Name) : Option Name :=
  if pre <+: text then some (text.drop pre.length) else none

/-- `str::strip_suffix` of one character. -/
def stripSuffix (c : Char) (text : Name) : Option Name :=
  if text.getLast? = some c then some text.dropLast else none

/-- A pattern without its bracket, where an exclamation mark follows it. -/
def normalizeAttrPattern (pat : Name) : Name :=
  let inner := (stripPrefix ['#', '['] pat).getD pat
  -- The fallback is the pattern as it came.
  let pat := (stripPrefix ['!'] inner).getD ((stripPrefix ['#', '!', '['] pat).getD pat)
  (stripSuffix ']' pat).getD pat

/-- `c.is_ascii_alphanumeric() || c == '_' || c == ':'` -/
def isPathChar (c : Char) : Bool :=
  c.isAlphanum || c = '_' || c = ':'

/-- Whether a pattern is nothing but a path. -/
def attrPatternIsPathOnly (pat : Name) : Bool :=
  !pat.isEmpty && pat.all isPathChar

/-- The path that the body of an attribute begins with. -/
def attrPath (body : Name) : Name :=
  body.takeWhile isPathChar

/-- `path.rsplit("::").next()` -/
def lastSegment (path : Name) : Name :=
  match rsplitOnce path with
  | some (_, last) => last
  | none => path

/-- Whether the pattern is read as a path of the attribute, or begins its body. -/
def attrMatchesPathOrBody (attr pat : Name) : Bool :=
  match stripPrefix ['#', '['] attr with
  | none => false
  | some body =>
    let normalizedPat := normalizeAttrPattern pat
    if normalizedPat.isEmpty then false
    else if attrPatternIsPathOnly normalizedPat then
      let path := attrPath body
      path = normalizedPat || lastSegment path = normalizedPat
    else normalizedPat.isPrefixOf body

/-- Where the match was. -/
inductive MatchLocation
  | attr
  | doc
  deriving DecidableEq

/-- Match an attribute with a pattern; the empty one matches nothing. -/
def matchAttribute (attr pat : Name) : Option MatchLocation :=
  if pat.isEmpty then none
  else if pat <+: attr then some .attr
  else if attrMatchesPathOrBody attr pat then some .attr
  else
    match stripPrefix ['/', '/', '/', ' '] attr with
    | some body => if pat <+: body then some .doc else none
    | none => none

/-- The fields of a node that the query reads. -/
structure Node (N : Type) where
  id : N
  kind : NodeKind
  qualifiedName : Name
  crateId : Option N
  itemKind : Option ItemKind
  attributes : List Name
  file : Option Name
  span : Option (ℕ × ℕ)
  deriving DecidableEq

/-- An item, and the attribute that matched. -/
structure ItemWithAttribute (N : Type) where
  target : N
  qualifiedName : Name
  itemKind : Option ItemKind
  matchedAttribute : Name
  matchLocation : MatchLocation
  file : Option Name
  span : Option (ℕ × ℕ)
  deriving DecidableEq

/-- The first attribute of an item that matches. -/
def firstMatch (attributes : List Name) (pat : Name) : Option (Name × MatchLocation) :=
  attributes.findSome? fun a ↦ (matchAttribute a pat).map fun location ↦ (a, location)

/-- The items of a crate with a matching attribute. -/
def itemsWithAttribute {N : Type} [DecidableEq N] (nodes : List (Node N)) (crateId : N)
    (attrPattern : Name) : List (ItemWithAttribute N) :=
  if attrPattern.isEmpty then []
  else
    let out := nodes.filterMap fun node ↦
      if node.kind ≠ .item then none
      else if node.crateId ≠ some crateId then none
      else (firstMatch node.attributes attrPattern).map fun (matched, location) ↦
        { target := node.id
          qualifiedName := node.qualifiedName
          itemKind := node.itemKind
          matchedAttribute := matched
          matchLocation := location
          file := node.file
          span := node.span }
    out.mergeSort fun a b ↦ decide (a.qualifiedName ≤ b.qualifiedName)

/-! ### Attributes and paths as they are written -/

/-- A character of an identifier, raw ones included, or of `::`. -/
def InPath (c : Char) : Prop :=
  isPathChar c ∨ c = '#' ∨ 128 ≤ c.toNat ∧ ¬ c ∈ ['\u0085', '\u200e', '\u200f', '\u2028', '\u2029']

/-- The text of a path. -/
structure IsPath (path : Name) : Prop where
  ne_nil : path ≠ []
  inPath : ∀ c ∈ path, InPath c
  start : path.head? ≠ some '#'

/-- A stored attribute `#[..]`. -/
structure Attribute where
  /-- Blanks and comments before the path. -/
  lead : Name
  /-- The path, as far as it is written without blanks. -/
  head : Name
  /-- The rest of a path with blanks in it. -/
  more : Name
  /-- What follows, as it is written: arguments, a value, or the rest of such a path before them. -/
  tail : Name
  lead_start : ∀ c ∈ lead.head?, ¬ InPath c
  head_isPath : IsPath head
  tail_start : ∀ c ∈ tail.head?, ¬ InPath c ∧ c ≠ ']'
  more_eq_nil : tail = [] → more = []

namespace Attribute

/-- The attribute as it is stored. -/
def text (a : Attribute) : Name :=
  '#' :: '[' :: (a.lead ++ a.head ++ a.tail ++ [']'])

/-- The path it begins with. -/
def path (a : Attribute) : Name :=
  a.head ++ a.more

/-- The path is `p`, or ends in the segment `p`. -/
def HasPath (a : Attribute) (p : Name) : Prop :=
  a.path = p ∨ lastSegment a.path = p

/-- What is written begins like an attribute with the path. -/
def BeginsWith (a : Attribute) (p : Name) : Prop :=
  a.lead = [] ∧
    if attrPatternIsPathOnly p then
      a.head.takeWhile isPathChar = p ∨ lastSegment (a.head.takeWhile isPathChar) = p
    else p <+: a.head

end Attribute

/-- A path after `#[`. -/
def bracketed (p : Name) : Name :=
  '#' :: '[' :: (p ++ [']'])

/-! ### What a pattern is read as -/

theorem not_inPath_bracket : ¬ InPath ']' := by
  unfold InPath isPathChar
  decide

theorem not_inPath_bang : ¬ InPath '!' := by
  unfold InPath isPathChar
  decide

theorem normalizeAttrPattern_path {p : Name} (h : IsPath p) : normalizeAttrPattern p = p := by
  obtain ⟨c, rest, rfl⟩ := List.exists_cons_of_ne_nil h.ne_nil
  have hstart : c ≠ '#' := fun hc ↦ h.start (by rw [hc]; rfl)
  have hbang : c ≠ '!' := by
    rintro rfl
    exact not_inPath_bang (h.inPath _ List.mem_cons_self)
  have hlast : (c :: rest).getLast? ≠ some ']' := fun hlast ↦
    not_inPath_bracket (h.inPath _ (List.mem_of_getLast? hlast))
  simp [normalizeAttrPattern, stripPrefix, stripSuffix, hstart.symm, hbang.symm, hlast]

theorem normalizeAttrPattern_bracketed {p : Name} (h : IsPath p) :
    normalizeAttrPattern (bracketed p) = '#' :: '[' :: p := by
  obtain ⟨c, rest, rfl⟩ := List.exists_cons_of_ne_nil h.ne_nil
  have hbang : c ≠ '!' := by
    rintro rfl
    exact not_inPath_bang (h.inPath _ List.mem_cons_self)
  have hsuffix : stripSuffix ']' (bracketed (c :: rest)) = some ('#' :: '[' :: c :: rest) := by
    show stripSuffix ']' (('#' :: '[' :: c :: rest) ++ [']']) = _
    rw [stripSuffix, if_pos List.getLast?_concat, List.dropLast_concat]
  have hbody : stripPrefix ['#', '['] (bracketed (c :: rest)) = some (c :: (rest ++ [']'])) := by
    simp [stripPrefix, bracketed]
  have hexclamation : stripPrefix ['!'] (c :: (rest ++ [']'])) = none := by
    simp [stripPrefix, hbang.symm]
  have hinner : stripPrefix ['#', '!', '['] (bracketed (c :: rest)) = none := by
    simp [stripPrefix, bracketed]
  simp only [normalizeAttrPattern, hbody, Option.getD_some, hexclamation, hinner, Option.getD_none,
    hsuffix]

/-- Where the first part of a text ends. -/
theorem append_inj_of_inPath {l l' m m' : Name} (h : l ++ m = l' ++ m') (hl : ∀ c ∈ l, InPath c)
    (hl' : ∀ c ∈ l', InPath c) (hm : ∀ c ∈ m.head?, ¬ InPath c)
    (hm' : ∀ c ∈ m'.head?, ¬ InPath c) : l = l' ∧ m = m' := by
  induction l generalizing l' with
  | nil =>
    rcases l' with - | ⟨c, l'⟩
    · exact ⟨rfl, h⟩
    · rw [List.nil_append] at h
      exact absurd (hl' c List.mem_cons_self) (hm c (by rw [h]; rfl))
  | cons c l ih =>
    rcases l' with - | ⟨c', l'⟩
    · rw [List.nil_append] at h
      exact absurd (hl c List.mem_cons_self) (hm' c (by rw [← h]; rfl))
    · obtain ⟨rfl, hrest⟩ := List.cons.inj h
      obtain ⟨rfl, rfl⟩ := ih hrest (fun x hx ↦ hl x (List.mem_cons_of_mem _ hx))
        (fun x hx ↦ hl' x (List.mem_cons_of_mem _ hx))
      exact ⟨rfl, rfl⟩

theorem stripPrefix_cons_cons (body : Name) (c d : Char) :
    stripPrefix [c, d] (c :: d :: body) = some body := by
  simp [stripPrefix]

namespace Attribute

variable {a : Attribute} {p : Name}

/-- What comes after the head. -/
theorem rest_start (a : Attribute) : ∀ c ∈ (a.tail ++ [']']).head?, ¬ InPath c := by
  intro c hc
  rcases htail : a.tail with - | ⟨d, tail⟩
  · rw [htail] at hc
    obtain rfl : ']' = c := Option.some.inj hc
    exact not_inPath_bracket
  · rw [htail] at hc
    exact (a.tail_start c (by rw [htail]; exact hc)).1

/-- A text that begins with path characters does not begin with blanks. -/
theorem lead_eq_nil {q : Name} (hq : ∀ c ∈ q.head?, InPath c) (hne : q ≠ [])
    (h : q <+: a.lead ++ a.head ++ a.tail ++ [']']) : a.lead = [] := by
  rcases hlead : a.lead with - | ⟨c, lead⟩
  · rfl
  obtain ⟨d, q, rfl⟩ := List.exists_cons_of_ne_nil hne
  rw [hlead, List.cons_append, List.cons_append, List.cons_append, List.cons_prefix_cons] at h
  exact absurd (h.1 ▸ hq d rfl) (a.lead_start c (by rw [hlead]; rfl))

theorem inPath_head? (h : IsPath p) (q : Name) : ∀ c ∈ (p ++ q).head?, InPath c := by
  obtain ⟨d, rest, rfl⟩ := List.exists_cons_of_ne_nil h.ne_nil
  intro c hc
  obtain rfl : d = c := Option.some.inj hc
  exact h.inPath d List.mem_cons_self

theorem parts_of_bracketed_prefix (h : IsPath p) (hbegins : bracketed p <+: a.text) :
    a.lead = [] ∧ a.head = p ∧ a.tail = [] := by
  rw [bracketed, text, List.cons_prefix_cons, List.cons_prefix_cons] at hbegins
  obtain ⟨-, -, hbegins⟩ := hbegins
  have hlead : a.lead = [] :=
    lead_eq_nil (inPath_head? h _) (List.append_ne_nil_of_right_ne_nil _ (by simp)) hbegins
  obtain ⟨rest, hrest⟩ := hbegins
  rw [hlead, List.nil_append, List.append_assoc, List.append_assoc] at hrest
  obtain ⟨hp, htail⟩ := append_inj_of_inPath hrest h.inPath a.head_isPath.inPath
    (fun c hc ↦ by obtain rfl : ']' = c := Option.some.inj hc; exact not_inPath_bracket)
    a.rest_start
  refine ⟨hlead, hp.symm, ?_⟩
  rcases htail' : a.tail with - | ⟨c, tail⟩
  · rfl
  · rw [htail'] at htail
    obtain ⟨rfl, -⟩ := List.cons.inj htail
    exact absurd rfl (a.tail_start ']' (by rw [htail']; rfl)).2

/-- A bracketed path begins the text only of the attribute that it is. -/
theorem bracketed_prefix_iff (h : IsPath p) : bracketed p <+: a.text ↔ a.text = bracketed p := by
  constructor
  · intro hbegins
    obtain ⟨hlead, hhead, htail⟩ := parts_of_bracketed_prefix h hbegins
    rw [text, hlead, hhead, htail, bracketed, List.nil_append, List.append_nil]
  · intro htext
    rw [htext]

theorem matchAttribute_text (a : Attribute) (pat : Name) :
    (matchAttribute a.text pat).isSome ↔
      pat ≠ [] ∧ (pat <+: a.text ∨ attrMatchesPathOrBody a.text pat) := by
  have hdoc : stripPrefix ['/', '/', '/', ' '] a.text = none := by
    simp [stripPrefix, text]
  rcases pat with - | ⟨c, pat⟩
  · simp [matchAttribute]
  rw [matchAttribute, hdoc]
  by_cases hbegins : c :: pat <+: a.text
  · simp [hbegins]
  · cases hbody : attrMatchesPathOrBody a.text (c :: pat) <;> simp [hbegins]

theorem attrMatchesPathOrBody_text (a : Attribute) (pat : Name) :
    attrMatchesPathOrBody a.text pat =
      let body := a.lead ++ a.head ++ a.tail ++ [']']
      let normalizedPat := normalizeAttrPattern pat
      if normalizedPat.isEmpty then false
      else if attrPatternIsPathOnly normalizedPat then
        let path := attrPath body
        path = normalizedPat || lastSegment path = normalizedPat
      else normalizedPat.isPrefixOf body := by
  rw [attrMatchesPathOrBody, text, stripPrefix_cons_cons]

/-- **A bracketed path matches only the attribute that it is.** -/
theorem matchAttribute_bracketed (a : Attribute) (h : IsPath p) :
    (matchAttribute a.text (bracketed p)).isSome ↔ a.text = bracketed p := by
  have hbody : attrMatchesPathOrBody a.text (bracketed p) = false := by
    rw [attrMatchesPathOrBody_text, normalizeAttrPattern_bracketed h]
    have hhash : ¬ isPathChar '#' := by decide
    simp only [List.isEmpty_cons, Bool.false_eq_true, if_false, attrPatternIsPathOnly,
      List.all_cons, hhash, Bool.false_and, Bool.and_false]
    rw [← Bool.not_eq_true, List.isPrefixOf_iff_prefix]
    intro hbegins
    have hlead := lead_eq_nil (fun c hc ↦ by
      obtain rfl : '#' = c := Option.some.inj hc
      exact .inr (.inl rfl)) (by simp) hbegins
    obtain ⟨d, rest, hd⟩ := List.exists_cons_of_ne_nil a.head_isPath.ne_nil
    rw [hlead, hd, List.nil_append, List.cons_append, List.cons_append,
      List.cons_prefix_cons] at hbegins
    exact a.head_isPath.start (by rw [hd, ← hbegins.1]; rfl)
  rw [matchAttribute_text, hbody, bracketed_prefix_iff h]
  simp [bracketed]

/-- What begins the rest of the text and has only path characters begins the head. -/
theorem prefix_head (h : IsPath p) (hbegins : p <+: a.head ++ (a.tail ++ [']'])) :
    p <+: a.head := by
  rcases List.prefix_or_prefix_of_prefix hbegins (List.prefix_append a.head _) with hp | ⟨q, hq⟩
  · exact hp
  rw [← hq, List.prefix_append_right_inj] at hbegins
  rcases q with - | ⟨c, q⟩
  · rw [← hq, List.append_nil]
  · obtain ⟨rest, hrest⟩ := hbegins
    refine absurd (h.inPath c ?_) (a.rest_start c (by rw [← hrest]; rfl))
    rw [← hq]
    exact List.mem_append_right _ List.mem_cons_self

theorem attrPath_head (a : Attribute) :
    attrPath (a.head ++ (a.tail ++ [']'])) = a.head.takeWhile isPathChar := by
  rw [attrPath, List.takeWhile_append]
  split
  · rename_i hall
    obtain ⟨c, rest, hrest⟩ := List.exists_cons_of_ne_nil
      (List.append_ne_nil_of_right_ne_nil a.tail (List.cons_ne_nil ']' []))
    have hc : ¬ isPathChar c := fun hc ↦ a.rest_start c (by rw [hrest]; rfl) (.inl hc)
    rw [hrest, List.takeWhile_cons_of_neg hc, List.append_nil]
    exact ((List.takeWhile_prefix isPathChar).eq_of_length hall).symm
  · rfl

/-- **A bare path matches the attributes that begin with it**, as far as the text is read as a
path. -/
theorem matchAttribute_bare (a : Attribute) (h : IsPath p) :
    (matchAttribute a.text p).isSome ↔ a.BeginsWith p := by
  have hbegins : ¬ p <+: a.text := by
    obtain ⟨c, rest, rfl⟩ := List.exists_cons_of_ne_nil h.ne_nil
    rw [text, List.cons_prefix_cons]
    exact fun hc ↦ h.start (by rw [hc.1]; rfl)
  have hempty : p.isEmpty = false := by
    rw [← Bool.not_eq_true, List.isEmpty_iff]
    exact h.ne_nil
  rw [matchAttribute_text, attrMatchesPathOrBody_text, normalizeAttrPattern_path h, BeginsWith]
  simp only [hempty, Bool.false_eq_true, if_false, ne_eq, h.ne_nil, not_false_eq_true, hbegins,
    false_or, true_and]
  cases hpath : attrPatternIsPathOnly p
  · -- Such a pattern is compared with the text.
    simp only [Bool.false_eq_true, if_false, List.isPrefixOf_iff_prefix]
    constructor
    · intro hbody
      have hlead := lead_eq_nil (p.append_nil ▸ inPath_head? h []) h.ne_nil hbody
      refine ⟨hlead, ?_⟩
      rw [hlead, List.nil_append, List.append_assoc] at hbody
      exact prefix_head h hbody
    · rintro ⟨hlead, hhead⟩
      rw [hlead, List.nil_append, List.append_assoc]
      exact hhead.trans (List.prefix_append _ _)
  · simp only [if_true, Bool.or_eq_true, decide_eq_true_eq]
    rcases hlead : a.lead with - | ⟨c, lead⟩
    · rw [List.nil_append, List.append_assoc, attrPath_head]
      simp
    · have hc : ¬ isPathChar c := fun hc ↦ a.lead_start c (by rw [hlead]; rfl) (.inl hc)
      rw [List.cons_append, List.cons_append, List.cons_append, attrPath,
        List.takeWhile_cons_of_neg hc]
      simp [h.ne_nil.symm, lastSegment, rsplitOnce]

/-- The attribute that is its path alone has that path, and begins with it. -/
theorem hasPath_of_text {a : Attribute} {p : Name} (h : IsPath p) (htext : a.text = bracketed p) :
    a.HasPath p ∧ a.BeginsWith p := by
  obtain ⟨hlead, hhead, htail⟩ := parts_of_bracketed_prefix h (by rw [htext])
  refine ⟨.inl (by rw [path, hhead, a.more_eq_nil htail, List.append_nil]), hlead, ?_⟩
  rw [hhead]
  split
  · rename_i honly
    rw [attrPatternIsPathOnly, Bool.and_eq_true, List.all_eq_true] at honly
    exact .inl (List.takeWhile_eq_self_iff.2 honly.2)
  · exact List.prefix_rfl

/-- **Bracketed and bare patterns agree** with the path of an attribute exactly when it is that path
alone in brackets, or does not have the path and is not read as if it had. -/
theorem matchAttribute_iff (a : Attribute) {p : Name} (h : IsPath p) :
    (((matchAttribute a.text (bracketed p)).isSome ↔ (matchAttribute a.text p).isSome) ∧
        ((matchAttribute a.text p).isSome ↔ a.HasPath p)) ↔
      a.text = bracketed p ∨ ¬ a.HasPath p ∧ ¬ a.BeginsWith p := by
  rw [matchAttribute_bracketed a h, matchAttribute_bare a h]
  have hexact := @hasPath_of_text a p h
  by_cases htext : a.text = bracketed p
  · simp [htext, hexact htext]
  · simp only [htext, false_or, false_iff]
    constructor
    · rintro ⟨hbegins, hpath⟩
      exact ⟨fun h ↦ hbegins (hpath.2 h), hbegins⟩
    · rintro ⟨hpath, hbegins⟩
      exact ⟨hbegins, fun h ↦ absurd h hbegins, fun h ↦ absurd h hpath⟩

end Attribute

/-! ### What the query lists -/

section Query

variable {N : Type} [DecidableEq N] {nodes : List (Node N)} {crateId id : N} {pat p : Name}

/-- An item of the crate with an attribute of which `P` holds. -/
def HasAttribute (nodes : List (Node N)) (crateId id : N) (P : Name → Prop) : Prop :=
  ∃ node ∈ nodes, node.id = id ∧ node.kind = .item ∧ node.crateId = some crateId ∧
    ∃ attr ∈ node.attributes, P attr

/-- The query answers with an item. -/
def Lists (nodes : List (Node N)) (crateId id : N) (pat : Name) : Prop :=
  ∃ item ∈ itemsWithAttribute nodes crateId pat, item.target = id

omit [DecidableEq N] in
theorem HasAttribute.mono {P Q : Name → Prop}
    (hPQ : ∀ node ∈ nodes, ∀ attr ∈ node.attributes, P attr → Q attr)
    (h : HasAttribute nodes crateId id P) : HasAttribute nodes crateId id Q := by
  obtain ⟨node, hnode, hid, hkind, hcrate, attr, hattr, hP⟩ := h
  exact ⟨node, hnode, hid, hkind, hcrate, attr, hattr, hPQ node hnode attr hattr hP⟩

/-- **The query lists the items of the crate that have an attribute the pattern matches.** -/
theorem lists_iff :
    Lists nodes crateId id pat ↔
      HasAttribute nodes crateId id fun attr ↦ (matchAttribute attr pat).isSome = true := by
  rw [Lists, itemsWithAttribute]
  split
  next hempty =>
    rw [List.isEmpty_iff] at hempty
    simp [HasAttribute, matchAttribute, hempty]
  next =>
    simp only [List.mem_mergeSort, List.mem_filterMap, HasAttribute]
    constructor
    · rintro ⟨item, ⟨node, hnode, hitem⟩, rfl⟩
      split_ifs at hitem with hkind hcrate
      obtain ⟨⟨attr, location⟩, hfirst, rfl⟩ := Option.map_eq_some_iff.1 hitem
      obtain ⟨_, hattr, hmatch⟩ := List.exists_of_findSome?_eq_some hfirst
      obtain ⟨_, hlocation, -⟩ := Option.map_eq_some_iff.1 hmatch
      exact ⟨node, hnode, rfl, not_not.1 hkind, not_not.1 hcrate, _, hattr, by rw [hlocation]; rfl⟩
    · rintro ⟨node, hnode, rfl, hkind, hcrate, attr, hattr, hmatch⟩
      have hfirst : (firstMatch node.attributes pat).isSome = true := by
        rw [firstMatch, List.findSome?_isSome_iff]
        exact ⟨attr, hattr, by rw [Option.isSome_map]; exact hmatch⟩
      obtain ⟨⟨found, location⟩, hfound⟩ := Option.isSome_iff_exists.1 hfirst
      exact ⟨_, ⟨node, hnode, by
        rw [if_neg (not_not.2 hkind), if_neg (not_not.2 hcrate), hfound]; rfl⟩, rfl⟩

/-- **Bracketed and bare path list the same items**, those with the path, if every attribute is the
path alone in brackets, or does not have it and is not read as if it had. -/
theorem lists_bracketed_iff {stored : Name → Attribute} (h : IsPath p)
    (hstored : ∀ node ∈ nodes, ∀ attr ∈ node.attributes, (stored attr).text = attr)
    (hagrees : ∀ node ∈ nodes, ∀ attr ∈ node.attributes, attr = bracketed p ∨
      ¬ (stored attr).HasPath p ∧ ¬ (stored attr).BeginsWith p) :
    (Lists nodes crateId id (bracketed p) ↔ Lists nodes crateId id p) ∧
      (Lists nodes crateId id p ↔
        HasAttribute nodes crateId id fun attr ↦ (stored attr).HasPath p) := by
  have hbracketed : ∀ node ∈ nodes, ∀ attr ∈ node.attributes,
      ((matchAttribute attr (bracketed p)).isSome = true ↔ attr = bracketed p) :=
    fun node hnode attr hattr ↦ by
      rw [← hstored node hnode attr hattr]
      exact Attribute.matchAttribute_bracketed _ h
  have hbare : ∀ node ∈ nodes, ∀ attr ∈ node.attributes,
      ((matchAttribute attr p).isSome = true ↔ attr = bracketed p) ∧
        ((stored attr).HasPath p ↔ attr = bracketed p) := by
    intro node hnode attr hattr
    have hbegins := Attribute.matchAttribute_bare (stored attr) h
    rw [hstored node hnode attr hattr] at hbegins
    rcases hagrees node hnode attr hattr with htext | ⟨hpath, hnot⟩
    · have hboth := Attribute.hasPath_of_text h ((hstored node hnode attr hattr).trans htext)
      exact ⟨hbegins.trans (iff_of_true hboth.2 htext), iff_of_true hboth.1 htext⟩
    · have htext : attr ≠ bracketed p := fun htext ↦ hpath
        (Attribute.hasPath_of_text h ((hstored node hnode attr hattr).trans htext)).1
      exact ⟨hbegins.trans (iff_of_false hnot htext), iff_of_false hpath htext⟩
  rw [lists_iff, lists_iff]
  refine ⟨
    ⟨.mono fun node hnode attr hattr hmatch ↦ ?_, .mono fun node hnode attr hattr hmatch ↦ ?_⟩,
    ⟨.mono fun node hnode attr hattr hmatch ↦ ?_, .mono fun node hnode attr hattr hpath ↦ ?_⟩⟩
  · exact (hbare node hnode attr hattr).1.2 ((hbracketed node hnode attr hattr).1 hmatch)
  · exact (hbracketed node hnode attr hattr).2 ((hbare node hnode attr hattr).1.1 hmatch)
  · exact (hbare node hnode attr hattr).2.2 ((hbare node hnode attr hattr).1.1 hmatch)
  · exact (hbare node hnode attr hattr).1.2 ((hbare node hnode attr hattr).2.1 hpath)

end Query

/-! ### A derive -/

/-- `#[derive(Debug)]` -/
def deriveDebug : Attribute where
  lead := []
  head := "derive".toList
  more := []
  tail := "(Debug)".toList
  lead_start := by simp
  head_isPath :=
    ⟨by decide,
      fun c hc ↦ .inl (List.all_eq_true.1 (by decide : "derive".toList.all isPathChar = true) c hc),
      by decide⟩
  tail_start := by
    rintro c ⟨rfl⟩
    refine ⟨?_, by decide⟩
    rintro (h | h | ⟨h, -⟩) <;> exact absurd h (by decide)
  more_eq_nil _ := rfl

/-- The bracketed pattern does not match it. -/
theorem deriveDebug_bracketed : ¬ ∀ (a : Attribute) (p : Name), IsPath p →
    ((matchAttribute a.text (bracketed p)).isSome ↔ (matchAttribute a.text p).isSome) ∧
      ((matchAttribute a.text p).isSome ↔ a.HasPath p) := by
  intro h
  have hmatch := (h deriveDebug "derive".toList deriveDebug.head_isPath).1
  exact absurd hmatch (by decide)

theorem matchAttribute_iff_deriveDebug :
    (((matchAttribute deriveDebug.text (bracketed "derive".toList)).isSome ↔
          (matchAttribute deriveDebug.text "derive".toList).isSome) ∧
        ((matchAttribute deriveDebug.text "derive".toList).isSome ↔
          deriveDebug.HasPath "derive".toList)) ↔
      deriveDebug.text = bracketed "derive".toList ∨
        ¬ deriveDebug.HasPath "derive".toList ∧ ¬ deriveDebug.BeginsWith "derive".toList :=
  Attribute.matchAttribute_iff deriveDebug deriveDebug.head_isPath

end RustCodeMcp.Surface
