import Mathlib.Data.List.Pairwise
import RustCodeMcp.Skeleton.Prefix
import RustCodeMcp.Text.Splice

/-!
# An item without its bodies

The text of an item with a placeholder for every body that is not inside another one. The bodies are
those of the item's functions, constants and statics at any depth (`collectBodyReplacements`), and
their ranges nest. Longest first, what overlaps nothing kept before it remains, and is replaced from
the last to the first.

An empty range at the end of another one overlaps it nowhere, so it counts as outside
(`renderBodies_spec`). A body is never empty, and among ranges that are not, those that remain are
simply those in no other (`rendersExactly_of_nonempty`).

The results:

* `renderBodies_spec`: what remains of a family of ranges that nest is replaced in the text, and
  nothing else is changed;
* `nested_collectBodyReplacements`: the bodies of a parsed item nest;
* `rendersExactly_collectBodyReplacements`: so an item is rendered with each of its outermost bodies
  replaced.
-/

namespace RustCodeMcp.Skeleton

open Splice

/-- Where a node stands, in bytes. -/
abbrev TextRange := Splice.Range

/-! ### The syntax tree -/

/-- What a node is, as far as bodies go, with the range of its body. -/
inductive NodeKind
  | fn (body : Option TextRange)
  | const (body : Option TextRange)
  | static (body : Option TextRange)
  | other

/-- A node of the tree, with its range. -/
inductive SyntaxNode
  | node (kind : NodeKind) (range : TextRange) (children : List SyntaxNode)

/-- What the node is. -/
def SyntaxNode.kind : SyntaxNode → NodeKind
  | .node kind _ _ => kind

/-- Where it stands. -/
def SyntaxNode.textRange : SyntaxNode → TextRange
  | .node _ range _ => range

mutual

/-- A node and all below it, in the order of the text. -/
def SyntaxNode.descendants : SyntaxNode → List SyntaxNode
  | .node kind range children => .node kind range children :: descendantsOf children

/-- Several nodes, one after the other. -/
def descendantsOf : List SyntaxNode → List SyntaxNode
  | [] => []
  | child :: rest => child.descendants ++ descendantsOf rest

end

/-- What stands for the body of a function. -/
def FN_PLACEHOLDER : List Char :=
  "\x7b /* ... */ \x7d".toList

/-- What stands for the value of a constant or a static. -/
def VALUE_PLACEHOLDER : List Char :=
  "todo!()".toList

/-- The body of a node, and what stands for it. -/
def NodeKind.replacement? : NodeKind → Option (Replacement Char)
  | fn body => body.map (⟨·, FN_PLACEHOLDER⟩)
  | const body => body.map (⟨·, VALUE_PLACEHOLDER⟩)
  | static body => body.map (⟨·, VALUE_PLACEHOLDER⟩)
  | other => none

/-- The bodies of an item. -/
def collectBodyReplacements (syntaxNode : SyntaxNode) : List (Replacement Char) :=
  syntaxNode.descendants.filterMap fun node ↦ node.kind.replacement?

/-! ### Rendering -/

/-- `&source[start..end]`; it panics where a position cuts a character. -/
def sliceRange (source : List Char) (range : TextRange) : Option (List Char) := do
  let (_, rest) ← splitAt Char.utf8Size source range.start
  let (text, _) ← splitAt Char.utf8Size rest (range.stop - range.start)
  some text

/-- The text of an item with its bodies replaced. -/
def renderBodies (source : List Char) (range : TextRange) (replacements : List (Replacement Char)) :
    Option (List Char) := do
  let text ← sliceRange source range
  (nonOverlapping replacements).foldlM (fun rendered r ↦
    replaceRange Char.utf8Size rendered (r.range.start - range.start) (r.range.stop - range.start)
      r.text) text

/-- Which attributes are kept. -/
structure SkeletonOptions where
  includeDocs : Bool
  includeAttrs : Bool

/-- Whether an attribute is a doc comment. -/
def isDocAttr (attr : List Char) : Bool :=
  let trimmed := attr.dropWhile isWhiteSpace
  isLineDoc trimmed || isBlockDoc trimmed

/-- Whether an attribute is kept. -/
def keepAttr (attr : List Char) (opts : SkeletonOptions) : Bool :=
  if isDocAttr attr then opts.includeDocs else opts.includeAttrs

/-- The attributes that are kept, and the item without its bodies. -/
def renderSourceItemText (source : List Char) (syntaxNode : SyntaxNode) (attrs : List (List Char))
    (opts : SkeletonOptions) : Option (List Char) := do
  let rendered ← renderBodies source syntaxNode.textRange (collectBodyReplacements syntaxNode)
  let declaration := trim (stripLeadingAttrsDocs rendered)
  some (((attrs.filter (keepAttr · opts)).flatMap (· ++ ['\n'])) ++ declaration)

/-! ### Families of bodies -/

/-- A position between two characters. -/
def OnBoundary (source : List Char) (n : ℕ) : Prop :=
  ∃ before after, source = before ++ after ∧ width Char.utf8Size before = n

theorem onBoundary_iff {source : List Char} {n : ℕ} :
    OnBoundary source n ↔ (splitAt Char.utf8Size source n).isSome := by
  rw [Option.isSome_iff_exists, Prod.exists]
  simp only [splitAt_eq_some_iff Char.utf8Size_pos, OnBoundary]

instance (source : List Char) (n : ℕ) : Decidable (OnBoundary source n) :=
  decidable_of_iff' _ onBoundary_iff

/-- Ranges that nest, inside an item. -/
structure Bodies (source : List Char) (item : TextRange) (family : List (Replacement Char)) :
    Prop where
  start : OnBoundary source item.start
  stop : OnBoundary source item.stop
  inside : ∀ r ∈ family, r.range.Within item
  boundary : ∀ r ∈ family, OnBoundary source r.range.start ∧ OnBoundary source r.range.stop
  nodup : (family.map Replacement.range).Nodup
  laminar : Laminar family

/-- The rendered text is the item's with each of the outermost ranges replaced and everything else
as it was; they lie apart, and every range is inside one of them. -/
def RendersExactly (source : List Char) (item : TextRange) (family : List (Replacement Char))
    (outermost : Replacement Char → Prop) : Prop :=
  ∃ outer text rendered, (∀ r, r ∈ outer ↔ r ∈ family ∧ outermost r) ∧
    outer.Pairwise (fun a b ↦ a.range.stop ≤ b.range.start) ∧
    (∀ a ∈ family, ∃ k ∈ outer, a.range.Within k.range) ∧
    sliceRange source item = some text ∧ renderBodies source item family = some rendered ∧
    Replaced Char.utf8Size item.start text outer rendered

/-- No other range has this one in it. -/
def Maximal (family : List (Replacement Char)) (r : Replacement Char) : Prop :=
  ∀ a ∈ family, r.range.Within a.range → a.range = r.range

theorem sliceRange_eq_some {source : List Char} {range : TextRange}
    (hstart : OnBoundary source range.start) (hstop : OnBoundary source range.stop) :
    ∃ before text after, source = before ++ (text ++ after) ∧
      width Char.utf8Size before = range.start ∧
      range.start + width Char.utf8Size text = range.stop ∧
      sliceRange source range = some text := by
  obtain ⟨before, rest, rfl, hbefore⟩ := hstart
  obtain ⟨upto, after, heq, hupto⟩ := hstop
  have hrange := range.start_le_stop
  obtain ⟨text, rfl, rfl⟩ := exists_append_of_width_le Char.utf8Size_pos heq (by omega)
  rw [width_append] at hupto
  refine ⟨before, text, after, rfl, hbefore, by omega, ?_⟩
  have hsplit : splitAt Char.utf8Size (before ++ (text ++ after)) range.start =
      some (before, text ++ after) := (splitAt_eq_some_iff Char.utf8Size_pos).2 ⟨rfl, hbefore⟩
  have hpart : splitAt Char.utf8Size (text ++ after) (range.stop - range.start) =
      some (text, after) := (splitAt_eq_some_iff Char.utf8Size_pos).2 ⟨rfl, by omega⟩
  rw [sliceRange, hsplit]
  show (splitAt Char.utf8Size (text ++ after) _ >>= fun x ↦ some x.1) = _
  rw [hpart]
  rfl

/-- A position inside a part of the source is between two of the part's characters. -/
theorem exists_append_of_onBoundary {before text after : List Char} {n : ℕ}
    (h : OnBoundary (before ++ (text ++ after)) n) (hstart : width Char.utf8Size before ≤ n)
    (hstop : n ≤ width Char.utf8Size before + width Char.utf8Size text) :
    ∃ a b, text = a ++ b ∧ width Char.utf8Size before + width Char.utf8Size a = n := by
  obtain ⟨x, y, heq, hx⟩ := h
  obtain ⟨a, rfl, hrest⟩ := exists_append_of_width_le Char.utf8Size_pos heq (by omega)
  rw [width_append] at hx
  obtain ⟨b, rfl, -⟩ := exists_append_of_width_le Char.utf8Size_pos hrest.symm (by omega)
  exact ⟨a, b, rfl, hx⟩

/-- The bodies that are replaced are those that no other covers, whatever else says which they
are. -/
theorem rendersExactly_of_iff {source : List Char} {item : TextRange}
    {family : List (Replacement Char)} {Outer : Replacement Char → Prop}
    (h : Bodies source item family) (houter : ∀ r ∈ family, ¬ Covered family r ↔ Outer r) :
    RendersExactly source item family Outer := by
  obtain ⟨hmem, hsorted, hinside⟩ := nonOverlapping_spec h.nodup h.laminar
  obtain ⟨before, text, after, hsource, hbefore, htext, hslice⟩ := sliceRange_eq_some h.start h.stop
  have hmem' : ∀ r, r ∈ (nonOverlapping family).reverse ↔ r ∈ family ∧ ¬ Covered family r := by
    intro r
    rw [List.mem_reverse, hmem]
  obtain ⟨out, hout, hfold⟩ := exists_replaced Char.utf8Size_pos item.start item.start [] text
    (List.pairwise_reverse.2 hsorted) rfl
    (fun r hr ↦ (h.inside r ((hmem' r).1 hr).1).1) fun r hr n hn ↦ by
      obtain ⟨hmem, -⟩ := (hmem' r).1 hr
      obtain ⟨hle, hge⟩ := h.inside r hmem
      have hrange := r.range.start_le_stop
      subst hsource
      rw [List.nil_append, ← hbefore]
      rcases List.mem_cons.1 hn with rfl | hn
      · exact exists_append_of_onBoundary (h.boundary r hmem).1 (by omega) (by omega)
      · obtain rfl := List.mem_singleton.1 hn
        exact exists_append_of_onBoundary (h.boundary r hmem).2 (by omega) (by omega)
  rw [List.reverse_reverse, List.nil_append, List.nil_append] at hfold
  refine ⟨_, text, out, fun r ↦ (hmem' r).trans (and_congr_right (houter r)),
    List.pairwise_reverse.2 hsorted, fun a ha ↦ ?_, hslice, ?_, hout⟩
  · obtain ⟨k, hk, hwithin⟩ := hinside a ha
    exact ⟨k, List.mem_reverse.2 hk, hwithin⟩
  · rw [renderBodies, hslice]
    exact hfold

/-- **Bodies are cut exactly**: what remains of a family is replaced in the item's text, and nothing
else is changed. -/
theorem renderBodies_spec {source : List Char} {item : TextRange}
    {family : List (Replacement Char)} (h : Bodies source item family) :
    RendersExactly source item family fun r ↦ ¬ Covered family r :=
  rendersExactly_of_iff h fun _ _ ↦ Iff.rfl

/-- Two bodies of one function's text, the inner one inside the outer one. -/
theorem renderBodies_spec_nested :
    RendersExactly "fn f() \x7b fn g() \x7b\x7d \x7d".toList ⟨0, 20, by decide⟩
      [⟨⟨7, 20, by decide⟩, FN_PLACEHOLDER⟩, ⟨⟨16, 18, by decide⟩, FN_PLACEHOLDER⟩]
      (fun r ↦ ¬ Covered [⟨⟨7, 20, by decide⟩, FN_PLACEHOLDER⟩,
        ⟨⟨16, 18, by decide⟩, FN_PLACEHOLDER⟩] r) :=
  renderBodies_spec {
    start := by decide
    stop := by decide
    inside := by decide
    boundary := by decide
    nodup := by decide
    laminar := by
      unfold Laminar
      decide }

/-- Where no range is empty, those that remain are those that no other has in it. -/
theorem not_covered_iff_maximal {family : List (Replacement Char)} {r : Replacement Char}
    (hr : r.range.start < r.range.stop) : ¬ Covered family r ↔ Maximal family r := by
  constructor
  · intro h a ha hwithin
    by_contra hne
    exact h ⟨a, ha, hne, hwithin, hwithin.1.trans_lt hr, hr.trans_le hwithin.2⟩
  · rintro h ⟨a, ha, hne, hwithin, -⟩
    exact hne (h a ha hwithin)

/-- Bodies are never empty, so each of the outermost is replaced and nothing else. -/
theorem rendersExactly_of_nonempty {source : List Char} {item : TextRange}
    {family : List (Replacement Char)} (h : Bodies source item family)
    (hpos : ∀ r ∈ family, r.range.start < r.range.stop) :
    RendersExactly source item family (Maximal family) :=
  rendersExactly_of_iff h fun r hr ↦ not_covered_iff_maximal (hpos r hr)

/-- A body that is the whole text. -/
def wholeBody : Replacement Char :=
  ⟨⟨0, 2, by decide⟩, FN_PLACEHOLDER⟩

/-- An empty value at its start. -/
def emptyValue : Replacement Char :=
  ⟨.emptyAt 0, VALUE_PLACEHOLDER⟩

theorem renderBodies_wholeBody_emptyValue :
    renderBodies "\x7b\x7d".toList ⟨0, 2, by decide⟩ [wholeBody, emptyValue] =
      some (VALUE_PLACEHOLDER ++ FN_PLACEHOLDER) := by
  have hlengths : Ranking.rankBy lengthKey [wholeBody, emptyValue] = [wholeBody, emptyValue] :=
    Ranking.rankBy_of_pairwise (by decide)
  have hkeep : keep [] [wholeBody, emptyValue] = [wholeBody, emptyValue] := by decide
  have hstarts : nonOverlapping [wholeBody, emptyValue] = [wholeBody, emptyValue] := by
    rw [nonOverlapping, hlengths, hkeep]
    exact Ranking.rankBy_of_pairwise (by decide)
  rw [renderBodies, hstarts]
  decide

/-- An empty range where another one starts is inside it, and is replaced too. -/
theorem empty_range_replaced :
    Bodies "\x7b\x7d".toList ⟨0, 2, by decide⟩ [wholeBody, emptyValue] ∧
      ¬ RendersExactly "\x7b\x7d".toList ⟨0, 2, by decide⟩ [wholeBody, emptyValue]
        (Maximal [wholeBody, emptyValue]) := by
  refine ⟨⟨by decide, by decide, by decide, by decide, by decide, by unfold Laminar; decide⟩, ?_⟩
  rintro ⟨outer, text, rendered, hmem, -, -, -, hrender, hreplaced⟩
  have hmaximal : ∀ r, r ∈ outer → r = wholeBody := by
    intro r hr
    obtain ⟨hfamily, hr⟩ := (hmem r).1 hr
    rcases List.mem_cons.1 hfamily with rfl | hfamily
    · rfl
    · obtain rfl := List.mem_singleton.1 hfamily
      exact absurd (hr wholeBody List.mem_cons_self (by decide)) (by decide)
  rw [renderBodies_wholeBody_emptyValue] at hrender
  obtain rfl := Option.some.inj hrender
  generalize hrendered : VALUE_PLACEHOLDER ++ FN_PLACEHOLDER = rendered at hreplaced
  cases hreplaced with
  | done =>
    have hwhole : wholeBody ∈ [] :=
      (hmem wholeBody).2 ⟨List.mem_cons_self, by unfold Maximal; decide⟩
    cases hwhole
  | @cons _ before part rest r more out start stop tail =>
    obtain rfl := hmaximal r List.mem_cons_self
    rcases before with - | ⟨c, before⟩
    · cases hrendered
    · have hpos := Char.utf8Size_pos c
      rw [width_cons] at start
      have hzero : wholeBody.range.start = 0 := rfl
      omega

/-! ### The bodies of an item -/

/-- What the parser gives: a node's children lie in it one after another, and a body is a child,
never empty and never all of the item. -/
inductive WellFormed : SyntaxNode → Prop
  | node {kind : NodeKind} {range : TextRange} {children : List SyntaxNode}
      (body : ∀ r ∈ kind.replacement?, r.range.start < r.range.stop ∧ r.range ≠ range ∧
        ∃ child ∈ children, child.textRange = r.range)
      (inside : ∀ child ∈ children, child.textRange.Within range)
      (apart : children.Pairwise fun a b ↦ a.textRange.stop ≤ b.textRange.start)
      (tail : ∀ child ∈ children, WellFormed child) : WellFormed (.node kind range children)

/-- Ranges that nest, each of them part of one of these. -/
structure Nested (outer : List TextRange) (family : List (Replacement Char)) : Prop where
  inside : ∀ r ∈ family, r.range.start < r.range.stop ∧
    ∃ range ∈ outer, r.range.Within range ∧ r.range ≠ range
  nodup : (family.map Replacement.range).Nodup
  laminar : Laminar family

theorem collectBodyReplacements_node (kind : NodeKind) (range : TextRange)
    (children : List SyntaxNode) :
    collectBodyReplacements (.node kind range children) =
      kind.replacement?.toList ++ children.flatMap collectBodyReplacements := by
  have hchildren : ∀ children : List SyntaxNode,
      (descendantsOf children).filterMap (fun node ↦ node.kind.replacement?) =
        children.flatMap collectBodyReplacements := by
    intro children
    induction children with
    | nil => rfl
    | cons child rest ih =>
      rw [descendantsOf, List.filterMap_append, ih]
      rfl
  rw [collectBodyReplacements, SyntaxNode.descendants, List.filterMap_cons, hchildren]
  cases kind with
  | other => rfl
  | fn body | const body | static body => cases body <;> rfl

/-- Ranges in parts that lie apart are different and have nothing in common. -/
theorem apart_of_within {a b c d : TextRange} (hab : a.Within b) (hcd : c.Within d)
    (ha : a.start < a.stop) (hbd : b.stop ≤ d.start) : a ≠ c ∧ ¬ a.Overlaps c ∧ ¬ c.Overlaps a := by
  obtain ⟨hab, hab'⟩ := hab
  obtain ⟨hcd, hcd'⟩ := hcd
  refine ⟨?_, ?_, ?_⟩
  · rintro rfl
    omega
  · rintro ⟨h, h'⟩
    omega
  · rintro ⟨h, h'⟩
    omega

theorem Nested.append {outer outer' : List TextRange} {family family' : List (Replacement Char)}
    (h : Nested outer family) (h' : Nested outer' family')
    (hapart : ∀ a ∈ outer, ∀ b ∈ outer', a.stop ≤ b.start) :
    Nested (outer ++ outer') (family ++ family') := by
  have hacross : ∀ r ∈ family, ∀ r' ∈ family', r.range ≠ r'.range ∧
      ¬ r.range.Overlaps r'.range ∧ ¬ r'.range.Overlaps r.range := by
    intro r hr r' hr'
    obtain ⟨hpos, a, ha, hwithin, -⟩ := h.inside r hr
    obtain ⟨-, b, hb, hwithin', -⟩ := h'.inside r' hr'
    exact apart_of_within hwithin hwithin' hpos (hapart a ha b hb)
  refine ⟨fun r hr ↦ ?_, ?_, fun a ha b hb ↦ ?_⟩
  · rcases List.mem_append.1 hr with hr | hr
    · obtain ⟨hpos, range, hrange, hrest⟩ := h.inside r hr
      exact ⟨hpos, range, List.mem_append_left _ hrange, hrest⟩
    · obtain ⟨hpos, range, hrange, hrest⟩ := h'.inside r hr
      exact ⟨hpos, range, List.mem_append_right _ hrange, hrest⟩
  · rw [List.map_append]
    refine List.nodup_append.2 ⟨h.nodup, h'.nodup, ?_⟩
    intro x hx y hy
    obtain ⟨r, hr, rfl⟩ := List.mem_map.1 hx
    obtain ⟨r', hr', rfl⟩ := List.mem_map.1 hy
    exact (hacross r hr r' hr').1
  · rcases List.mem_append.1 ha with ha | ha <;> rcases List.mem_append.1 hb with hb | hb
    · exact h.laminar a ha b hb
    · exact .inr (.inr (hacross a ha b hb).2.1)
    · exact .inr (.inr (hacross b hb a ha).2.2)
    · exact h'.laminar a ha b hb

theorem nested_flatMap {children : List SyntaxNode}
    (hapart : children.Pairwise fun a b ↦ a.textRange.stop ≤ b.textRange.start)
    (h : ∀ child ∈ children, Nested [child.textRange] (collectBodyReplacements child)) :
    Nested (children.map SyntaxNode.textRange) (children.flatMap collectBodyReplacements) := by
  induction children with
  | nil => exact ⟨by simp, List.nodup_nil, by simp [Laminar]⟩
  | cons child rest ih =>
    obtain ⟨hfirst, hrest⟩ := List.pairwise_cons.1 hapart
    obtain ⟨hchild, hchildren⟩ := List.forall_mem_cons.1 h
    refine hchild.append (ih hrest hchildren) fun a ha b hb ↦ ?_
    obtain rfl := List.mem_singleton.1 ha
    obtain ⟨sibling, hsibling, rfl⟩ := List.mem_map.1 hb
    exact hfirst sibling hsibling

theorem Nested.mono {outer outer' : List TextRange} {family : List (Replacement Char)}
    (h : Nested outer family) (hle : ∀ a ∈ outer, ∃ b ∈ outer', a.Within b) :
    Nested outer' family := by
  refine ⟨fun r hr ↦ ?_, h.nodup, h.laminar⟩
  obtain ⟨hpos, a, ha, hwithin, hne⟩ := h.inside r hr
  obtain ⟨b, hb, hab⟩ := hle a ha
  refine ⟨hpos, b, hb, ⟨hab.1.trans hwithin.1, hwithin.2.trans hab.2⟩, fun heq ↦ ?_⟩
  rw [← heq] at hab
  exact hne (hwithin.eq hab.length_le)

/-- A body in front of what is in it and in its siblings. -/
theorem Nested.cons {outer : List TextRange} {family : List (Replacement Char)}
    (h : Nested outer family)
    (hapart : ∀ a ∈ outer, ∀ b ∈ outer, a = b ∨ a.stop ≤ b.start ∨ b.stop ≤ a.start)
    {r : Replacement Char} (hr : r.range ∈ outer) (hpos : r.range.start < r.range.stop)
    {range : TextRange} (hwithin : ∀ a ∈ outer, a.Within range) (hne : r.range ≠ range) :
    Nested [range] (r :: family) := by
  -- The others are part of this body, or apart from it.
  have hothers : ∀ s ∈ family, s.range ≠ r.range ∧
      (s.range.Within r.range ∨ ¬ s.range.Overlaps r.range ∧ ¬ r.range.Overlaps s.range) := by
    intro s hs
    obtain ⟨hspos, a, ha, hsa, hsne⟩ := h.inside s hs
    have hrefl : ∀ b : TextRange, b.Within b := fun b ↦ ⟨le_rfl, le_rfl⟩
    rcases hapart a ha r.range hr with rfl | hlt | hlt
    · exact ⟨hsne, .inl hsa⟩
    · obtain ⟨hne, hnot⟩ := apart_of_within hsa (hrefl r.range) hspos hlt
      exact ⟨hne, .inr hnot⟩
    · obtain ⟨hne, hnot⟩ := apart_of_within (hrefl r.range) hsa hpos hlt
      exact ⟨hne.symm, .inr hnot.symm⟩
  have hmono : Nested [range] family := h.mono fun a ha ↦
    ⟨range, List.mem_singleton_self _, hwithin a ha⟩
  refine ⟨List.forall_mem_cons.2 ⟨⟨hpos, range, List.mem_singleton_self _, hwithin _ hr, hne⟩,
    hmono.inside⟩, ?_, ?_⟩
  · rw [List.map_cons, List.nodup_cons]
    refine ⟨fun hmem ↦ ?_, h.nodup⟩
    obtain ⟨s, hs, heq⟩ := List.mem_map.1 hmem
    exact (hothers s hs).1 heq
  · intro a ha b hb
    rcases List.mem_cons.1 ha with rfl | ha' <;> rcases List.mem_cons.1 hb with rfl | hb'
    · exact .inl ⟨le_rfl, le_rfl⟩
    · rcases (hothers b hb').2 with hin | hnot
      · exact .inr (.inl hin)
      · exact .inr (.inr hnot.2)
    · rcases (hothers a ha').2 with hin | hnot
      · exact .inl hin
      · exact .inr (.inr hnot.1)
    · exact h.laminar a ha' b hb'

/-- **The bodies of a parsed item nest**: each is a child of its node, and what is below another
child is apart from it. -/
theorem nested_collectBodyReplacements {syntaxNode : SyntaxNode} (h : WellFormed syntaxNode) :
    Nested [syntaxNode.textRange] (collectBodyReplacements syntaxNode) := by
  induction h with
  | @node kind range children body inside apart tail ih =>
    rw [collectBodyReplacements_node]
    have hchildren := nested_flatMap apart ih
    have hwithin : ∀ a ∈ children.map SyntaxNode.textRange, a.Within range := fun a ha ↦ by
      obtain ⟨child, hchild, rfl⟩ := List.mem_map.1 ha
      exact inside child hchild
    have hpairs : ∀ a ∈ children.map SyntaxNode.textRange,
        ∀ b ∈ children.map SyntaxNode.textRange,
          a = b ∨ a.stop ≤ b.start ∨ b.stop ≤ a.start := by
      have hsymm : Std.Symm fun a b : TextRange ↦ a = b ∨ a.stop ≤ b.start ∨ b.stop ≤ a.start :=
        ⟨fun _ _ h ↦ h.imp Eq.symm Or.symm⟩
      exact List.Pairwise.forall_of_forall (fun a _ ↦ .inl rfl)
        (List.pairwise_map.2 (apart.imp fun h ↦ .inr (.inl h)))
    rcases hbody : kind.replacement? with - | r
    · exact hchildren.mono fun a ha ↦ ⟨range, List.mem_singleton_self _, hwithin a ha⟩
    · obtain ⟨hpos, hne, child, hchild, hrange⟩ := body r hbody
      exact hchildren.cons hpairs (hrange ▸ List.mem_map_of_mem hchild) hpos hwithin hne

/-- So every item is rendered with each of its outermost bodies replaced and nothing else. -/
theorem rendersExactly_collectBodyReplacements {source : List Char} {syntaxNode : SyntaxNode}
    (h : WellFormed syntaxNode)
    (hitem : OnBoundary source syntaxNode.textRange.start ∧
      OnBoundary source syntaxNode.textRange.stop)
    (hboundary : ∀ r ∈ collectBodyReplacements syntaxNode,
      OnBoundary source r.range.start ∧ OnBoundary source r.range.stop) :
    RendersExactly source syntaxNode.textRange (collectBodyReplacements syntaxNode)
      (Maximal (collectBodyReplacements syntaxNode)) := by
  have hnested := nested_collectBodyReplacements h
  refine rendersExactly_of_nonempty ⟨hitem.1, hitem.2, fun r hr ↦ ?_, hboundary, hnested.nodup,
    hnested.laminar⟩ fun r hr ↦ (hnested.inside r hr).1
  obtain ⟨-, range, hrange, hwithin, -⟩ := hnested.inside r hr
  rwa [List.mem_singleton.1 hrange] at hwithin

end RustCodeMcp.Skeleton
