import RustCodeMcp.Graph.Rows
import RustCodeMcp.Query.Tables
import RustCodeMcp.Text.Lines
import Mathlib.Algebra.Group.Nat.Defs

/-!
# The item of a line range

A search hit is a range of lines, an item a range of bytes. The range of lines is turned into the
bytes from the beginning of its first line to its last line end, and an item is looked for that
spans them all. So an item is found on its own lines only when it begins where its first line does
and ends where its last line does (`enclosingItemForLineRange_iff`).

The two numberings meet in `lineToByte`, which is empty where a file cannot be read and stops at the
first offset that is no `u32`. Both ends of a range are looked up there; the last line has no line
after it, and is taken to end where it begins. **A span is taken by its bytes and compared by its
width**: of those that hold the range the narrowest is answered, the first of several, in the order
in which the ids come.

Where the item is missed, and where a wider one is found in its place, is said by the same two
conditions on the spans (`Fills`, `Narrowest`).
-/

namespace RustCodeMcp.Codemap

open Tables (Byte Bytes)
open scoped Tables
open Ownership (NodeKind)
open Lines

/-- The line feed. -/
def newline : Byte := 10

/-- The greatest number of 32 bits. -/
def U32_MAX : ℕ := 2 ^ 32 - 1

/-- `(start_byte, end_byte, NodeId)` -/
structure Span (N : Type) where
  start : ℕ
  stop : ℕ
  id : N
  deriving DecidableEq

/-- The fields of a node that the span index reads. -/
structure Node (N : Type) where
  id : N
  kind : NodeKind
  file : Option String
  span : Option (ℕ × ℕ)
  deriving DecidableEq

/-- `nodes_by_id` in the byte order of the ids, and what `fs::read` gives for a file of the
workspace. A table that is cached is the table of the file. -/
structure OpenedSnapshot (N : Type) where
  nodes : List (Node N)
  nodup : (nodes.map Node.id).Nodup
  read : String → Option Bytes

/-! ### The search -/

/-- The offsets behind each line feed from a position on, as far as they are a `u32`. -/
def offsetsFrom : ℕ → Bytes → List ℕ
  | _, [] => []
  | i, b :: bytes =>
    if b = newline then
      if i + 1 ≤ U32_MAX then (i + 1) :: offsetsFrom (i + 1) bytes else offsetsFrom (i + 1) bytes
    else offsetsFrom (i + 1) bytes

section Search

variable {N : Type} (snap : OpenedSnapshot N)

/-- The offsets at which the lines of a file begin, as far as they are a `u32`. -/
def lineToByte (file : String) : Option (List ℕ) := do
  let bytes ← snap.read file
  pure (0 :: offsetsFrom 0 bytes)

/-- The span of a node in this file, if it is an item. -/
def spanOf (file : String) (node : Node N) : Option (Span N) :=
  if node.kind ≠ .item then none
  else if node.file ≠ some file then none
  else node.span.map fun (start, stop) ↦ ⟨start, stop, node.id⟩

/-- The spans of the items of a file. -/
def spansOf (file : String) : List (Span N) :=
  snap.nodes.filterMap (spanOf file)

/-- A file without spans is not in the index. -/
def spanIndex (file : String) : Option (List (Span N)) :=
  if (spansOf snap file).isEmpty then none
  else some ((spansOf snap file).mergeSort fun a b ↦ decide (a.start ≤ b.start))

/-- The best so far and one more that spans the range. -/
def better (span : Span N) : Option (Span N) → Span N
  | none => span
  | some other => if span.stop - span.start < other.stop - other.start then span else other

/-- The loop over the spans. -/
def narrowest (byteStart byteEnd : ℕ) : List (Span N) → Option (Span N) → Option (Span N)
  | [], best => best
  | span :: spans, best =>
    if byteEnd < span.start then best
    else
      narrowest byteStart byteEnd spans
        (if span.start ≤ byteStart ∧ byteEnd ≤ span.stop then some (better span best) else best)

/-- `byte_end`; at the end of the file the offset of the last line. -/
def byteEndOf (table : List ℕ) (lineEnd : ℕ) : Option ℕ :=
  if lineEnd < table.length then table[lineEnd]?.map (· - 1) else table[table.length - 1]?

/-- `enclosing_item_for_line_range` -/
def enclosingItemForLineRange (file : String) (lineStart lineEnd : ℕ) : Option N := do
  if lineStart = 0 ∨ lineEnd < lineStart then none
  let table ← lineToByte snap file
  let lineCount := table.length
  if lineCount < lineStart then none
  let byteStart ← table[lineStart - 1]?
  let byteEnd ← byteEndOf table lineEnd
  let spans ← spanIndex snap file
  (narrowest byteStart byteEnd spans none).map Span.id

end Search

/-! ### What the search finds -/

section Narrowest

variable {N : Type} {byteStart byteEnd : ℕ} {spans : List (Span N)} {best : Option (Span N)}

/-- How many bytes a span has. -/
def Span.width (span : Span N) : ℕ :=
  span.stop - span.start

/-- A candidate, or the best so far. -/
def Candidate (byteStart byteEnd : ℕ) (spans : List (Span N)) (best : Option (Span N))
    (span : Span N) : Prop :=
  best = some span ∨ span ∈ spans ∧ span.start ≤ byteStart ∧ byteEnd ≤ span.stop

theorem candidate_cons {first span : Span N} :
    Candidate byteStart byteEnd (first :: spans) best span ↔
      (span = first ∧ first.start ≤ byteStart ∧ byteEnd ≤ first.stop) ∨
        Candidate byteStart byteEnd spans best span := by
  rw [Candidate, Candidate, List.mem_cons]
  constructor
  · rintro (h | ⟨rfl | h, hcovers⟩)
    · exact .inr (.inl h)
    · exact .inl ⟨rfl, hcovers⟩
    · exact .inr (.inr ⟨h, hcovers⟩)
  · rintro (⟨rfl, hcovers⟩ | h | ⟨h, hcovers⟩)
    · exact .inr ⟨.inl rfl, hcovers⟩
    · exact .inl h
    · exact .inr ⟨.inr h, hcovers⟩

theorem better_spec (span : Span N) (best : Option (Span N)) :
    (better span best = span ∨ best = some (better span best)) ∧
      (better span best).width ≤ span.width ∧
      ∀ other, best = some other → (better span best).width ≤ other.width := by
  rcases best with - | other
  · exact ⟨.inl rfl, Nat.le_refl _, nofun⟩
  rw [better]
  split
  · rename_i hlt
    refine ⟨.inl rfl, Nat.le_refl _, fun x hx ↦ ?_⟩
    obtain rfl := Option.some.inj hx
    exact Nat.le_of_lt hlt
  · rename_i hlt
    refine ⟨.inr rfl, Nat.not_lt.1 hlt, fun x hx ↦ ?_⟩
    obtain rfl := Option.some.inj hx
    exact Nat.le_refl _

/-- The best of all candidates is the best so far when no span is one. -/
theorem best_spec
    (hnone : ∀ span, ¬ (span ∈ spans ∧ span.start ≤ byteStart ∧ byteEnd ≤ span.stop)) :
    (∀ span, best = some span → Candidate byteStart byteEnd spans best span ∧
        ∀ other, Candidate byteStart byteEnd spans best other → span.width ≤ other.width) ∧
      (best = none → ∀ span, ¬ Candidate byteStart byteEnd spans best span) := by
  refine ⟨fun span h ↦ ⟨.inl h, ?_⟩, ?_⟩
  · rintro other (hother | hother)
    · obtain rfl := Option.some.inj (h.symm.trans hother)
      exact Nat.le_refl _
    · exact absurd hother (hnone other)
  · rintro h span (hspan | hspan)
    · exact absurd (h.symm.trans hspan) (by simp)
    · exact hnone span hspan

/-- **The search finds a narrowest candidate**, if there is one. -/
theorem narrowest_spec (hsorted : spans.Pairwise fun a b ↦ a.start ≤ b.start)
    (hle : byteStart ≤ byteEnd) :
    (∀ span, narrowest byteStart byteEnd spans best = some span →
      Candidate byteStart byteEnd spans best span ∧
        ∀ other, Candidate byteStart byteEnd spans best other → span.width ≤ other.width) ∧
      (narrowest byteStart byteEnd spans best = none →
        ∀ span, ¬ Candidate byteStart byteEnd spans best span) := by
  induction spans generalizing best with
  | nil => exact best_spec fun span h ↦ absurd h.1 List.not_mem_nil
  | cons first spans ih =>
    obtain ⟨hfirst, hsorted'⟩ := List.pairwise_cons.1 hsorted
    by_cases hbreak : byteEnd < first.start
    · rw [narrowest, if_pos hbreak]
      refine best_spec fun span ⟨hmem, hstart, _⟩ ↦ ?_
      have hle' : first.start ≤ span.start := by
        rcases List.mem_cons.1 hmem with rfl | hmem
        · exact Nat.le_refl _
        · exact hfirst span hmem
      omega
    rw [narrowest, if_neg hbreak]
    by_cases hcovers : first.start ≤ byteStart ∧ byteEnd ≤ first.stop
    · obtain ⟨hchoice, hwidth, hbest⟩ := better_spec first best
      obtain ⟨hsome, hnone⟩ := @ih (some (better first best)) hsorted'
      -- A candidate before is one now, or no narrower than the new best.
      have hsplit : ∀ other, Candidate byteStart byteEnd (first :: spans) best other →
          Candidate byteStart byteEnd spans (some (better first best)) other ∨
            (better first best).width ≤ other.width := by
        intro other hother
        rcases candidate_cons.1 hother with ⟨rfl, -⟩ | hother | hother
        · exact .inr hwidth
        · exact .inr (hbest other hother)
        · exact .inl (.inr hother)
      rw [if_pos hcovers]
      constructor
      · intro span h
        obtain ⟨hspan, hleast⟩ := hsome span h
        refine ⟨candidate_cons.2 ?_, fun other hother ↦ ?_⟩
        · rcases hspan with hspan | hspan
          · obtain rfl := Option.some.inj hspan
            rcases hchoice with hchoice | hchoice
            · exact .inl ⟨hchoice, hcovers⟩
            · exact .inr (.inl hchoice)
          · exact .inr (.inr hspan)
        · rcases hsplit other hother with hother | hother
          · exact hleast other hother
          · exact (hleast _ (.inl rfl)).trans hother
      · intro h
        exact absurd (.inl rfl) (hnone h (better first best))
    · have hiff : ∀ span, Candidate byteStart byteEnd (first :: spans) best span ↔
          Candidate byteStart byteEnd spans best span := fun span ↦
        candidate_cons.trans ⟨fun h ↦ h.resolve_left fun h ↦ hcovers h.2, .inr⟩
      simp only [hiff, if_neg hcovers]
      exact ih hsorted'

end Narrowest

/-! ### Lines and bytes -/

section Range

variable {N : Type} {snap : OpenedSnapshot N} {file : String} {text : Bytes} {l m : ℕ}

/-- The byte that a range ends with. -/
def endOf (text : Bytes) (m : ℕ) (h : m < (starts newline text).length) : ℕ :=
  if hm : m + 1 < (starts newline text).length then (starts newline text)[m + 1] - 1
  else (starts newline text)[m]

theorem offsetsFrom_eq {i : ℕ} (h : i + text.length ≤ U32_MAX) :
    offsetsFrom i text = startsFrom newline i text := by
  induction text generalizing i with
  | nil => rfl
  | cons b bytes ih =>
    rw [List.length_cons] at h
    rw [offsetsFrom, startsFrom, if_pos (by omega : i + 1 ≤ U32_MAX), ih (by omega)]

theorem lineToByte_eq (hread : snap.read file = some text) (hsize : text.length ≤ U32_MAX) :
    lineToByte snap file = some (starts newline text) := by
  rw [lineToByte, hread, starts, ← offsetsFrom_eq (by omega : 0 + text.length ≤ U32_MAX)]
  rfl

theorem enclosingItemForLineRange_eq (hread : snap.read file = some text)
    (hsize : text.length ≤ U32_MAX) (hlm : l ≤ m) (hm : m < (starts newline text).length)
    (hl : l < (starts newline text).length) :
    enclosingItemForLineRange snap file (l + 1) (m + 1) =
      (spanIndex snap file).bind fun spans ↦
        (narrowest (starts newline text)[l] (endOf text m hm) spans none).map
          Span.id := by
  have hend : byteEndOf (starts newline text) (m + 1) = some (endOf text m hm) := by
    rw [byteEndOf, endOf]
    split
    · rename_i hlt
      rw [List.getElem?_eq_getElem hlt]
      rfl
    · rename_i hlast
      have hlength : (starts newline text).length - 1 = m := by omega
      rw [hlength, List.getElem?_eq_getElem hm]
  rw [enclosingItemForLineRange, if_neg (by omega), lineToByte_eq hread hsize]
  simp only [Option.bind_eq_bind, Option.bind_some, Nat.add_sub_cancel,
    if_neg (Nat.not_lt.2 hl : ¬ (starts newline text).length < l + 1),
    List.getElem?_eq_getElem hl, hend]

/-- Where a range ends in the text. -/
theorem endOf_spec (hm : m < (starts newline text).length) :
    (starts newline text)[m] ≤ endOf text m hm ∧
      (m + 1 < (starts newline text).length ∧ text[endOf text m hm]? = some newline ∧
          lineOf newline text (endOf text m hm) = m ∨
        m + 1 = (starts newline text).length ∧ endOf text m hm = (starts newline text)[m]) := by
  rw [endOf]
  split
  · rename_i hlt
    have hend := getElem?_start_pred hlt (Nat.succ_pos m)
    have hline : lineOf newline text ((starts newline text)[m + 1] - 1) = m := by
      have hstart := lineOf_start hlt
      have hne : (starts newline text)[m + 1] ≠ 0 := by
        intro hzero
        rw [hzero] at hstart
        exact absurd hstart (by simp [lineOf])
      have hsucc := lineOf_succ newline text ((starts newline text)[m + 1] - 1)
      rw [if_pos hend, Nat.sub_add_cancel (Nat.one_le_iff_ne_zero.2 hne), hstart] at hsucc
      omega
    exact ⟨(starts_le_iff hm).2 (Nat.le_of_eq hline.symm), .inl ⟨hlt, hend, hline⟩⟩
  · exact ⟨Nat.le_refl _, .inr ⟨by omega, rfl⟩⟩

end Range

/-! ### Items on their lines -/

section Items

variable {N : Type} {snap : OpenedSnapshot N} {file : String} {text : Bytes} {l m : ℕ}
  {span item : Span N}

/-- The spans of declarations: from the first byte to behind the last, which is no line feed, and
nested or disjoint. -/
structure Declared (text : Bytes) (spans : List (Span N)) : Prop where
  lt : ∀ span ∈ spans, span.start < span.stop
  le : ∀ span ∈ spans, span.stop ≤ text.length
  last : ∀ span ∈ spans, text[span.stop - 1]? ≠ some newline
  nested : ∀ span ∈ spans, ∀ other ∈ spans,
    span.stop ≤ other.start ∨ other.stop ≤ span.start ∨
      (span.start ≤ other.start ∧ other.stop ≤ span.stop) ∨
      (other.start ≤ span.start ∧ span.stop ≤ other.stop)

/-- The lines of a span, from zero on. -/
def Span.firstLine (text : Bytes) (span : Span N) : ℕ := lineOf newline text span.start

/-- The line of a span's last byte. -/
def Span.lastLine (text : Bytes) (span : Span N) : ℕ := lineOf newline text (span.stop - 1)

/-- An item that spans a range of lines, and is the narrowest one that does. -/
structure Narrowest (text : Bytes) (spans : List (Span N)) (l m : ℕ) (span : Span N) : Prop where
  first : span.firstLine text ≤ l
  last : m ≤ span.lastLine text
  least : ∀ other ∈ spans, other.firstLine text ≤ l → m ≤ other.lastLine text →
    span.width ≤ other.width

/-- The item that is found is on the lines, or the narrowest one around them. -/
def Finds (text : Bytes) (spans : List (Span N)) (l m : ℕ) (found : Option N) : Prop :=
  ∃ span ∈ spans, found = some span.id ∧
    (l ≤ span.firstLine text ∧ span.lastLine text ≤ m ∨ Narrowest text spans l m span)

/-- A span that begins where line `l` does, and ends where line `m` does or on the last line. -/
structure Fills (text : Bytes) (l m : ℕ) (span : Span N) : Prop where
  first : span.firstLine text = l
  start : span.start = 0 ∨ text[span.start - 1]? = some newline
  last : span.lastLine text = m
  stop : text[span.stop]? = some newline ∨ text.count newline = m

theorem stop_ne_start {spans : List (Span N)} (h : Declared text spans) (hspan : span ∈ spans)
    {k : ℕ} (hk : k < (starts newline text).length) : span.stop ≠ (starts newline text)[k] := by
  intro heq
  have hlt := h.lt span hspan
  rcases ((start_eq_iff hk).1 heq.symm).2 with hzero | hnewline
  · omega
  · exact h.last span hspan hnewline

/-- What spans the bytes of a range spans its lines. -/
theorem lines_of_covers {spans : List (Span N)} (h : Declared text spans) (hspan : span ∈ spans)
    (hl : l < (starts newline text).length) (hm : m < (starts newline text).length)
    (hstart : span.start ≤ (starts newline text)[l]) (hstop : endOf text m hm ≤ span.stop) :
    span.firstLine text ≤ l ∧ m ≤ span.lastLine text := by
  constructor
  · exact (lineOf_mono hstart).trans (Nat.le_of_eq (lineOf_start hl))
  · have hle := (endOf_spec hm).1.trans hstop
    have hne := stop_ne_start h hspan hm
    exact (starts_le_iff hm).1 (by omega)

theorem spanIndex_eq_some {spans : List (Span N)} (h : spanIndex snap file = some spans) :
    spans.Perm (spansOf snap file) ∧ spans.Pairwise fun a b ↦ a.start ≤ b.start := by
  rw [spanIndex] at h
  obtain ⟨-, h⟩ := Option.ite_none_left_eq_some.1 h
  obtain rfl := Option.some.inj h
  refine ⟨List.mergeSort_perm _ _, (List.pairwise_mergeSort ?_ ?_ _).imp of_decide_eq_true⟩
  · intro a b c hab hbc
    exact decide_eq_true ((of_decide_eq_true hab).trans (of_decide_eq_true hbc))
  · intro a b
    rw [Bool.or_eq_true, decide_eq_true_iff, decide_eq_true_iff]
    exact Nat.le_total _ _

/-- What comes back for a range: a narrowest span of its bytes, if there is one. -/
theorem found_spec (hread : snap.read file = some text) (hsize : text.length ≤ U32_MAX)
    (hlm : l ≤ m) (hm : m < (starts newline text).length)
    (hl : l < (starts newline text).length) :
    (∀ id, enclosingItemForLineRange snap file (l + 1) (m + 1) = some id →
      ∃ span ∈ spansOf snap file, span.id = id ∧
        (span.start ≤ (starts newline text)[l] ∧ endOf text m hm ≤ span.stop) ∧
        ∀ other ∈ spansOf snap file, other.start ≤ (starts newline text)[l] →
          endOf text m hm ≤ other.stop → span.width ≤ other.width) ∧
      (enclosingItemForLineRange snap file (l + 1) (m + 1) = none →
        ∀ span ∈ spansOf snap file,
          ¬ (span.start ≤ (starts newline text)[l] ∧ endOf text m hm ≤ span.stop)) := by
  have hle : (starts newline text)[l] ≤ endOf text m hm := by
    refine Nat.le_trans ?_ (endOf_spec hm).1
    rw [starts_le_iff hl, lineOf_start hm]
    exact hlm
  rw [enclosingItemForLineRange_eq hread hsize hlm hm hl]
  rcases hindex : spanIndex snap file with - | spans
  · have hempty : spansOf snap file = [] := by
      rw [spanIndex] at hindex
      rw [← List.isEmpty_iff]
      by_contra hne
      rw [if_neg hne] at hindex
      exact absurd hindex (by simp)
    rw [hempty]
    exact ⟨fun id h ↦ absurd h (by simp), fun _ span h ↦ absurd h List.not_mem_nil⟩
  · obtain ⟨hperm, hsorted⟩ := spanIndex_eq_some hindex
    obtain ⟨hsome, hnone⟩ := @narrowest_spec N _ _ _ none hsorted hle
    rw [Option.bind_some]
    constructor
    · intro id h
      obtain ⟨span, hspan, rfl⟩ := Option.map_eq_some_iff.1 h
      obtain ⟨hcandidate, hleast⟩ := hsome span hspan
      obtain ⟨hmem, hcovers⟩ := hcandidate.resolve_left (by simp)
      exact ⟨span, hperm.mem_iff.1 hmem, rfl, hcovers, fun other hother hstart hstop ↦
        hleast other (.inr ⟨hperm.mem_iff.2 hother, hstart, hstop⟩)⟩
    · intro h span hspan hcovers
      exact hnone (Option.map_eq_none_iff.1 h) span (.inr ⟨hperm.mem_iff.2 hspan, hcovers⟩)

theorem spanOf_eq_some {node : Node N} (h : spanOf file node = some span) :
    node.id = span.id ∧ node.span = some (span.start, span.stop) := by
  obtain ⟨-, h⟩ := Option.ite_none_left_eq_some.1 h
  obtain ⟨-, h⟩ := Option.ite_none_left_eq_some.1 h
  obtain ⟨p, hp, rfl⟩ := Option.map_eq_some_iff.1 h
  exact ⟨rfl, hp⟩

theorem eq_of_id_eq (hspan : span ∈ spansOf snap file) (hitem : item ∈ spansOf snap file)
    (h : span.id = item.id) : span = item := by
  obtain ⟨node, hnode, hsome⟩ := List.mem_filterMap.1 hspan
  obtain ⟨node', hnode', hsome'⟩ := List.mem_filterMap.1 hitem
  have hid : node.id = node'.id := by
    rw [(spanOf_eq_some hsome).1, (spanOf_eq_some hsome').1, h]
  obtain rfl := List.inj_on_of_nodup_map snap.nodup hnode hnode' hid
  exact Option.some.inj (hsome.symm.trans hsome')

section Spans

variable {spans : List (Span N)}

theorem eq_of_width_le (hlt : item.start < item.stop) (hstart : span.start ≤ item.start)
    (hstop : item.stop ≤ span.stop) (hwidth : span.width ≤ item.width) :
    span.start = item.start ∧ span.stop = item.stop := by
  rw [Span.width, Span.width] at hwidth
  omega

/-- The narrowest item around the lines of an item is on them. -/
theorem within_of_narrowest (hspans : Declared text spans) (hspan : span ∈ spans)
    (hitem : item ∈ spans)
    (hbefore : ∀ other ∈ spans, other.stop ≤ item.start →
      other.lastLine text < item.firstLine text)
    (hl : item.firstLine text < (starts newline text).length)
    (hstart : span.start ≤ (starts newline text)[item.firstLine text])
    (hlast : item.lastLine text ≤ span.lastLine text) (hwidth : span.width ≤ item.width) :
    item.firstLine text ≤ span.firstLine text ∧ span.lastLine text ≤ item.lastLine text := by
  have hlt := hspans.lt item hitem
  have hlt' := hspans.lt span hspan
  have hbegin : (starts newline text)[item.firstLine text] ≤ item.start :=
    (starts_le_iff hl).2 (Nat.le_refl _)
  rcases hspans.nested span hspan item hitem with h | h | ⟨h, h'⟩ | ⟨h, h'⟩
  · -- It would end on the first line of the item before it.
    have hends := hbefore span hspan h
    have hlm : item.firstLine text ≤ item.lastLine text := lineOf_mono (by omega)
    omega
  · omega
  · obtain ⟨heq, heq'⟩ := eq_of_width_le hlt h h' hwidth
    rw [Span.firstLine, Span.firstLine, Span.lastLine, Span.lastLine, heq, heq']
    exact ⟨Nat.le_refl _, Nat.le_refl _⟩
  · exact ⟨lineOf_mono h, lineOf_mono (by omega)⟩

/-- What spans the bytes of a range and lies on its lines fills it. -/
theorem fills_of_within (hspans : Declared text spans) (hspan : span ∈ spans)
    (hl : l < (starts newline text).length) (hm : m < (starts newline text).length)
    (hstart : span.start ≤ (starts newline text)[l]) (hstop : endOf text m hm ≤ span.stop)
    (hfirst : l ≤ span.firstLine text) (hlast : span.lastLine text ≤ m) : Fills text l m span := by
  obtain ⟨hfirst', hlast'⟩ := lines_of_covers hspans hspan hl hm hstart hstop
  have hbegin : (starts newline text)[l] = span.start :=
    Nat.le_antisymm ((starts_le_iff hl).2 hfirst) hstart
  refine ⟨Nat.le_antisymm hfirst' hfirst, ((start_eq_iff hl).1 hbegin).2,
    Nat.le_antisymm hlast hlast', ?_⟩
  rcases (endOf_spec hm).2 with ⟨hnext, hnewline, -⟩ | ⟨hend, -⟩
  · have hne := stop_ne_start hspans hspan hnext
    have hbefore : ¬ (starts newline text)[m + 1] ≤ span.stop - 1 := by
      rw [starts_le_iff hnext, Nat.not_le]
      exact Nat.lt_succ_of_le hlast
    have heq : endOf text m hm = span.stop := by
      rw [endOf, dif_pos hnext] at hstop ⊢
      omega
    exact .inl (heq ▸ hnewline)
  · rw [length_starts] at hend
    exact .inr (by omega)

/-- What fills a range of lines spans its bytes. -/
theorem covers_of_fills (hspans : Declared text spans) (hspan : span ∈ spans)
    (hl : l < (starts newline text).length) (hm : m < (starts newline text).length)
    (h : Fills text l m span) :
    span.start = (starts newline text)[l] ∧ endOf text m hm ≤ span.stop := by
  refine ⟨((start_eq_iff hl).2 ⟨h.first, h.start⟩).symm, ?_⟩
  have hlt := hspans.lt span hspan
  rcases (endOf_spec hm).2 with ⟨hnext, -, -⟩ | ⟨-, hend⟩
  · have hcount := h.stop.resolve_right (by rw [length_starts] at hnext; omega)
    have hlast : lineOf newline text span.stop = m := by
      have hsucc := lineOf_succ newline text (span.stop - 1)
      rw [if_neg (hspans.last span hspan), Nat.sub_add_cancel (by omega)] at hsucc
      exact hsucc.trans h.last
    have hsucc := lineOf_succ newline text span.stop
    rw [if_pos hcount, hlast] at hsucc
    have hle := (starts_le_iff hnext).2 (Nat.le_of_eq hsucc.symm)
    rw [endOf, dif_pos hnext]
    omega
  · rw [hend]
    exact Nat.le_trans ((starts_le_iff hm).2 (Nat.le_of_eq h.last.symm)) (Nat.sub_le _ _)

/-- What is no wider than a span that fills the lines, and spans their bytes, is on them. -/
theorem within_of_fills (hspans : Declared text spans) (hspan : span ∈ spans)
    (hitem : item ∈ spans) (hlm : l ≤ m) (hl : l < (starts newline text).length)
    (hm : m < (starts newline text).length) (h : Fills text l m item)
    (hstart : span.start ≤ (starts newline text)[l]) (hstop : endOf text m hm ≤ span.stop)
    (hwidth : span.width ≤ item.width) : l ≤ span.firstLine text ∧ span.lastLine text ≤ m := by
  obtain ⟨hfirst, hlast⟩ := lines_of_covers hspans hspan hl hm hstart hstop
  obtain ⟨hbegin, -⟩ := covers_of_fills hspans hitem hl hm h
  have hlt := hspans.lt item hitem
  have hlt' := hspans.lt span hspan
  rcases hspans.nested span hspan item hitem with h' | h' | ⟨h', h''⟩ | ⟨h', h''⟩
  · -- It would end before the line that it is said to reach.
    have hle := (starts_le_iff hm).2 hlast
    have hle' : (starts newline text)[l] ≤ (starts newline text)[m] := by
      rw [starts_le_iff hl, lineOf_start hm]
      exact hlm
    omega
  · omega
  · obtain ⟨heq, heq'⟩ := eq_of_width_le hlt h' h'' hwidth
    rw [Span.firstLine, Span.lastLine, heq, heq']
    exact ⟨Nat.le_of_eq h.first.symm, Nat.le_of_eq h.last⟩
  · exact ⟨(Nat.le_of_eq h.first.symm).trans (lineOf_mono h'),
      (lineOf_mono (by omega)).trans (Nat.le_of_eq h.last)⟩

end Spans

/-- **A hit on the lines of an item**, before which none ends on its first line, **finds it**
exactly when an item begins with the first byte of the first line and ends with the last of the last
line, or on the last line of the file. -/
theorem enclosingItemForLineRange_iff (hread : snap.read file = some text)
    (hsize : text.length ≤ U32_MAX) (hspans : Declared text (spansOf snap file))
    (hitem : item ∈ spansOf snap file)
    (hbefore : ∀ other ∈ spansOf snap file, other.stop ≤ item.start →
      other.lastLine text < item.firstLine text) :
    Finds text (spansOf snap file) (item.firstLine text) (item.lastLine text)
        (enclosingItemForLineRange snap file (item.firstLine text + 1) (item.lastLine text + 1)) ↔
      ∃ span ∈ spansOf snap file, Fills text (item.firstLine text) (item.lastLine text) span := by
  have hlm : item.firstLine text ≤ item.lastLine text := by
    have hlt := hspans.lt item hitem
    exact lineOf_mono (by omega)
  have hm : item.lastLine text < (starts newline text).length := by
    rw [length_starts]
    exact Nat.lt_succ_of_le (lineOf_le _)
  have hl := hlm.trans_lt hm
  obtain ⟨hsome, hnone⟩ := found_spec hread hsize hlm hm hl
  constructor
  · rintro ⟨found, hfound, hid, hproperty⟩
    obtain ⟨span, hspan, heq, ⟨hstart, hstop⟩, -⟩ := hsome _ hid
    obtain rfl := eq_of_id_eq hspan hfound heq
    have hwithin : item.firstLine text ≤ span.firstLine text ∧
        span.lastLine text ≤ item.lastLine text := by
      rcases hproperty with hwithin | hnarrowest
      · exact hwithin
      · exact within_of_narrowest hspans hspan hitem hbefore hl hstart hnarrowest.last
          (hnarrowest.least item hitem (Nat.le_refl _) (Nat.le_refl _))
    exact ⟨span, hspan, fills_of_within hspans hspan hl hm hstart hstop hwithin.1 hwithin.2⟩
  · rintro ⟨span, hspan, hfills⟩
    obtain ⟨hstart, hstop⟩ := covers_of_fills hspans hspan hl hm hfills
    rcases hfound : enclosingItemForLineRange snap file (item.firstLine text + 1)
      (item.lastLine text + 1) with - | id
    · exact absurd ⟨Nat.le_of_eq hstart, hstop⟩ (hnone hfound span hspan)
    · obtain ⟨found, hmem, rfl, ⟨hstart', hstop'⟩, hleast⟩ := hsome id hfound
      exact ⟨found, hmem, rfl, .inl (within_of_fills hspans hmem hspan hlm hl hm hfills hstart'
        hstop' (hleast span hspan (Nat.le_of_eq hstart) hstop))⟩

end Items

/-! ### A method -/

/-- An `impl` of three lines, with a method on the second. -/
def methodText : Bytes :=
  "impl S \x7b\n    fn f() \x7b\x7d\n\x7d\n".toList.map fun c ↦ Fin.ofNat 256 c.toNat

/-- The method of `methodText`; an `impl` is no item. -/
def method : OpenedSnapshot ℕ where
  nodes := [⟨1, .item, some "src/lib.rs", some (13, 22)⟩]
  nodup := by decide
  read file := if file = "src/lib.rs" then some methodText else none

theorem declared_method : Declared methodText (spansOf method "src/lib.rs") where
  lt := by decide
  le := by decide
  last := by decide
  nested := by decide

theorem enclosingItemForLineRange_iff_method :
    Finds methodText (spansOf method "src/lib.rs") 1 1
        (enclosingItemForLineRange method "src/lib.rs" 2 2) ↔
      ∃ span ∈ spansOf method "src/lib.rs", Fills methodText 1 1 span :=
  @enclosingItemForLineRange_iff _ method _ methodText ⟨13, 22, 1⟩ rfl (by decide) declared_method
    (by decide) (by decide)

/-- Nothing is found on the line of the method, which is indented. -/
theorem method_lost : (⟨13, 22, 1⟩ : Span ℕ) ∈ spansOf method "src/lib.rs" ∧
    Declared methodText (spansOf method "src/lib.rs") ∧
    ¬ Finds methodText (spansOf method "src/lib.rs") 1 1
      (enclosingItemForLineRange method "src/lib.rs" 2 2) := by
  refine ⟨by decide, declared_method, ?_⟩
  rintro ⟨found, -, hid, -⟩
  obtain ⟨span, hspan, -, ⟨hstart, -⟩, -⟩ := (@found_spec _ method "src/lib.rs" methodText 1 1 rfl
    (by decide) (Nat.le_refl 1) (by decide) (by decide)).1 _ hid
  obtain rfl := List.mem_singleton.1 hspan
  exact absurd hstart (by decide)

end RustCodeMcp.Codemap
