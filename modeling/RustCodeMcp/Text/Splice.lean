import Mathlib.Algebra.GroupWithZero.Nat
import Mathlib.Data.List.Basic
import Mathlib.Data.Prod.Lex
import RustCodeMcp.Order.Ranking

/-!
# Replacing parts of a text

A text is a list of elements that take some room each, as the characters of an encoded text do, and
positions count that room: a position inside an element cuts nothing (`splitAt_eq_some_iff`).

Of ranges that may nest, the longest first and each that overlaps none before it, remain those that
no other covers (`nonOverlapping_spec`). Replaced from the last to the first they give the text
with each of them replaced and all else as it was (`exists_replaced`): what is replaced first leaves
everything before it in place.

Nothing is asked of what a range is replaced with, and nothing of how much room it takes; only the
positions of the text that is left have to be places between two elements.
-/

namespace Splice

variable {α : Type}

/-! ### Positions -/

/-- How much room a text takes. -/
def width (w : α → ℕ) (l : List α) : ℕ :=
  (l.map w).sum

/-- What stands before a position, and the rest. -/
def splitAt (w : α → ℕ) : List α → ℕ → Option (List α × List α)
  | l, 0 => some ([], l)
  | [], _ + 1 => none
  | a :: l, n + 1 =>
    if w a ≤ n + 1 then (splitAt w l (n + 1 - w a)).map fun (before, rest) ↦ (a :: before, rest)
    else none

variable {w : α → ℕ}

theorem width_append (w : α → ℕ) (l l' : List α) :
    width w (l ++ l') = width w l + width w l' := by
  rw [width, List.map_append, List.sum_append]
  rfl

theorem width_cons (w : α → ℕ) (a : α) (l : List α) : width w (a :: l) = w a + width w l := by
  rw [width, List.map_cons, List.sum_cons]
  rfl

/-- **A position cuts a text** if some elements take just so much room. -/
theorem splitAt_eq_some_iff (hw : ∀ a, 0 < w a) {l before rest : List α} {n : ℕ} :
    splitAt w l n = some (before, rest) ↔ l = before ++ rest ∧ width w before = n := by
  induction l generalizing before n with
  | nil =>
    rcases n with - | n
    · constructor
      · intro h
        obtain ⟨rfl, rfl⟩ := Prod.mk.inj (Option.some.inj h)
        exact ⟨rfl, rfl⟩
      · rintro ⟨h, -⟩
        obtain ⟨rfl, rfl⟩ := List.append_eq_nil_iff.1 h.symm
        rfl
    -- The position is past the end, or inside an element.
    · refine iff_of_false nofun ?_
      rintro ⟨h, hwidth⟩
      obtain ⟨rfl, rfl⟩ := List.append_eq_nil_iff.1 h.symm
      cases hwidth
  | cons a l ih =>
    rcases n with - | n
    · constructor
      · intro h
        obtain ⟨rfl, rfl⟩ := Prod.mk.inj (Option.some.inj h)
        exact ⟨rfl, rfl⟩
      · rintro ⟨h, hwidth⟩
        rcases before with - | ⟨b, before⟩
        · rw [List.nil_append] at h
          rw [splitAt, h]
        · rw [width_cons] at hwidth
          have hpos := hw b
          omega
    · rw [splitAt]
      split_ifs with ha
      · rw [Option.map_eq_some_iff]
        constructor
        · rintro ⟨⟨before, rest⟩, h, heq⟩
          obtain ⟨rfl, rfl⟩ := Prod.mk.inj heq
          obtain ⟨rfl, hwidth⟩ := ih.1 h
          rw [width_cons]
          exact ⟨rfl, by omega⟩
        · rintro ⟨h, hwidth⟩
          rcases before with - | ⟨b, before⟩
          · cases hwidth
          · obtain ⟨rfl, rfl⟩ := List.cons.inj h
            rw [width_cons] at hwidth
            exact ⟨(before, rest), ih.2 ⟨rfl, by omega⟩, rfl⟩
      · refine iff_of_false nofun ?_
        rintro ⟨h, hwidth⟩
        rcases before with - | ⟨b, before⟩
        · cases hwidth
        · obtain ⟨rfl, rfl⟩ := List.cons.inj h
          rw [width_cons] at hwidth
          omega

/-- Of two beginnings of a text the one that takes less room begins the other. -/
theorem exists_append_of_width_le (hw : ∀ a, 0 < w a) {a b c d : List α}
    (h : a ++ b = c ++ d) (hle : width w a ≤ width w c) : ∃ m, c = a ++ m ∧ b = m ++ d := by
  rcases List.append_eq_append_iff.1 h with ⟨m, rfl, rfl⟩ | ⟨m, rfl, rfl⟩
  · exact ⟨m, rfl, rfl⟩
  · rcases m with - | ⟨x, m⟩
    · exact ⟨[], by rw [List.append_nil, List.append_nil], rfl⟩
    · rw [width_append, width_cons] at hle
      have hpos := hw x
      omega

/-! ### Ranges -/

/-- A stretch of a text. -/
structure Range where
  start : ℕ
  stop : ℕ
  start_le_stop : start ≤ stop
  deriving DecidableEq

namespace Range

/-- The empty range at a place. -/
def emptyAt (place : ℕ) : Range :=
  ⟨place, place, Nat.le_refl place⟩

/-- How much room a range takes. -/
def length (r : Range) : ℕ :=
  r.stop - r.start

/-- They have room in common. -/
def Overlaps (a b : Range) : Prop :=
  a.start < b.stop ∧ b.start < a.stop

instance (a b : Range) : Decidable (a.Overlaps b) :=
  inferInstanceAs (Decidable (_ ∧ _))

/-- All of `a` is in `b`. -/
def Within (a b : Range) : Prop :=
  b.start ≤ a.start ∧ a.stop ≤ b.stop

instance (a b : Range) : Decidable (a.Within b) :=
  inferInstanceAs (Decidable (_ ∧ _))

theorem Within.eq {a b : Range} (h : a.Within b) (hlength : b.length ≤ a.length) : a = b := by
  obtain ⟨start, stop, hab⟩ := a
  obtain ⟨start', stop', hab'⟩ := b
  obtain ⟨hstart, hstop⟩ := h
  dsimp only [length] at hlength hstart hstop
  congr 1 <;> omega

theorem Within.length_le {a b : Range} (h : a.Within b) : a.length ≤ b.length :=
  (Nat.sub_le_sub_right h.2 _).trans (Nat.sub_le_sub_left h.1 _)

end Range

/-- A range and what stands there instead. -/
structure Replacement (α : Type) where
  range : Range
  text : List α
  deriving DecidableEq

/-- One of two ranges is in the other, or they have nothing in common. -/
def Laminar (family : List (Replacement α)) : Prop :=
  ∀ a ∈ family, ∀ b ∈ family,
    a.range.Within b.range ∨ b.range.Within a.range ∨ ¬ a.range.Overlaps b.range

/-- Another range has all of this one in it, and not as an empty range at one of its ends. -/
def Covered (family : List (Replacement α)) (r : Replacement α) : Prop :=
  ∃ a ∈ family, a.range ≠ r.range ∧ r.range.Within a.range ∧ a.range.Overlaps r.range

instance (family : List (Replacement α)) (r : Replacement α) : Decidable (Covered family r) :=
  inferInstanceAs (Decidable (∃ a ∈ family, _))

/-! ### Those that remain -/

/-- Each that overlaps none before it. -/
def keep (kept : List (Replacement α)) : List (Replacement α) → List (Replacement α)
  | [] => kept
  | r :: rest =>
    if kept.all fun k ↦ !decide (k.range.Overlaps r.range) then keep (kept ++ [r]) rest
    else keep kept rest

/-- Longer ones first, and of equal ones those that start first. -/
def lengthKey (r : Replacement α) : ℕ ×ₗ ℕᵒᵈ :=
  toLex (r.range.length, OrderDual.toDual r.range.start)

/-- The replacements that remain, the last first. -/
def nonOverlapping (family : List (Replacement α)) : List (Replacement α) :=
  Ranking.rankBy (fun r ↦ r.range.start) (keep [] (Ranking.rankBy lengthKey family))

/-- `r` overlaps something kept before it exactly if it is covered, and then that covers it. -/
theorem exists_covering {all processed rest : List (Replacement α)} {r : Replacement α}
    (hall : all = processed ++ r :: rest)
    (hsorted : all.Pairwise fun a b ↦ b.range.length ≤ a.range.length)
    (hcover : ∀ a ∈ processed, ∃ k ∈ processed, ¬ Covered all k ∧ a.range.Within k.range)
    (h : Covered all r) : ∃ k ∈ processed, ¬ Covered all k ∧ r.range.Within k.range ∧
      k.range.Overlaps r.range := by
  obtain ⟨a, ha, hne, hwithin, hoverlaps⟩ := h
  rw [hall] at ha hsorted
  have hbefore : a ∈ processed := by
    rcases List.mem_append.1 ha with ha | ha
    · exact ha
    rcases List.mem_cons.1 ha with rfl | ha
    · exact absurd rfl hne
    · have hle := (List.pairwise_cons.1 (List.pairwise_append.1 hsorted).2.1).1 a ha
      exact absurd (hwithin.eq hle).symm hne
  obtain ⟨k, hk, huncovered, hinside⟩ := hcover a hbefore
  exact ⟨k, hk, huncovered, ⟨hinside.1.trans hwithin.1, hwithin.2.trans hinside.2⟩,
    hinside.1.trans_lt hoverlaps.1, hoverlaps.2.trans_le hinside.2⟩

theorem covered_of_overlaps {all processed rest : List (Replacement α)} {r k : Replacement α}
    (hall : all = processed ++ r :: rest)
    (hsorted : all.Pairwise fun a b ↦ b.range.length ≤ a.range.length)
    (hnodup : (all.map Replacement.range).Nodup) (hlaminar : Laminar all) (hk : k ∈ processed)
    (h : k.range.Overlaps r.range) : Covered all r := by
  have hkall : k ∈ all := by
    rw [hall]
    exact List.mem_append_left _ hk
  have hrall : r ∈ all := by
    rw [hall]
    exact List.mem_append_right _ List.mem_cons_self
  have hne : k.range ≠ r.range := by
    rw [hall, List.map_append] at hnodup
    exact List.disjoint_left.1 ((List.nodup_append'.1 hnodup).2.2) (List.mem_map_of_mem hk)
      |> fun hnot heq ↦ hnot (heq ▸ List.mem_map_of_mem List.mem_cons_self)
  rcases hlaminar k hkall r hrall with hwithin | hwithin | hnot
  · rw [hall] at hsorted
    exact absurd (hwithin.eq ((List.pairwise_append.1 hsorted).2.2 k hk r List.mem_cons_self)) hne
  · exact ⟨k, hkall, hne, hwithin, h⟩
  · exact absurd h hnot

/-- The longest first, what overlaps nothing kept before it is what nothing covers. -/
theorem keep_eq_filter {all processed rest : List (Replacement α)} (hall : all = processed ++ rest)
    (hsorted : all.Pairwise fun a b ↦ b.range.length ≤ a.range.length)
    (hnodup : (all.map Replacement.range).Nodup) (hlaminar : Laminar all)
    (hcover : ∀ a ∈ processed, ∃ k ∈ processed, ¬ Covered all k ∧ a.range.Within k.range) :
    keep (processed.filter fun r ↦ ¬ Covered all r) rest = (all.filter fun r ↦ ¬ Covered all r) ∧
      ∀ a ∈ all, ∃ k ∈ all, ¬ Covered all k ∧ a.range.Within k.range := by
  induction rest generalizing processed with
  | nil =>
    rw [List.append_nil] at hall
    subst hall
    exact ⟨rfl, hcover⟩
  | cons r rest ih =>
    have hnext : all = (processed ++ [r]) ++ rest := by
      rw [hall, List.append_assoc]
      rfl
    rw [keep]
    by_cases hcovered : Covered all r
    · obtain ⟨k, hk, huncovered, hwithin, hoverlaps⟩ :=
        exists_covering hall hsorted hcover hcovered
      rw [if_neg]
      · have hstep := ih hnext fun a ha ↦ ?_
        · rwa [List.filter_append, List.filter_cons_of_neg (by simpa using hcovered),
            List.filter_nil, List.append_nil] at hstep
        · rcases List.mem_append.1 ha with ha | ha
          · obtain ⟨k, hk, hrest⟩ := hcover a ha
            exact ⟨k, List.mem_append_left _ hk, hrest⟩
          · obtain rfl := List.mem_singleton.1 ha
            exact ⟨k, List.mem_append_left _ hk, huncovered, hwithin⟩
      · rw [List.all_eq_true]
        intro hnone
        have hnot := hnone k (List.mem_filter.2 ⟨hk, decide_eq_true huncovered⟩)
        rw [Bool.not_eq_true', decide_eq_false_iff_not] at hnot
        exact hnot hoverlaps
    · rw [if_pos]
      · have hstep := ih hnext fun a ha ↦ ?_
        · rwa [List.filter_append, List.filter_cons_of_pos (by simpa using hcovered),
            List.filter_nil] at hstep
        · rcases List.mem_append.1 ha with ha | ha
          · obtain ⟨k, hk, hrest⟩ := hcover a ha
            exact ⟨k, List.mem_append_left _ hk, hrest⟩
          · obtain rfl := List.mem_singleton.1 ha
            exact ⟨a, List.mem_append_right _ ha, hcovered, le_rfl, le_rfl⟩
      · rw [List.all_eq_true]
        intro k hk
        rw [Bool.not_eq_true', decide_eq_false_iff_not]
        intro hoverlaps
        exact hcovered (covered_of_overlaps hall hsorted hnodup hlaminar
          (List.mem_of_mem_filter hk) hoverlaps)

theorem covered_congr {family family' : List (Replacement α)} {r : Replacement α}
    (h : ∀ a, a ∈ family ↔ a ∈ family') : Covered family r ↔ Covered family' r := by
  simp only [Covered, h]

theorem length_le_of_lengthKey_le {a b : Replacement α} (h : lengthKey b ≤ lengthKey a) :
    b.range.length ≤ a.range.length := by
  rcases Prod.Lex.le_iff.1 h with hlt | ⟨heq, -⟩
  · exact Nat.le_of_lt hlt
  · exact Nat.le_of_eq heq

/-- What nothing covers lies apart. -/
theorem pairwise_filter_not_covered {all : List (Replacement α)}
    (hnodup : (all.map Replacement.range).Nodup) (hlaminar : Laminar all) :
    (all.filter fun r ↦ ¬ Covered all r).Pairwise fun a b ↦ ¬ a.range.Overlaps b.range := by
  have hne : all.Pairwise fun a b ↦ a.range ≠ b.range := List.pairwise_map.1 hnodup
  refine (hne.filter _).imp_of_mem fun {a b} ha hb hne hoverlaps ↦ ?_
  obtain ⟨ha, hacovered⟩ := List.mem_filter.1 ha
  obtain ⟨hb, hbcovered⟩ := List.mem_filter.1 hb
  rw [decide_eq_true_iff] at hacovered hbcovered
  rcases hlaminar a ha b hb with hwithin | hwithin | hnot
  · exact hacovered ⟨b, hb, hne.symm, hwithin, hoverlaps.2, hoverlaps.1⟩
  · exact hbcovered ⟨a, ha, hne, hwithin, hoverlaps⟩
  · exact hnot hoverlaps

/-- **What remains of a laminar family**: what no other range covers, in the order of the text from
the last to the first, and everything lies inside something that remains. -/
theorem nonOverlapping_spec {family : List (Replacement α)}
    (hnodup : (family.map Replacement.range).Nodup) (hlaminar : Laminar family) :
    (∀ r, r ∈ nonOverlapping family ↔ r ∈ family ∧ ¬ Covered family r) ∧
      (nonOverlapping family).Pairwise (fun a b ↦ b.range.stop ≤ a.range.start) ∧
      ∀ a ∈ family, ∃ k ∈ nonOverlapping family, a.range.Within k.range := by
  have hperm := Ranking.rankBy_perm lengthKey family
  have hsorted := (Ranking.pairwise_rankBy lengthKey family).imp length_le_of_lengthKey_le
  set all := Ranking.rankBy lengthKey family with hall
  have hlaminar' : Laminar all := fun a ha b hb ↦
    hlaminar a (hperm.mem_iff.1 ha) b (hperm.mem_iff.1 hb)
  have hcongr : ∀ r, Covered all r ↔ Covered family r := fun r ↦
    covered_congr fun a ↦ hperm.mem_iff
  have hnodup' := (hperm.map Replacement.range).nodup_iff.2 hnodup
  obtain ⟨hkeep, hcover⟩ := keep_eq_filter (List.nil_append all).symm hsorted hnodup' hlaminar'
    (List.forall_mem_nil _)
  rw [List.filter_nil] at hkeep
  have hkept := Ranking.rankBy_perm (fun r : Replacement α ↦ r.range.start) (keep [] all)
  have hmem : ∀ r, r ∈ nonOverlapping family ↔ r ∈ family ∧ ¬ Covered family r := by
    intro r
    rw [nonOverlapping, ← hall, hkept.mem_iff, hkeep, List.mem_filter, hperm.mem_iff,
      decide_eq_true_iff, hcongr]
  refine ⟨hmem, ?_, fun a ha ↦ ?_⟩
  · have hapart : (keep [] all).Pairwise fun a b ↦ ¬ a.range.Overlaps b.range := by
      rw [hkeep]
      exact pairwise_filter_not_covered hnodup' hlaminar'
    have hlengths : (keep [] all).Pairwise fun a b ↦ b.range.length ≤ a.range.length := by
      rw [hkeep]
      exact hsorted.filter _
    have hsymm : ∀ a b : Replacement α, ¬ a.range.Overlaps b.range → ¬ b.range.Overlaps a.range :=
      fun a b h hba ↦ h ⟨hba.2, hba.1⟩
    have hboth := ((hkept.pairwise_iff (hsymm _ _)).2 hapart).and
      (Ranking.pairwise_rankBy_of_pairwise hlengths)
    refine hboth.imp fun {a b} ⟨hnot, hstart⟩ ↦ ?_
    -- An empty range comes after the one that starts where it stands.
    have ha := a.range.start_le_stop
    unfold Range.Overlaps Range.length at *
    omega
  · obtain ⟨k, hk, huncovered, hwithin⟩ := hcover a (hperm.mem_iff.2 ha)
    exact ⟨k, (hmem k).2 ⟨hperm.mem_iff.1 hk, fun h ↦ huncovered ((hcongr k).2 h)⟩, hwithin⟩

/-! ### Replacing -/

/-- `String::replace_range`; it panics where a position cuts an element. -/
def replaceRange (w : α → ℕ) (text : List α) (start stop : ℕ) (new : List α) :
    Option (List α) := do
  let (before, rest) ← splitAt w text start
  let (_, after) ← splitAt w rest (stop - start)
  some (before ++ new ++ after)

/-- The ranges of a text from `pos` on are replaced, and all else is as it was. -/
inductive Replaced (w : α → ℕ) : ℕ → List α → List (Replacement α) → List α → Prop
  | done (pos : ℕ) (text : List α) : Replaced w pos text [] text
  | cons {pos : ℕ} {before part rest : List α} {r : Replacement α}
      {more : List (Replacement α)} {out : List α}
      (start : pos + width w before = r.range.start)
      (stop : r.range.start + width w part = r.range.stop)
      (tail : Replaced w r.range.stop rest more out) :
      Replaced w pos (before ++ (part ++ rest)) (r :: more) (before ++ (r.text ++ out))

/-- **Replaced from the last to the first**, the ranges are replaced where they are. -/
theorem exists_replaced (hw : ∀ a, 0 < w a) (base pos : ℕ) (before text : List α)
    {outer : List (Replacement α)}
    (hsorted : outer.Pairwise fun a b ↦ a.range.stop ≤ b.range.start)
    (hpos : base + width w before = pos) (hstart : ∀ r ∈ outer, pos ≤ r.range.start)
    (hcut : ∀ r ∈ outer, ∀ n ∈ [r.range.start, r.range.stop], ∃ a b,
      before ++ text = a ++ b ∧ base + width w a = n) :
    ∃ out, Replaced w pos text outer out ∧
      outer.reverse.foldlM (fun buffer r ↦ replaceRange w buffer (r.range.start - base)
        (r.range.stop - base) r.text) (before ++ text) = some (before ++ out) := by
  induction outer generalizing pos before text with
  | nil => exact ⟨text, .done pos text, rfl⟩
  | cons r more ih =>
    obtain ⟨hfirst, hmore⟩ := List.pairwise_cons.1 hsorted
    obtain ⟨a, b, hab, ha⟩ := hcut r List.mem_cons_self r.range.start List.mem_cons_self
    obtain ⟨c, d, hcd, hc⟩ := hcut r List.mem_cons_self r.range.stop
      (List.mem_cons_of_mem _ (List.mem_singleton_self _))
    have hle := hstart r List.mem_cons_self
    have hrange := r.range.start_le_stop
    obtain ⟨middle, rfl, rfl⟩ := exists_append_of_width_le hw hab (by omega)
    obtain ⟨part, rfl, rfl⟩ := exists_append_of_width_le hw (hab.symm.trans hcd) (by omega)
    rw [width_append] at ha hc
    rw [width_append] at hc
    obtain ⟨out, hout, hfold⟩ := ih r.range.stop (before ++ middle ++ part) d hmore
      (by rw [width_append, width_append]; omega) hfirst fun s hs n hn ↦ by
        obtain ⟨x, y, hxy, hx⟩ := hcut s (List.mem_cons_of_mem _ hs) n hn
        exact ⟨x, y, by rw [← hxy]; simp, hx⟩
    refine ⟨middle ++ (r.text ++ out), .cons (by omega) (by omega) hout, ?_⟩
    have hsplit : splitAt w (before ++ middle ++ part ++ out) (r.range.start - base) =
        some (before ++ middle, part ++ out) :=
      (splitAt_eq_some_iff hw).2 ⟨by simp, by rw [width_append]; omega⟩
    have hpart : splitAt w (part ++ out) (r.range.stop - base - (r.range.start - base)) =
        some (part, out) :=
      (splitAt_eq_some_iff hw).2 ⟨rfl, by omega⟩
    have htext : before ++ (middle ++ (part ++ d)) = before ++ middle ++ part ++ d := by simp
    rw [List.reverse_cons, List.foldlM_append, htext, hfold]
    show replaceRange w _ _ _ _ >>= pure = _
    rw [replaceRange, hsplit]
    show (splitAt w (part ++ out) _ >>= fun x ↦
      some (before ++ middle ++ r.text ++ x.2)) >>= pure = _
    rw [hpart]
    simp

end Splice
