import Mathlib.Data.List.Infix

/-!
# Separators

A text split at the first or at the last place where a separator stands. Free text in front of a
separator may contain it: the last place is still found when the separator does not stand anywhere
in what follows its first character.
-/

namespace Separators

variable {α : Type} [DecidableEq α] {sep text before after : List α} {c : α}

/-- What follows the beginning, if the text has it. -/
def stripPrefix (pre text : List α) : Option (List α) :=
  if pre.isPrefixOf text then some (text.drop pre.length) else none

/-- What stands before and after the first place of the separator. -/
def splitOnce (sep : List α) : List α → Option (List α × List α)
  | [] => (stripPrefix sep []).map fun after ↦ ([], after)
  | c :: rest =>
    match stripPrefix sep (c :: rest) with
    | some after => some ([], after)
    | none => (splitOnce sep rest).map fun (before, after) ↦ (c :: before, after)

/-- What stands before and after its last place. -/
def rsplitOnce (sep : List α) : List α → Option (List α × List α)
  | [] => (stripPrefix sep []).map fun after ↦ ([], after)
  | c :: rest =>
    match rsplitOnce sep rest with
    | some (before, after) => some (c :: before, after)
    | none => (stripPrefix sep (c :: rest)).map fun after ↦ ([], after)

/-- Whether the separator stands anywhere. -/
def contains (sep text : List α) : Bool :=
  (splitOnce sep text).isSome

theorem stripPrefix_append (pre text : List α) : stripPrefix pre (pre ++ text) = some text := by
  rw [stripPrefix, if_pos (List.isPrefixOf_iff_prefix.2 (List.prefix_append pre text)),
    List.drop_left]

theorem stripPrefix_eq_none (h : ¬ sep <+: text) : stripPrefix sep text = none :=
  if_neg fun hprefix ↦ h (List.isPrefixOf_iff_prefix.1 hprefix)

/-- Where the separator does not stand nothing is split. -/
theorem rsplitOnce_eq_none (h : ¬ sep <:+: text) : rsplitOnce sep text = none := by
  induction text with
  | nil =>
    rw [rsplitOnce, stripPrefix_eq_none fun hprefix ↦ h hprefix.isInfix]
    rfl
  | cons c text ih =>
    rw [rsplitOnce, ih fun hinfix ↦ h (List.infix_cons hinfix),
      stripPrefix_eq_none fun hprefix ↦ h hprefix.isInfix]
    rfl

omit [DecidableEq α] in
/-- A separator that does not begin here stands in the rest. -/
theorem infix_of_head_ne {d : α} (hne : c ≠ d) (h : c :: sep <:+: d :: text) :
    c :: sep <:+: text :=
  (List.infix_cons_iff.1 h).resolve_left fun hprefix ↦ hne (List.cons_prefix_cons.1 hprefix).1

/-- The first place, when the separator's first character does not stand before it. -/
theorem splitOnce_append (h : c ∉ before) (sep after : List α) :
    splitOnce (c :: sep) (before ++ (c :: sep ++ after)) = some (before, after) := by
  induction before with
  | nil =>
    rw [List.nil_append, List.cons_append, splitOnce, ← List.cons_append, stripPrefix_append]
  | cons d before ih =>
    obtain ⟨hd, hbefore⟩ := not_or.1 (List.mem_cons.not.1 h)
    rw [List.cons_append, splitOnce, stripPrefix_eq_none, ih hbefore]
    · rfl
    · rintro ⟨rest, hrest⟩
      exact hd (List.head_eq_of_cons_eq hrest)

/-- **The last place is found** where the separator does not stand in what follows. -/
theorem rsplitOnce_append (h : ¬ c :: sep <:+: sep ++ after) (before : List α) :
    rsplitOnce (c :: sep) (before ++ (c :: sep ++ after)) = some (before, after) := by
  induction before with
  | nil =>
    rw [List.nil_append, List.cons_append, rsplitOnce, rsplitOnce_eq_none h, ← List.cons_append,
      stripPrefix_append]
    rfl
  | cons d before ih => rw [List.cons_append, rsplitOnce, ih]

/-! ### Places of a separator -/

omit [DecidableEq α] in
theorem prefix_append_cons_iff (h : c ∉ sep) (before after : List α) :
    sep <+: before ++ c :: after ↔ sep <+: before := by
  induction before generalizing sep with
  | nil =>
    cases sep with
    | nil => simp
    | cons d sep =>
      have hd : d ≠ c := fun heq ↦ h (heq ▸ List.mem_cons_self)
      simp [List.cons_prefix_cons, hd]
  | cons b before ih =>
    cases sep with
    | nil => simp
    | cons d sep =>
      rw [List.cons_append, List.cons_prefix_cons, List.cons_prefix_cons,
        ih fun hmem ↦ h (List.mem_cons_of_mem d hmem)]

omit [DecidableEq α] in
/-- A separator stands on one side of a character that it does not have. -/
theorem infix_append_cons_iff (h : c ∉ sep) (before after : List α) :
    sep <:+: before ++ c :: after ↔ sep <:+: before ∨ sep <:+: after := by
  induction before with
  | nil =>
    have hnil := prefix_append_cons_iff h [] after
    rw [List.nil_append] at hnil ⊢
    rw [List.infix_cons_iff, hnil, List.prefix_nil, List.infix_nil]
  | cons b before ih =>
    have hprefix := prefix_append_cons_iff h (b :: before) after
    rw [List.cons_append] at hprefix ⊢
    rw [List.infix_cons_iff, hprefix, ih, List.infix_cons_iff, or_assoc]

theorem contains_iff : contains sep text = true ↔ sep <:+: text := by
  rw [contains]
  induction text with
  | nil =>
    rw [splitOnce, List.infix_nil, Option.isSome_map, stripPrefix]
    cases sep with
    | nil => simp
    | cons c sep => simp
  | cons c text ih =>
    rw [splitOnce, List.infix_cons_iff, ← ih]
    by_cases hprefix : sep <+: c :: text
    · obtain ⟨after, hafter⟩ := hprefix
      rw [← hafter, stripPrefix_append]
      exact iff_of_true rfl (.inl (List.prefix_append _ _))
    · rw [stripPrefix_eq_none hprefix]
      show ((splitOnce sep text).map _).isSome = true ↔ _
      rw [Option.isSome_map]
      exact (or_iff_right hprefix).symm

end Separators
