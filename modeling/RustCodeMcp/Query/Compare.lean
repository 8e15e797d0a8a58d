import RustCodeMcp.Order.Increasing
import RustCodeMcp.Query.Tables
import Mathlib.Data.Finset.Basic

/-!
# Comparing two snapshots

Every table of one snapshot is merged with the same table of the other. What the merge finds on one
side only is the difference of the tables (`compareTable_eq`), and nothing is found exactly when
the dumps are the same (`compareSnapshots_exact`). How a row is rendered does not matter here.

The cursors go by the order of the rows, so one pass is enough, and what is ahead on one side with a
lesser row is not on the other. Samples are limited in number, and counts are not.

A snapshot with a table that the comparison does not know is refused by the dump; the comparison
itself goes over the tables that it knows.
-/

namespace RustCodeMcp.Tables

open Increasing

/-- The tables that are not compared. -/
def EXCLUDED_TABLES : List String := ["meta_by_key", "embeddings_by_target"]

/-- A table that is neither compared nor excluded. -/
inductive CompareError
  /-- "snapshot {dir} has sub-DB `{name}`, which the snapshot oracle neither compares nor excludes;
  give it a `DbTag` (or list it in `EXCLUDED_TABLES` with the reason)" -/
  | unknownTable (snapshotDir name : String)
  deriving DecidableEq

namespace OpenedSnapshot

/-- Refuse a snapshot with such a table. -/
def checkKnownTables (snap : OpenedSnapshot) : Except CompareError Unit :=
  snap.subDbNames.forM fun name ↦
    if DbTag.all.any (fun tag ↦ tag.dbName = name) || EXCLUDED_TABLES.contains name then .ok ()
    else .error (.unknownTable snap.snapshotDir name)

/-- Every compared row, as a set. -/
def dumpSnapshot (snap : OpenedSnapshot) : Except CompareError (Finset (DbTag × Row)) := do
  snap.checkKnownTables
  pure (DbTag.all.flatMap fun tag ↦ (snap.tables tag).map fun row ↦ (tag, row)).toFinset

end OpenedSnapshot

/-- What one table of either snapshot lacks of the other's. -/
structure TableDiff where
  table : DbTag
  onlyInLeft : ℕ
  onlyInRight : ℕ
  leftSamples : List String
  rightSamples : List String
  deriving DecidableEq

/-- The differences of all tables. -/
structure SnapshotDiff where
  tables : List TableDiff
  deriving DecidableEq

section Merge

variable (render : DbTag → Row → String) (samples : ℕ)

/-- A row of the first snapshot alone. -/
def TableDiff.addLeft (table : TableDiff) (row : Row) : TableDiff :=
  { table with
    onlyInLeft := table.onlyInLeft + 1
    leftSamples := if table.leftSamples.length < samples then
        table.leftSamples ++ [render table.table row]
      else table.leftSamples }

/-- A row of the second snapshot alone. -/
def TableDiff.addRight (table : TableDiff) (row : Row) : TableDiff :=
  { table with
    onlyInRight := table.onlyInRight + 1
    rightSamples := if table.rightSamples.length < samples then
        table.rightSamples ++ [render table.table row]
      else table.rightSamples }

/-- The loop over the two cursors. -/
def mergeRows : List Row → List Row → TableDiff → TableDiff
  | [], [], table => table
  | l :: lit, [], table => mergeRows lit [] (table.addLeft render samples l)
  | [], r :: rit, table => mergeRows [] rit (table.addRight render samples r)
  | l :: lit, r :: rit, table =>
    if l = r then mergeRows lit rit table
    else if l < r then mergeRows lit (r :: rit) (table.addLeft render samples l)
    else mergeRows (l :: lit) rit (table.addRight render samples r)
  termination_by lit rit => lit.length + rit.length

end Merge

/-- Rows are rendered with the names of either snapshot. -/
def compareSnapshots (render : OpenedSnapshot → OpenedSnapshot → DbTag → Row → String)
    (left right : OpenedSnapshot) (samples : ℕ) : Except CompareError SnapshotDiff := do
  left.checkKnownTables
  right.checkKnownTables
  let tables := DbTag.all.map fun tag ↦
    mergeRows (render left right) samples (left.tables tag) (right.tables tag) ⟨tag, 0, 0, [], []⟩
  pure ⟨tables.filter fun table ↦ 0 < table.onlyInLeft + table.onlyInRight⟩

/-! ### The merge -/

variable {render : DbTag → Row → String} {samples : ℕ}

/-- What has been counted, with some more rows of either side. -/
def TableDiff.plus (render : DbTag → Row → String) (samples : ℕ) (table : TableDiff)
    (left right : List Row) : TableDiff where
  table := table.table
  onlyInLeft := table.onlyInLeft + left.length
  onlyInRight := table.onlyInRight + right.length
  leftSamples := table.leftSamples ++
    (left.take (samples - table.leftSamples.length)).map (render table.table)
  rightSamples := table.rightSamples ++
    (right.take (samples - table.rightSamples.length)).map (render table.table)

@[simp] theorem TableDiff.plus_nil (table : TableDiff) :
    table.plus render samples [] [] = table := by
  simp [plus]

theorem take_append_cons (done : List String) (f : Row → String) (row : Row) (rows : List Row) :
    (if done.length < samples then done ++ [f row] else done) ++
      (rows.take (samples - (if done.length < samples then done ++ [f row] else done).length)).map f
      = done ++ ((row :: rows).take (samples - done.length)).map f := by
  split
  · obtain ⟨n, hn⟩ : ∃ n, samples - done.length = n + 1 := ⟨samples - done.length - 1, by omega⟩
    have hlength : samples - (done ++ [f row]).length = n := by
      rw [List.length_append, List.length_singleton]
      omega
    rw [hn, hlength, List.take_succ_cons, List.map_cons, List.append_assoc, List.singleton_append]
  · have hzero : samples - done.length = 0 := by omega
    rw [hzero, List.take_zero, List.take_zero]

theorem TableDiff.plus_addLeft (table : TableDiff) (row : Row) (left right : List Row) :
    (table.addLeft render samples row).plus render samples left right =
      table.plus render samples (row :: left) right := by
  simp only [plus, addLeft, take_append_cons, List.length_cons, TableDiff.mk.injEq, true_and,
    and_true]
  omega

theorem TableDiff.plus_addRight (table : TableDiff) (row : Row) (left right : List Row) :
    (table.addRight render samples row).plus render samples left right =
      table.plus render samples left (row :: right) := by
  simp only [plus, addRight, take_append_cons, List.length_cons, TableDiff.mk.injEq, true_and,
    and_true]
  omega

/-- What is left of the first table when the second has ended. -/
theorem plus_left {lit : List Row} (table : TableDiff) :
    mergeRows render samples lit [] table = table.plus render samples lit [] := by
  induction lit generalizing table with
  | nil => rw [mergeRows, TableDiff.plus_nil]
  | cons l lit ih => rw [mergeRows, ih, TableDiff.plus_addLeft]

/-- What is left of the second table when the first has ended. -/
theorem plus_right {rit : List Row} (table : TableDiff) :
    mergeRows render samples [] rit table = table.plus render samples [] rit := by
  induction rit generalizing table with
  | nil => rw [mergeRows, TableDiff.plus_nil]
  | cons r rit ih => rw [mergeRows, ih, TableDiff.plus_addRight]

/-- **A merge of two tables counts what either lacks of the other.** -/
theorem mergeRows_eq {lit rit : List Row} (hl : lit.Pairwise (· < ·)) (hr : rit.Pairwise (· < ·))
    (table : TableDiff) : mergeRows render samples lit rit table =
      table.plus render samples (without lit rit) (without rit lit) := by
  induction lit generalizing rit table with
  | nil => rw [plus_right, without_nil, nil_without]
  | cons l lit ihl =>
    induction rit generalizing table with
    | nil => rw [plus_left, without_nil, nil_without]
    | cons r rit ihr =>
      rw [mergeRows]
      by_cases heq : l = r
      · obtain rfl := heq
        obtain ⟨hleft, hright⟩ := without_cons_cons hl hr
        rw [if_pos rfl, ihl hl.of_cons hr.of_cons, hleft, hright]
      rw [if_neg heq]
      by_cases hlt : l < r
      · have hless := lt_of_pairwise_cons hr hlt
        rw [if_pos hlt, ihl hl.of_cons hr, TableDiff.plus_addLeft, without_cons_of_lt hless,
          without_cons_right hless]
      · have hless := lt_of_pairwise_cons hl ((le_of_not_gt hlt).lt_of_ne' heq)
        rw [if_neg hlt, ihr hr.of_cons, TableDiff.plus_addRight, without_cons_of_lt hless,
          without_cons_right hless]

/-! ### The comparison -/

/-- The rows of a table of the first snapshot that the second one lacks. -/
def onlyIn (left right : OpenedSnapshot) (tag : DbTag) : List Row :=
  without (left.tables tag) (right.tables tag)

/-- The difference of two tables. -/
def diffOf (render : DbTag → Row → String) (left right : OpenedSnapshot) (samples : ℕ)
    (tag : DbTag) : TableDiff where
  table := tag
  onlyInLeft := (onlyIn left right tag).length
  onlyInRight := (onlyIn right left tag).length
  leftSamples := ((onlyIn left right tag).take samples).map (render tag)
  rightSamples := ((onlyIn right left tag).take samples).map (render tag)

/-- **A table is compared with the difference as the result.** -/
theorem compareTable_eq (left right : OpenedSnapshot) (tag : DbTag) :
    mergeRows render samples (left.tables tag) (right.tables tag) ⟨tag, 0, 0, [], []⟩ =
      diffOf render left right samples tag := by
  rw [mergeRows_eq (left.increasing tag) (right.increasing tag)]
  simp [TableDiff.plus, diffOf, onlyIn]

variable {left right : OpenedSnapshot}

theorem mem_dumpSnapshot {rows : Finset (DbTag × Row)} (h : left.dumpSnapshot = .ok rows)
    (tag : DbTag) (row : Row) : (tag, row) ∈ rows ↔ row ∈ left.tables tag := by
  rw [OpenedSnapshot.dumpSnapshot] at h
  rcases hcheck : left.checkKnownTables with e | ⟨⟩
  · rw [hcheck] at h
    nomatch h
  rw [hcheck] at h
  obtain rfl := Except.ok.inj h
  simp [DbTag.mem_all]

theorem exists_dumpSnapshot :
    (∃ rows, left.dumpSnapshot = .ok rows) ↔ left.checkKnownTables = .ok () := by
  rw [OpenedSnapshot.dumpSnapshot]
  rcases left.checkKnownTables with e | -
  · simp [bind, Except.bind]
  · exact ⟨fun _ ↦ rfl, fun _ ↦ ⟨_, rfl⟩⟩

theorem onlyIn_eq_nil {tag : DbTag} :
    onlyIn left right tag = [] ↔ ∀ row ∈ left.tables tag, row ∈ right.tables tag := by
  simp [List.eq_nil_iff_forall_not_mem, onlyIn, mem_without]

/-- Two dumps are the same exactly if no table differs. -/
theorem dumpSnapshot_eq_iff (hleft : left.checkKnownTables = .ok ())
    (hright : right.checkKnownTables = .ok ()) : left.dumpSnapshot = right.dumpSnapshot ↔
      ∀ tag, onlyIn left right tag = [] ∧ onlyIn right left tag = [] := by
  obtain ⟨l, hl⟩ := exists_dumpSnapshot.2 hleft
  obtain ⟨r, hr⟩ := exists_dumpSnapshot.2 hright
  rw [hl, hr]
  simp only [Except.ok.injEq, Finset.ext_iff, Prod.forall, mem_dumpSnapshot hl,
    mem_dumpSnapshot hr, onlyIn_eq_nil]
  exact forall_congr' fun tag ↦
    ⟨fun h ↦ ⟨fun row ↦ (h row).1, fun row ↦ (h row).2⟩, fun h row ↦ ⟨h.1 row, h.2 row⟩⟩

/-- **The comparison is the symmetric difference**, table by table, and it is empty exactly when the
dumps are equal. There is a result when there are dumps. -/
theorem compareSnapshots_exact
    (render : OpenedSnapshot → OpenedSnapshot → DbTag → Row → String)
    (left right : OpenedSnapshot) (samples : ℕ) :
    (∀ diff, compareSnapshots render left right samples = .ok diff →
      diff.tables = (DbTag.all.filter fun tag ↦
          0 < (onlyIn left right tag).length + (onlyIn right left tag).length).map
        (diffOf (render left right) left right samples) ∧
      (diff.tables = [] ↔ left.dumpSnapshot = right.dumpSnapshot)) ∧
    ((∃ diff, compareSnapshots render left right samples = .ok diff) ↔
      (∃ rows, left.dumpSnapshot = .ok rows) ∧ ∃ rows, right.dumpSnapshot = .ok rows) := by
  rw [exists_dumpSnapshot, exists_dumpSnapshot, compareSnapshots]
  rcases hleft : left.checkKnownTables with e | ⟨⟩
  · simp [bind, Except.bind]
  rcases hright : right.checkKnownTables with e | ⟨⟩
  · simp [bind, Except.bind]
  refine ⟨fun diff hdiff ↦ ?_, iff_of_true ⟨_, rfl⟩ ⟨rfl, rfl⟩⟩
  obtain rfl := Except.ok.inj hdiff
  simp only [compareTable_eq, List.filter_map]
  refine ⟨rfl, ?_⟩
  rw [dumpSnapshot_eq_iff hleft hright, List.map_eq_nil_iff, List.filter_eq_nil_iff]
  constructor
  · intro hnone tag
    have hzero := hnone tag tag.mem_all
    simp only [Function.comp_apply, diffOf, decide_eq_true_eq] at hzero
    exact ⟨List.eq_nil_of_length_eq_zero (by omega), List.eq_nil_of_length_eq_zero (by omega)⟩
  · intro hnil tag _
    simp [diffOf, hnil tag]

end RustCodeMcp.Tables
