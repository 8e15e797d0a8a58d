import RustCodeMcp.Order.Increasing
import RustCodeMcp.Query.Tables
import Mathlib.Data.List.Forall2

/-!
# Export pages

A page goes on behind the row that the cursor was made at, which may lie within the duplicates of a
key. The pages that follow one another cut the table into segments (`exportPages_cover`).

A cursor is the key and the value of the last row, in hexadecimal, with the table and the snapshot
it was made for. The range begins at the key of the cursor; rows of that key up to the cursor's are
skipped, since they have been on a page. **The limit may differ from call to call**: a page is told
by the rows before it alone.

The parts of the proof:

* `unhex_hex`: the fields of a cursor give back the bytes they were made of;
* `exportPage_eq`: a page behind some rows has the next ones, and a cursor to the rest if there is
  one;
* `exportPages_cover`: with any limits, the pages of a table have its rows once, in order, and come
  to an end.
-/

namespace RustCodeMcp.Export

open Tables Increasing

/-- Characters, as they are written. -/
abbrev Text := List Char

/-- The version of the format. -/
def EXPORT_VERSION : ℕ := 1

/-- The tables that can be exported. -/
def TABLES : List String :=
  ["nodes", "bindings", "usages", "contains", "unresolved_calls", "signatures", "statics",
    "stub_owners"]

/-- Why an export is refused. -/
inductive ExportError
  /-- "export limit must be 1..=10000" -/
  | limit
  /-- "unknown export table {table}; expected one of {TABLES}" -/
  | unknownTable (table : String)
  /-- "export cursor belongs to a different graph or table; restart export" -/
  | differentCursor
  /-- "invalid export cursor encoding" -/
  | invalidEncoding
  /-- "invalid export cursor hex" -/
  | invalidHex
  /-- The error of `bincode` or of `serde_json`. -/
  | invalidRecord
  /-- "invalid graph id length" -/
  | invalidIdLength
  deriving DecidableEq

/-- Where a page ended. -/
structure ExportCursor where
  graphId : String
  table : String
  key : Text
  value : Text
  deriving DecidableEq

/-- `Value` is what a record is decoded to. -/
structure ExportRow (Value : Type) where
  key : Text
  record : Value
  deriving DecidableEq

/-- A page of a table, and the cursor for the next. -/
structure ExportPage (Value : Type) where
  exportVersion : ℕ
  graphId : String
  table : String
  totalRows : ℕ
  rows : List (ExportRow Value)
  nextCursor : Option ExportCursor
  deriving DecidableEq

/-! ### Hexadecimal -/

/-- `{b:02x}` -/
def hexByte (b : Byte) : Text :=
  [Nat.digitChar (b / 16), Nat.digitChar (b % 16)]

/-- Bytes in hexadecimal. -/
def hex (bytes : Bytes) : Text :=
  bytes.flatMap hexByte

/-- `char::to_digit` -/
def toDigit (c : Char) : Option ℕ :=
  if '0' ≤ c ∧ c ≤ '9' then some (c.toNat - 48)
  else if 'a' ≤ c ∧ c ≤ 'f' then some (c.toNat - 87)
  else if 'A' ≤ c ∧ c ≤ 'F' then some (c.toNat - 55)
  else none

/-- `u8::from_str_radix`, which takes a sign. -/
def fromStrRadix (a b : Char) : Option Byte :=
  if a = '+' then (toDigit b).map (Fin.ofNat 256)
  else do
    let high ← toDigit a
    let low ← toDigit b
    pure (Fin.ofNat 256 (16 * high + low))

/-- Read two digits at a time. -/
def unhexPairs : Text → Except ExportError Bytes
  | a :: b :: rest =>
    match fromStrRadix a b with
    | none => .error .invalidHex
    | some byte => do
      let bytes ← unhexPairs rest
      pure (byte :: bytes)
  | _ => pure []

/-- Read hexadecimal, which has an even number of digits. -/
def unhex (s : Text) : Except ExportError Bytes :=
  if !(s.all fun c ↦ c.toNat < 128) || s.length % 2 ≠ 0 then .error .invalidEncoding
  else unhexPairs s

/-! ### Pages -/

/-- The table with a name. -/
def database : String → Except ExportError DbTag
  | "nodes" => .ok .nodesById
  | "bindings" => .ok .bindingsById
  | "usages" => .ok .usagesById
  | "contains" => .ok .childrenByParent
  | "unresolved_calls" => .ok .unresolvedCallsByOwner
  | "signatures" => .ok .signaturesByTarget
  | "statics" => .ok .staticMetadataByTarget
  | "stub_owners" => .ok .stubOwners
  | table => .error (.unknownTable table)

section Page

variable {Value : Type} (decode : String → Bytes → Option Value) (json : Bytes → Value)

/-- `decode` reads the record of a table, `json` writes an id. -/
def record (table : String) (bytes : Bytes) : Except ExportError Value :=
  match table with
  | "nodes" | "bindings" | "usages" | "unresolved_calls" | "signatures" | "statics" =>
    match decode table bytes with
    | some value => .ok value
    | none => .error .invalidRecord
  | "contains" | "stub_owners" =>
    if bytes.length = 32 then .ok (json bytes) else .error .invalidIdLength
  | table => .error (.unknownTable table)

variable (snap : OpenedSnapshot) (table : String)

/-- The cursor made at a row. -/
def cursorAt (row : Tables.Row) : ExportCursor :=
  ⟨snap.graphId, table, hex row.key, hex row.value⟩

/-- The row that a cursor was made at, if it is one of this table. -/
def decodeCursor (c : ExportCursor) : Except ExportError Tables.Row :=
  if c.graphId ≠ snap.graphId ∨ c.table ≠ table then .error .differentCursor
  else do
    let key ← unhex c.key
    let value ← unhex c.value
    pure (toLex (key, value))

/-- The loop over the range, with the rows and the last of them; the flag tells that there are
more. -/
def pageRows (after : Option Tables.Row) (limit : ℕ) :
    List Tables.Row → List (ExportRow Value) → Option ExportCursor →
      Except ExportError (List (ExportRow Value) × Option ExportCursor × Bool)
  | [], rows, last => .ok (rows, last, false)
  | entry :: range, rows, last =>
    if after.any (fun position ↦ entry ≤ position) then pageRows after limit range rows last
    else if rows.length = limit then .ok (rows, last, true)
    else do
      let value ← record decode json table entry.value
      pageRows after limit range (rows ++ [⟨hex entry.key, value⟩])
        (some (cursorAt snap table entry))

/-- One page. -/
def exportPage (cursor : Option ExportCursor) (limit : ℕ) :
    Except ExportError (ExportPage Value) :=
  if ¬ (1 ≤ limit ∧ limit ≤ 10000) then .error .limit
  else do
    let tag ← database table
    let after ← cursor.mapM (decodeCursor snap table)
    let range := (snap.tables tag).filter fun row ↦ after.all fun position ↦ position.key ≤ row.key
    let (rows, last, more) ← pageRows decode json snap table after limit range [] none
    pure
      { exportVersion := EXPORT_VERSION
        graphId := snap.graphId
        table
        totalRows := (snap.tables tag).length
        rows
        nextCursor := if more then last else none }

/-- Pages that follow one another, each asked for with a limit of its own; `none` when there are
more than so many. -/
def exportPages (limits : ℕ → ℕ) :
    ℕ → ℕ → Option ExportCursor → Except ExportError (Option (List (ExportPage Value)))
  | 0, _, _ => .ok none
  | calls + 1, call, cursor => do
    let page ← exportPage decode json snap table cursor (limits call)
    match page.nextCursor with
    | none => .ok (some [page])
    | some next => do
      let pages ← exportPages limits calls (call + 1) (some next)
      pure (pages.map (page :: ·))

end Page

/-! ### What is decoded -/

theorem toDigit_digitChar {n : ℕ} (h : n < 16) : toDigit (Nat.digitChar n) = some n := by
  have hall : ∀ n : Fin 16, toDigit (Nat.digitChar n) = some n.1 := by decide
  exact hall ⟨n, h⟩

theorem digitChar_ascii {n : ℕ} (h : n < 16) :
    (Nat.digitChar n).toNat < 128 ∧ Nat.digitChar n ≠ '+' := by
  have hall : ∀ n : Fin 16, (Nat.digitChar n).toNat < 128 ∧ Nat.digitChar n ≠ '+' := by decide
  exact hall ⟨n, h⟩

theorem fromStrRadix_hexByte (b : Byte) :
    fromStrRadix (Nat.digitChar (b / 16)) (Nat.digitChar (b % 16)) = some b := by
  have hb := b.isLt
  rw [fromStrRadix, if_neg (digitChar_ascii (by omega)).2, toDigit_digitChar (by omega),
    toDigit_digitChar (by omega)]
  refine congrArg some (Fin.ext ?_)
  rw [Fin.val_ofNat]
  omega

/-- **Hexadecimal is read back.** -/
theorem unhexPairs_hex (bytes : Bytes) : unhexPairs (hex bytes) = .ok bytes := by
  induction bytes with
  | nil => rfl
  | cons b bytes ih =>
    show unhexPairs (Nat.digitChar (b / 16) :: Nat.digitChar (b % 16) :: hex bytes) = _
    rw [unhexPairs, fromStrRadix_hexByte]
    simp only [ih]
    rfl

/-- **The fields of a cursor give back the bytes.** -/
theorem unhex_hex (bytes : Bytes) : unhex (hex bytes) = .ok bytes := by
  rw [unhex, if_neg, unhexPairs_hex]
  rw [Bool.not_eq_true, Bool.or_eq_false_iff, Bool.not_eq_false', List.all_eq_true,
    decide_eq_false_iff_not, not_not]
  constructor
  · intro c hc
    obtain ⟨b, -, hc⟩ := List.mem_flatMap.1 hc
    have hb := b.isLt
    rw [hexByte, List.mem_pair] at hc
    obtain rfl | rfl := hc
    · exact decide_eq_true (digitChar_ascii (by omega)).1
    · exact decide_eq_true (digitChar_ascii (by omega)).1
  · induction bytes with
    | nil => rfl
    | cons b bytes ih =>
      show ((hex bytes).length + 1 + 1) % 2 = 0
      omega

/-! ### One page -/

section Pages

variable {Value : Type} {decode : String → Bytes → Option Value} {json : Bytes → Value}
  {snap : OpenedSnapshot} {table : String} {tag : DbTag} {value : Tables.Row → Value}
  {done rest : List Tables.Row}

/-- A row as it is exported. -/
def rowOf (value : Tables.Row → Value) (row : Tables.Row) : ExportRow Value :=
  ⟨hex row.key, value row⟩

/-- The cursor behind some rows. -/
def cursorAfter (snap : OpenedSnapshot) (table : String) (done : List Tables.Row) :
    Option ExportCursor :=
  done.getLast?.map (cursorAt snap table)

theorem decodeCursor_cursorAt (row : Tables.Row) :
    decodeCursor snap table (cursorAt snap table row) = .ok row := by
  rw [decodeCursor, if_neg (by simp [cursorAt])]
  simp only [cursorAt, unhex_hex]
  rfl

theorem pageRows_skip (after : Option Tables.Row) (limit : ℕ) (range : List Tables.Row)
    (rows : List (ExportRow Value)) (last : Option ExportCursor) :
    pageRows decode json snap table after limit range rows last =
      pageRows decode json snap table none limit
        (range.filter fun row ↦ !after.any fun position ↦ row ≤ position) rows last := by
  induction range generalizing rows last with
  | nil => rfl
  | cons entry range ih =>
    rw [pageRows]
    rcases hafter : after.any fun position ↦ entry ≤ position with - | -
    · rw [List.filter_cons_of_pos (by rw [hafter]; rfl), pageRows]
      simp only [ih, Option.any_none, Bool.false_eq_true, if_false]
    · rw [List.filter_cons_of_neg (by rw [hafter]; nofun), if_pos rfl, ih]

theorem pageRows_none {limit : ℕ} {rest : List Tables.Row}
    (hvalue : ∀ row ∈ rest, record decode json table row.value = .ok (value row))
    (rows : List (ExportRow Value)) (last : Option ExportCursor) (h : rows.length ≤ limit) :
    pageRows decode json snap table none limit rest rows last =
      .ok (rows ++ (rest.take (limit - rows.length)).map (rowOf value),
        (cursorAfter snap table (rest.take (limit - rows.length))).or last,
        decide (limit - rows.length < rest.length)) := by
  induction rest generalizing rows last with
  | nil => simp [pageRows, cursorAfter]
  | cons entry rest ih =>
    rw [pageRows, if_neg (by simp)]
    by_cases hfull : rows.length = limit
    · rw [if_pos hfull, hfull, Nat.sub_self]
      simp [cursorAfter]
    obtain ⟨n, hn⟩ : ∃ n, limit - rows.length = n + 1 := ⟨limit - rows.length - 1, by omega⟩
    have hn' : limit - (rows ++ [rowOf value entry]).length = n := by
      rw [List.length_append, List.length_singleton]
      omega
    rw [if_neg hfull, hvalue entry List.mem_cons_self]
    have hlast : (cursorAfter snap table (rest.take n)).or (some (cursorAt snap table entry)) =
        (cursorAfter snap table (entry :: rest.take n)).or last := by
      rcases hlast : (rest.take n).getLast? with - | row <;>
        simp [cursorAfter, List.getLast?_cons, hlast]
    show pageRows decode json snap table none limit rest (rows ++ [rowOf value entry])
      (some (cursorAt snap table entry)) = _
    rw [ih (fun row hrow ↦ hvalue row (List.mem_cons_of_mem _ hrow)) _ _
      (by rw [List.length_append, List.length_singleton]; omega), hn', hn, hlast]
    simp [List.append_assoc]

/-- The range from the key of a cursor on, without the rows up to it. -/
theorem filter_range (hrows : (done ++ rest).Pairwise (· < ·)) : ((done ++ rest).filter fun row ↦
        done.getLast?.all fun position ↦ position.key ≤ row.key).filter
      (fun row ↦ !done.getLast?.any fun position ↦ row ≤ position) = rest := by
  rcases List.eq_nil_or_concat' done with rfl | ⟨done, position, rfl⟩
  · simp
  rw [List.append_assoc, List.singleton_append] at hrows ⊢
  rw [List.getLast?_concat, List.filter_filter]
  conv_rhs => rw [← filter_lt_append_cons hrows]
  refine List.filter_congr fun row _ ↦ ?_
  rw [Option.any_some, Option.all_some, Bool.eq_iff_iff, Bool.and_eq_true, Bool.not_eq_true',
    decide_eq_false_iff_not, decide_eq_true_eq, decide_eq_true_eq, not_le]
  exact and_iff_left_of_imp fun hlt ↦ Prod.Lex.monotone_fst _ _ hlt.le

/-- The page of a segment. -/
def pageOf (snap : OpenedSnapshot) (table : String) (tag : DbTag) (value : Tables.Row → Value)
    (segment : List Tables.Row) (more : Bool) : ExportPage Value where
  exportVersion := EXPORT_VERSION
  graphId := snap.graphId
  table
  totalRows := (snap.tables tag).length
  rows := segment.map (rowOf value)
  nextCursor := if more then cursorAfter snap table segment else none

/-- **A page behind some rows has the next ones**, and a cursor to the rest if there is one. -/
theorem exportPage_eq (htag : database table = .ok tag) (hrows : snap.tables tag = done ++ rest)
    (hvalue : ∀ row ∈ snap.tables tag, record decode json table row.value = .ok (value row))
    {limit : ℕ} (hlimit : 1 ≤ limit ∧ limit ≤ 10000) :
    exportPage decode json snap table (cursorAfter snap table done) limit =
      .ok (pageOf snap table tag value (rest.take limit) (decide (limit < rest.length))) := by
  have hafter : (cursorAfter snap table done).mapM (decodeCursor snap table) =
      .ok done.getLast? := by
    rcases hlast : done.getLast? with - | row
    · simp [cursorAfter, hlast]
      rfl
    · simp only [cursorAfter, hlast, Option.map_some, Option.mapM_some, decodeCursor_cursorAt]
      rfl
  rw [exportPage, if_neg (not_not.2 hlimit), htag, hafter]
  simp only [bind, Except.bind]
  rw [pageRows_skip, hrows, filter_range (hrows ▸ snap.increasing tag), pageRows_none
    (fun row hrow ↦ hvalue row (hrows ▸ List.mem_append_right _ hrow)) _ _ (Nat.zero_le _)]
  simp [pure, Except.pure, pageOf, hrows]

/-! ### All pages -/

/-- A page has a segment of the table, and its cursor the last row of it. -/
structure Covers (snap : OpenedSnapshot) (tag : DbTag) (value : Tables.Row → Value)
    (segment : List Tables.Row) (page : ExportPage Value) : Prop where
  rows : page.rows = segment.map (rowOf value)
  totalRows : page.totalRows = (snap.tables tag).length
  cursor : ∀ c, page.nextCursor = some c → ∃ row, segment.getLast? = some row ∧
    unhex c.key = .ok row.key ∧ unhex c.value = .ok row.value

theorem covers_pageOf (segment : List Tables.Row) (more : Bool) :
    Covers snap tag value segment (pageOf snap table tag value segment more) where
  rows := rfl
  totalRows := rfl
  cursor c hc := by
    obtain ⟨-, hc⟩ := Option.ite_none_right_eq_some.1 hc
    obtain ⟨row, hrow, rfl⟩ := Option.map_eq_some_iff.1 hc
    exact ⟨row, hrow, unhex_hex _, unhex_hex _⟩

theorem cursorAfter_append (h : rest ≠ []) :
    cursorAfter snap table (done ++ rest) = cursorAfter snap table rest := by
  rw [cursorAfter, cursorAfter, List.getLast?_append_of_ne_nil _ h]

theorem exportPages_of_rest (htag : database table = .ok tag)
    (hvalue : ∀ row ∈ snap.tables tag, record decode json table row.value = .ok (value row))
    {limits : ℕ → ℕ} (hlimits : ∀ call, 1 ≤ limits call ∧ limits call ≤ 10000) {calls : ℕ}
    (done rest : List Tables.Row) (hrows : snap.tables tag = done ++ rest)
    (hcalls : rest.length < calls) (call : ℕ) :
    ∃ pages segments,
      exportPages decode json snap table limits calls call (cursorAfter snap table done) =
        .ok (some pages) ∧
      segments.flatten = rest ∧ List.Forall₂ (Covers snap tag value) segments pages := by
  induction calls generalizing done rest call with
  | zero => exact absurd hcalls (Nat.not_lt_zero _)
  | succ calls ih =>
    have hlimit := (hlimits call).1
    rw [exportPages, exportPage_eq htag hrows hvalue (hlimits call)]
    by_cases hmore : limits call < rest.length
    · have htake : rest.take (limits call) ≠ [] := by
        intro hnil
        have hlength := congrArg List.length hnil
        rw [List.length_take, List.length_nil] at hlength
        omega
      obtain ⟨pages, segments, hpages, hflatten, hcovers⟩ :=
        ih (done ++ rest.take (limits call)) (rest.drop (limits call))
          (by rw [hrows, List.append_assoc, List.take_append_drop])
          (by rw [List.length_drop]; omega) (call + 1)
      obtain ⟨cursor, hcursor⟩ : ∃ cursor,
          cursorAfter snap table (rest.take (limits call)) = some cursor :=
        ⟨_, by rw [cursorAfter, List.getLast?_eq_some_getLast htake]; rfl⟩
      rw [cursorAfter_append htake, hcursor] at hpages
      refine ⟨pageOf snap table tag value (rest.take (limits call)) true :: pages,
        rest.take (limits call) :: segments, ?_, ?_, .cons (covers_pageOf _ _) hcovers⟩
      · simp only [bind, Except.bind, pageOf, hmore, decide_true, if_true, hcursor, hpages]
        rfl
      · rw [List.flatten_cons, hflatten, List.take_append_drop]
    · refine ⟨[pageOf snap table tag value rest false], [rest], ?_, List.flatten_singleton,
        .cons (covers_pageOf _ _) .nil⟩
      rw [List.take_of_length_le (Nat.le_of_not_lt hmore)]
      simp only [bind, Except.bind, pageOf, hmore, decide_false, Bool.false_eq_true, if_false]

/-- **The pages of a table cover it exactly once**, in order, with any limits, and the last call
comes before long. -/
theorem exportPages_cover (htag : database table = .ok tag)
    (hvalue : ∀ row ∈ snap.tables tag, record decode json table row.value = .ok (value row))
    {limits : ℕ → ℕ} (hlimits : ∀ call, 1 ≤ limits call ∧ limits call ≤ 10000) {calls : ℕ}
    (hcalls : (snap.tables tag).length < calls) :
    ∃ pages segments, exportPages decode json snap table limits calls 0 none = .ok (some pages) ∧
      segments.flatten = snap.tables tag ∧ List.Forall₂ (Covers snap tag value) segments pages ∧
      pages.flatMap ExportPage.rows = (snap.tables tag).map (rowOf value) ∧
      ∀ page ∈ pages, page.totalRows = (pages.flatMap ExportPage.rows).length := by
  obtain ⟨pages, segments, hpages, hflatten, hcovers⟩ :=
    exportPages_of_rest htag hvalue hlimits [] (snap.tables tag) rfl hcalls 0
  have hrows : pages.flatMap ExportPage.rows = (snap.tables tag).map (rowOf value) := by
    rw [← hflatten]
    clear hpages hflatten
    induction hcovers with
    | nil => rfl
    | cons hcover _ ih =>
      rw [List.flatMap_cons, hcover.rows, ih, List.flatten_cons, List.map_append]
  refine ⟨pages, segments, hpages, hflatten, hcovers, hrows, fun page hpage ↦ ?_⟩
  obtain ⟨segment, hcover⟩ : ∃ segment, Covers snap tag value segment page := by
    obtain ⟨i, hi, rfl⟩ := List.mem_iff_getElem.1 hpage
    exact ⟨_, hcovers.get (by rw [hcovers.length_eq]; exact hi) hi⟩
  rw [hcover.totalRows, hrows, List.length_map]

/-- A parent with three children. -/
def family : OpenedSnapshot where
  graphId := "g"
  snapshotDir := "/graph"
  subDbNames := DbTag.all.map DbTag.dbName
  tables
    | .childrenByParent => [0, 1, 2].map fun child ↦ toLex ([7], child :: List.replicate 31 0)
    | _ => []
  increasing tag := by cases tag <;> decide
  singles tag := by cases tag <;> decide

theorem exportPages_cover_family : ∃ pages segments,
    exportPages (fun _ _ ↦ none) id family "contains" (fun call ↦ call % 2 + 1) 4 0 none =
        .ok (some pages) ∧
      segments.flatten = family.tables .childrenByParent ∧
      List.Forall₂ (Covers family .childrenByParent Tables.Row.value) segments pages ∧
      pages.flatMap ExportPage.rows =
        (family.tables .childrenByParent).map (rowOf Tables.Row.value) ∧
      ∀ page ∈ pages, page.totalRows = (pages.flatMap ExportPage.rows).length := by
  refine exportPages_cover rfl ?_ ?_ (by decide)
  · decide
  · intro call
    omega

end Pages

end RustCodeMcp.Export
