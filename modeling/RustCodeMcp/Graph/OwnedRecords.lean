import RustCodeMcp.Graph.TableTags

/-!
# The record of an owned row

`owned_rows_by_crate` lists the rows that a crate wrote: the table's code, the key and, for a table
with many values under a key, the value. How long a record is depends on the table, so a record that
can be read is one that was written for that table (`decode_ok_iff`).

**The code comes first and decides the length**: a record of a table with one value under a key is a
code and a key, one with many values a key and a value more, all of 32 bytes. So a record can be
taken apart without knowing where it came from, and one that is too short or too long for its code
is refused, with the code's own words.
-/

namespace RustCodeMcp.OwnedRecords

/-! ### Records -/

/-- How many bytes an id has. -/
abbrev ID_LEN : ℕ := 32

/-- `[u8; ID_LEN]` -/
abbrev Id := { bytes : List UInt8 // bytes.length = ID_LEN }

/-- One row that a crate owns; the value is there for a table that has many under a key. -/
structure OwnedRow where
  tag : DbTag
  key : Id
  dup : Option Id
  deriving DecidableEq

namespace OwnedRow

/-- The bytes of a record. -/
def encode (row : OwnedRow) : List UInt8 :=
  row.tag.code :: (row.key.1 ++ match row.dup with
    | some dup => dup.1
    | none => [])

/-- How many bytes stand behind the code. -/
def expected (tag : DbTag) : ℕ :=
  if tag.isDupSort then 2 * ID_LEN else ID_LEN

theorem length_take_expected {tag : DbTag} {rest : List UInt8} (h : rest.length = expected tag) :
    (rest.take ID_LEN).length = ID_LEN := by
  rw [List.length_take, h, expected]
  split <;> rfl

theorem length_drop_expected {tag : DbTag} {rest : List UInt8} (h : rest.length = expected tag)
    (hdup : tag.isDupSort) : (rest.drop ID_LEN).length = ID_LEN := by
  rw [List.length_drop, h, expected, if_pos hdup]
  rfl

/-- The record of some bytes, or what is wrong with them. -/
def decode : List UInt8 → Except String OwnedRow
  | [] => .error "empty owned row"
  | code :: rest =>
    match DbTag.fromCode code with
    | none => .error s!"unknown table code {code}"
    | some tag =>
      if tag = .ownedRowsByCrate then
        .error "an owned row cannot point into `owned_rows_by_crate` itself"
      else if h : rest.length = expected tag then
        .ok {
          tag
          key := ⟨rest.take ID_LEN, length_take_expected h⟩
          dup := if hdup : tag.isDupSort then
            some ⟨rest.drop ID_LEN, length_drop_expected h hdup⟩ else none }
      else
        .error (s!"owned `{tag.dbName}` row has {rest.length} bytes after the code, " ++
          s!"expected {expected tag}")

/-- A row that a crate can own: not one of the list itself, and with a value exactly where its table
wants one. -/
def Valid (row : OwnedRow) : Prop :=
  row.tag ≠ .ownedRowsByCrate ∧ row.dup.isSome = row.tag.isDupSort

theorem length_encode {row : OwnedRow} (h : row.Valid) :
    row.encode.tail.length = expected row.tag := by
  obtain ⟨tag, ⟨key, hkey⟩, dup⟩ := row
  have hdup : dup.isSome = tag.isDupSort := h.2
  rw [expected, ← hdup]
  cases dup with
  | none => simp [encode, hkey]
  | some dup =>
    rw [encode, List.tail_cons, List.length_append, hkey, dup.2]
    rfl

theorem decode_encode {row : OwnedRow} (h : row.Valid) : decode row.encode = .ok row := by
  have hlength := length_encode h
  obtain ⟨tag, ⟨key, hkey⟩, dup⟩ := row
  have hdup : dup.isSome = tag.isDupSort := h.2
  rw [encode, List.tail_cons] at hlength
  rw [encode, decode, DbTag.fromCode_code]
  dsimp only
  rw [if_neg h.1, dif_pos hlength]
  congr 2
  · exact Subtype.ext (List.take_left' hkey)
  · cases dup with
    | none => rw [dif_neg (Bool.eq_false_iff.1 hdup.symm)]
    | some dup =>
      have htrue : tag.isDupSort = true := hdup.symm
      rw [dif_pos htrue]
      exact congrArg some (Subtype.ext (List.drop_left' hkey))

/-- What was read is valid, and has those bytes. -/
theorem encode_of_decode {bytes : List UInt8} {row : OwnedRow} (h : decode bytes = .ok row) :
    row.Valid ∧ row.encode = bytes := by
  cases bytes with
  | nil => nomatch h
  | cons code rest =>
    rw [decode] at h
    split at h <;> [nomatch h; rename_i tag htag]
    split_ifs at h with hown hlength hdup
    · obtain rfl := Except.ok.inj h
      refine ⟨⟨hown, hdup.symm⟩, ?_⟩
      rw [encode, DbTag.code_of_fromCode htag]
      exact congrArg (code :: ·) (List.take_append_drop ..)
    · obtain rfl := Except.ok.inj h
      refine ⟨⟨hown, (Bool.eq_false_iff.2 hdup).symm⟩, ?_⟩
      have hkey : rest.length = ID_LEN := by rw [hlength, expected, if_neg hdup]
      rw [encode, DbTag.code_of_fromCode htag]
      dsimp only
      rw [List.append_nil, List.take_of_length_le (Nat.le_of_eq hkey)]

/-- **A record that can be read is one that was written**: of a row that a crate can own, and in the
way that it is written; and no two tables have one code. -/
theorem decode_ok_iff :
    (∀ bytes row, decode bytes = .ok row ↔ row.Valid ∧ row.encode = bytes) ∧
      Function.Injective DbTag.code ∧ ∀ tag, DbTag.fromCode (DbTag.code tag) = some tag := by
  refine ⟨fun bytes row ↦ ⟨encode_of_decode, ?_⟩, DbTag.code_injective, DbTag.fromCode_code⟩
  rintro ⟨hvalid, rfl⟩
  exact decode_encode hvalid

end OwnedRow
end RustCodeMcp.OwnedRecords
