import Mathlib.Algebra.GroupWithZero.Nat
import Mathlib.Data.List.Basic
import Mathlib.Data.Prod.Lex
import Mathlib.Data.List.Lex
import Mathlib.Order.Fin.Basic
import RustCodeMcp.Graph.TableTags

/-!
# The tables of a snapshot

The tables as LMDB keeps them: rows of a key and a value, both byte strings, in the order of the
keys and, under one key, of the values. Only a table of duplicates has more than one value under a
key.

Rows are ordered as an environment orders them, so that a table is an increasing list and a cursor a
place in it. What a value decodes to is no matter of this module: a row is bytes.
-/

namespace RustCodeMcp.Tables

/-- Eight bits. -/
abbrev Byte := Fin 256

/-- Named, so that every literal has one proof of it. -/
scoped instance neZero_byte : NeZero 256 :=
  ⟨by decide⟩

/-- A byte string, ordered byte by byte. -/
abbrev Bytes := List Byte

/-- Key and value, in the order of a cursor. -/
abbrev Row := Bytes ×ₗ Bytes

/-- The key of a row. -/
abbrev Row.key (row : Row) : Bytes := (ofLex row).1

/-- The value of a row. -/
abbrev Row.value (row : Row) : Bytes := (ofLex row).2

/-- The rows of an environment, and the names that its main database lists. -/
structure OpenedSnapshot where
  graphId : String
  snapshotDir : String
  subDbNames : List String
  tables : DbTag → List Row
  increasing : ∀ tag, (tables tag).Pairwise (· < ·)
  singles : ∀ tag, tag.isDupSort = false → ((tables tag).map Row.key).Nodup

end RustCodeMcp.Tables
