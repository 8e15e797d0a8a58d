import Mathlib.Algebra.BigOperators.Group.List.Basic
import Mathlib.Algebra.GroupWithZero.Nat
import RustCodeMcp.Chunker.Types

/-!
# The rows of a batch

The columns of a batch are filled in one pass over the chunks. The embeddings go one after another
into one buffer, which the fixed-size list then cuts into groups of `vector_dim`, so that a row gets
its own vector as long as every embedding is of that length. Nothing compares the lengths but the
record batch, which wants as many groups as there are chunks: lengths that are wrong one by one and
right together pass, and the components shift from row to row (`insertChunks_iff`).

A buffer that does not fall into full groups is refused by Arrow itself, so the lengths go wrong
unnoticed only where their sum is that of as many embeddings of the right length.

Sizes are 32-bit, and so is the number of a vector's components as Arrow takes it (`asI32`); where
it does not fit, the size is another one, and the columns do not come out equal.
-/

namespace RustCodeMcp

/-- Why an operation of the store fails. -/
inductive VectorStoreError
  | connection (message : String)
  | serialization (message : String)
  | notFound (message : String)
  | io (message : String)
  | backend (message : String)
  | versionMismatch (stored configured : String)
  deriving DecidableEq

/-- The printed form of an error. -/
def VectorStoreError.display : VectorStoreError → String
  | connection message => "Connection failed: " ++ message
  | serialization message => "Serialization error: " ++ message
  | notFound message => "Not found: " ++ message
  | io message => "I/O error: " ++ message
  | backend message => "Backend error: " ++ message
  | versionMismatch stored configured =>
    s!"vector store embedder mismatch: stored={stored}, configured={configured}. " ++
      "Run clear_cache to discard and rebuild."

namespace Rows

/-- The groups of `n` values, as many as are full. -/
def groups {F : Type} (n : ℕ) (values : List F) : List (List F) :=
  (List.range (values.length / n)).map fun i ↦ (values.drop (i * n)).take n

/-- Of Arrow and `serde_json`, what a batch is made with. -/
structure Library (F : Type) where
  /-- `FixedSizeListArray::try_new`, without nulls. -/
  fixedSizeList : ℤ → List F → Except String (List (List F))
  /-- `serde_json::to_string` -/
  toJson : CodeChunk → Except String String
  /-- `ChunkId::to_string` -/
  idText : ChunkId → String

/-- What Arrow documents of a fixed-size list: consecutive groups of the buffer, which must be of a
multiple of the size; nothing in groups of size zero; and no negative size. -/
structure Library.Documented {F : Type} (library : Library F) : Prop where
  groups : ∀ {n : ℕ} (values : List F), 0 < n → n ∣ values.length →
    library.fixedSizeList n values = .ok (groups n values)
  incomplete : ∀ {n : ℕ} (values : List F), 0 < n → ¬ n ∣ values.length →
    ∃ e, library.fixedSizeList n values = .error e
  zero : library.fixedSizeList 0 [] = .ok []
  degenerate : ∀ values, values ≠ [] → ∃ e, library.fixedSizeList 0 values = .error e
  negative : ∀ {size : ℤ} (values : List F), size < 0 →
    ∃ e, library.fixedSizeList size values = .error e

/-- The groups of a buffer, as Arrow documents them. -/
def fixedSizeList {F : Type} (size : ℤ) (values : List F) :
    Except String (List (List F)) :=
  if size < 0 then .error "Size cannot be negative"
  else if size = 0 then if values.isEmpty then .ok [] else .error "too many values"
  else if size.toNat ∣ values.length then .ok (groups size.toNat values)
  else .error "Incorrect length of values buffer"

/-- A length as the `i32` that Arrow takes. -/
def asI32 (n : ℕ) : ℤ :=
  (n : ℤ).bmod (2 ^ 32)

/-- The column of the vectors. -/
def vectorColumn {F : Type} (fixedSizeList : ℤ → List F → Except String (List (List F)))
    (size : ℤ) (embeddings : List (List F)) : Except VectorStoreError (List (List F)) :=
  (fixedSizeList size embeddings.flatten).mapError fun e ↦
    .serialization s!"Failed to create vector array: {e}"

/-- A row of the table: an id, a vector and a chunk as text. -/
structure Row (F : Type) where
  id : String
  vector : List F
  chunkJson : String
  filePath : String
  symbolKind : String
  modulePath : String
  deriving DecidableEq

/-- The columns of a batch. -/
structure Columns (F : Type) where
  ids : List String
  vectors : List (List F)
  chunkJsons : List String
  filePaths : List String
  symbolKinds : List String
  modulePaths : List String

/-- Why a record batch is refused. -/
def UNEQUAL_COLUMNS : String :=
  "Invalid argument error: all columns in a record batch must have the same length"

/-- `RecordBatch::try_new`: the columns have one length. -/
def Columns.tryNew {F : Type} (c : Columns F) : Except String (Columns F) :=
  if ∀ n ∈ [c.vectors.length, c.chunkJsons.length, c.filePaths.length, c.symbolKinds.length,
      c.modulePaths.length], n = c.ids.length then .ok c
  else .error UNEQUAL_COLUMNS

/-- The rows of a batch. -/
def Columns.rows {F : Type} (c : Columns F) : List (Row F) :=
  (((((c.ids.zip c.vectors).zip c.chunkJsons).zip c.filePaths).zip c.symbolKinds).zip
    c.modulePaths).map fun (((((id, vector), chunkJson), filePath), symbolKind), modulePath) ↦
      { id, vector, chunkJson, filePath, symbolKind, modulePath }

/-- What a batch is made with. -/
structure Backend (F : Type) where
  library : Library F
  vectorDim : ℕ

variable {F : Type} {backend : Backend F}

/-- `vector_dim as i32` -/
def Backend.size (backend : Backend F) : ℤ :=
  asI32 backend.vectorDim

/-- An id, its embedding and its chunk. -/
structure Entry (F : Type) where
  id : ChunkId
  embedding : List F
  chunk : CodeChunk

/-- The loop over the chunks fails at the first that cannot be serialized. -/
def jsons (library : Library F) (chunks : List (Entry F)) : Except VectorStoreError (List String) :=
  chunks.mapM fun entry ↦ (library.toJson entry.chunk).mapError fun e ↦
    .serialization s!"Failed to serialize chunk: {e}"

/-- The columns of a batch, or why there are none. -/
def chunksToBatch (backend : Backend F) (chunks : List (Entry F)) :
    Except VectorStoreError (Columns F) := do
  let chunkJsons ← jsons backend.library chunks
  let vectors ← vectorColumn backend.library.fixedSizeList backend.size
    (chunks.map Entry.embedding)
  Columns.tryNew {
      ids := chunks.map fun entry ↦ backend.library.idText entry.id
      vectors, chunkJsons
      filePaths := chunks.map fun entry ↦ entry.chunk.context.filePath.display
      symbolKinds := chunks.map fun entry ↦ entry.chunk.context.symbolKind
      modulePaths := chunks.map fun entry ↦ "::".intercalate entry.chunk.context.modulePath }
    |>.mapError fun e ↦ .backend s!"Failed to create batch: {e}"

/-- What the database answers: whether the table opens, and whether a batch can be appended, which
is done as a whole or not at all. -/
structure Database where
  openTable : Except String Unit
  add : Except String Unit

/-- `insert_chunks`, on the rows of the table. -/
def insertChunks (backend : Backend F) (database : Database) (chunks : List (Entry F))
    (table : List (Row F)) : Except VectorStoreError Unit × List (Row F) :=
  if chunks.isEmpty then (.ok (), table)
  else
    match database.openTable with
    | .error e => (.error (.notFound s!"Table not found: {e}"), table)
    | .ok () =>
      match chunksToBatch backend chunks with
      | .error e => (.error e, table)
      | .ok batch =>
        match database.add with
        | .error e => (.error (.backend s!"Failed to insert chunks: {e}"), table)
        | .ok () => (.ok (), table ++ batch.rows)

/-- A row holds an id, a chunk and all of the chunk's embedding. -/
structure RowOf (backend : Backend F) (entry : Entry F) (row : Row F) : Prop where
  id : row.id = backend.library.idText entry.id
  chunk : backend.library.toJson entry.chunk = .ok row.chunkJson
  filePath : row.filePath = entry.chunk.context.filePath.display
  symbolKind : row.symbolKind = entry.chunk.context.symbolKind
  modulePath : row.modulePath = "::".intercalate entry.chunk.context.modulePath
  vector : row.vector = entry.embedding
  dim : entry.embedding.length = backend.vectorDim

/-- An insertion fails and appends nothing, or it appends a row for each chunk. -/
def Stored (backend : Backend F) (chunks : List (Entry F)) (table : List (Row F))
    (result : Except VectorStoreError Unit × List (Row F)) : Prop :=
  (∃ e, result = (.error e, table)) ∨
    ∃ rows, result = (.ok (), table ++ rows) ∧ List.Forall₂ (RowOf backend) chunks rows

/-! ### Groups -/

theorem length_groups (n : ℕ) (values : List F) : (groups n values).length = values.length / n := by
  rw [groups, List.length_map, List.length_range]

/-- A buffer of parts of one length falls into them. -/
theorem groups_flatten {n : ℕ} (hpos : 0 < n) {parts : List (List F)}
    (h : ∀ part ∈ parts, part.length = n) : groups n parts.flatten = parts := by
  induction parts with
  | nil => simp [groups]
  | cons part rest ih =>
    obtain ⟨hpart, hrest⟩ := List.forall_mem_cons.1 h
    have hlength : (part :: rest).flatten.length / n = rest.flatten.length / n + 1 := by
      rw [List.flatten_cons, List.length_append, hpart, Nat.add_comm, Nat.add_div_right _ hpos]
    rw [groups, hlength, List.range_succ_eq_map, List.map_cons, List.map_map]
    refine congrArg₂ List.cons ?_ ?_
    · rw [Nat.zero_mul, List.drop_zero, List.flatten_cons, ← hpart, List.take_left]
    · refine Eq.trans (List.map_congr_left fun i _ ↦ ?_) (ih hrest)
      show (((part :: rest).flatten).drop ((i + 1) * n)).take n = _
      rw [List.flatten_cons, Nat.succ_mul, Nat.add_comm, ← List.drop_drop]
      have hdrop : (part ++ rest.flatten).drop n = rest.flatten := by
        rw [← hpart, List.drop_left]
      rw [hdrop]

/-- Where the components are as many as they should be, the size as an `i32` is the dimension. -/
theorem Backend.size_eq (backend : Backend F) {count : ℕ} (hcount : 0 < count)
    (h : count * backend.vectorDim = count * backend.size.toNat) :
    backend.size.toNat = backend.vectorDim :=
  (Nat.eq_of_mul_eq_mul_left hcount h).symm

/-! ### The columns -/

theorem jsons_ok_iff {library : Library F} {chunks : List (Entry F)} {texts : List String} :
    jsons library chunks = .ok texts ↔
      List.Forall₂ (fun entry text ↦ library.toJson entry.chunk = .ok text) chunks texts := by
  induction chunks generalizing texts with
  | nil =>
    rw [List.forall₂_nil_left_iff]
    exact ⟨fun h ↦ (Except.ok.inj h).symm, fun h ↦ congrArg Except.ok h.symm⟩
  | cons entry rest ih =>
    rw [List.forall₂_cons_left_iff, jsons, List.mapM_cons]
    rcases htext : library.toJson entry.chunk with e | text
    · refine iff_of_false nofun ?_
      rintro ⟨text, texts, htext', -⟩
      cases htext'
    · change (do let texts ← jsons library rest; pure (text :: texts)) = _ ↔ _
      rcases hrest : jsons library rest with e | more
      · refine iff_of_false nofun ?_
        rintro ⟨-, more, -, hmore, -⟩
        cases hrest.symm.trans (ih.2 hmore)
      · constructor
        · intro h
          obtain rfl := Except.ok.inj h
          exact ⟨text, more, rfl, ih.1 hrest, rfl⟩
        · rintro ⟨text', more', htext', hmore', rfl⟩
          obtain rfl := Except.ok.inj htext'
          obtain rfl := Except.ok.inj (hrest.symm.trans (ih.2 hmore'))
          rfl

/-- The columns of chunks with these vectors. -/
def columnsOf (library : Library F) (chunks : List (Entry F)) (vectors : List (List F))
    (chunkJsons : List String) : Columns F where
  ids := chunks.map fun entry ↦ library.idText entry.id
  vectors := vectors
  chunkJsons := chunkJsons
  filePaths := chunks.map fun entry ↦ entry.chunk.context.filePath.display
  symbolKinds := chunks.map fun entry ↦ entry.chunk.context.symbolKind
  modulePaths := chunks.map fun entry ↦ "::".intercalate entry.chunk.context.modulePath

theorem chunksToBatch_ok_iff {chunks : List (Entry F)} {batch : Columns F} :
    chunksToBatch backend chunks = .ok batch ↔ ∃ texts vectors,
      jsons backend.library chunks = .ok texts ∧
      backend.library.fixedSizeList backend.size (chunks.map Entry.embedding).flatten =
        .ok vectors ∧ vectors.length = chunks.length ∧
      batch = columnsOf backend.library chunks vectors texts := by
  unfold chunksToBatch vectorColumn
  rcases htexts : jsons backend.library chunks with e | texts
  · exact iff_of_false nofun fun ⟨_, _, h, _⟩ ↦ nomatch h
  · rcases hvectors : backend.library.fixedSizeList backend.size
        (chunks.map Entry.embedding).flatten with e | vectors
    · exact iff_of_false nofun fun ⟨_, _, _, h, _⟩ ↦ nomatch h
    · have hlength : texts.length = chunks.length := (jsons_ok_iff.1 htexts).length_eq.symm
      have hcolumns : (columnsOf backend.library chunks vectors texts).tryNew =
          if vectors.length = chunks.length then
            .ok (columnsOf backend.library chunks vectors texts)
          else .error UNEQUAL_COLUMNS := by
        simp [Columns.tryNew, columnsOf, hlength]
      change (columnsOf backend.library chunks vectors texts).tryNew.mapError _ = _ ↔ _
      rw [hcolumns]
      split_ifs with hrows
      · constructor
        · intro h
          exact ⟨texts, vectors, rfl, rfl, hrows, (Except.ok.inj h).symm⟩
        · rintro ⟨_, _, ⟨⟩, ⟨⟩, -, rfl⟩
          rfl
      · refine iff_of_false nofun ?_
        rintro ⟨_, _, ⟨⟩, ⟨⟩, h, -⟩
        exact hrows h

/-- Each chunk's own embedding makes its row. -/
theorem forall₂_rows {chunks : List (Entry F)} {texts : List String}
    (htexts : List.Forall₂ (fun entry text ↦ backend.library.toJson entry.chunk = .ok text)
      chunks texts)
    (hdim : ∀ entry ∈ chunks, entry.embedding.length = backend.vectorDim) :
    List.Forall₂ (RowOf backend) chunks
      (columnsOf backend.library chunks (chunks.map Entry.embedding) texts).rows := by
  induction htexts with
  | nil => exact .nil
  | @cons entry text rest texts htext _ ih =>
    obtain ⟨hentry, hrest⟩ := List.forall_mem_cons.1 hdim
    exact .cons ⟨rfl, htext, rfl, rfl, rfl, rfl, hentry⟩ (ih hrest)

/-- Rows of chunks tell that the embeddings have the right length. -/
theorem forall_dim {chunks : List (Entry F)} {rows : List (Row F)}
    (hrows : List.Forall₂ (RowOf backend) chunks rows) :
    ∀ entry ∈ chunks, entry.embedding.length = backend.vectorDim := by
  induction hrows with
  | nil => exact List.forall_mem_nil _
  | cons hrow _ ih => exact List.forall_mem_cons.2 ⟨hrow.dim, ih⟩

theorem length_flatten (chunks : List (Entry F)) :
    (chunks.map Entry.embedding).flatten.length =
      (chunks.map fun entry ↦ entry.embedding.length).sum := by
  rw [List.length_flatten, List.map_map]
  rfl

theorem sum_length {n : ℕ} {chunks : List (Entry F)}
    (h : ∀ entry ∈ chunks, entry.embedding.length = n) :
    (chunks.map fun entry ↦ entry.embedding.length).sum = chunks.length * n := by
  rw [List.map_congr_left h, List.map_const', List.sum_replicate_nat]

/-! ### When rows get their own vectors -/

/-- Whatever goes as far as the append has embeddings of the right length. -/
def Fits (backend : Backend F) (database : Database) (chunks : List (Entry F)) : Prop :=
  database.openTable = .ok () → database.add = .ok () →
    (∀ entry ∈ chunks, ∃ text, backend.library.toJson entry.chunk = .ok text) →
    0 < backend.size →
    (chunks.map fun entry ↦ entry.embedding.length).sum = chunks.length * backend.size.toNat →
    ∀ entry ∈ chunks, entry.embedding.length = backend.vectorDim

/-- The chunks are serialized if each of them is. -/
theorem exists_jsons_iff {library : Library F} {chunks : List (Entry F)} :
    (∃ texts, jsons library chunks = .ok texts) ↔
      ∀ entry ∈ chunks, ∃ text, library.toJson entry.chunk = .ok text := by
  simp only [jsons_ok_iff]
  induction chunks with
  | nil => exact iff_of_true ⟨[], .nil⟩ (List.forall_mem_nil _)
  | cons entry rest ih =>
    rw [List.forall_mem_cons, ← ih]
    constructor
    · rintro ⟨-, htext | htexts⟩
      exact ⟨⟨_, ‹_›⟩, _, ‹_›⟩
    · rintro ⟨⟨text, htext⟩, texts, htexts⟩
      exact ⟨text :: texts, .cons htext htexts⟩

/-- **When rows are stored with their own vectors.** An insertion fails or stores every chunk with
its own embedding, all of it, exactly if the embeddings have the right length as soon as everything
else is right: the table opens and takes the batch, every chunk can be serialized, and the
embeddings have together as many components as they should. -/
theorem insertChunks_iff {backend : Backend F} (hlibrary : backend.library.Documented)
    (database : Database) (chunks : List (Entry F)) (table : List (Row F)) :
    Stored backend chunks table (insertChunks backend database chunks table) ↔
      Fits backend database chunks := by
  constructor
  · intro hstored hopen hadd hjson hpos hcount
    rcases chunks with - | ⟨entry, rest⟩
    · nofun
    obtain ⟨texts, htexts⟩ := exists_jsons_iff.2 hjson
    have hdvd : backend.size.toNat ∣ ((entry :: rest).map Entry.embedding).flatten.length := by
      rw [length_flatten, hcount]
      exact Nat.dvd_mul_left _ _
    have hgroups := hlibrary.groups _ (Int.pos_iff_toNat_pos.1 hpos) hdvd
    rw [Int.toNat_of_nonneg (Int.le_of_lt hpos)] at hgroups
    have hlength : (groups backend.size.toNat
        ((entry :: rest).map Entry.embedding).flatten).length = (entry :: rest).length := by
      rw [length_groups, length_flatten, hcount, Nat.mul_div_cancel _
        (Int.pos_iff_toNat_pos.1 hpos)]
    have hbatch := chunksToBatch_ok_iff.2 ⟨texts, _, htexts, hgroups, hlength, rfl⟩
    have hresult : insertChunks backend database (entry :: rest) table = (.ok (), table ++
        (columnsOf backend.library (entry :: rest) (groups backend.size.toNat
          ((entry :: rest).map Entry.embedding).flatten) texts).rows) := by
      rw [insertChunks, hopen, hbatch, hadd]
      rfl
    rw [hresult] at hstored
    rcases hstored with ⟨e, h⟩ | ⟨rows, h, hrows⟩
    · cases h
    · exact forall_dim hrows
  · intro hfits
    unfold insertChunks
    split_ifs with hempty
    · obtain rfl := List.isEmpty_iff.1 hempty
      exact .inr ⟨[], by rw [List.append_nil], .nil⟩
    have hcount : 0 < chunks.length := List.length_pos_of_ne_nil fun h ↦ hempty (by rw [h]; rfl)
    rcases hopen : database.openTable with e | ⟨⟩
    · exact .inl ⟨_, rfl⟩
    rcases hbatch : chunksToBatch backend chunks with e | batch
    · exact .inl ⟨e, rfl⟩
    rcases hadd : database.add with e | ⟨⟩
    · exact .inl ⟨_, rfl⟩
    obtain ⟨texts, vectors, htexts, hvectors, hlength, rfl⟩ := chunksToBatch_ok_iff.1 hbatch
    refine .inr ⟨_, rfl, ?_⟩
    rcases Int.lt_trichotomy backend.size 0 with hneg | hzero | hpos
    · obtain ⟨e, he⟩ := hlibrary.negative (chunks.map Entry.embedding).flatten hneg
      cases he.symm.trans hvectors
    · rw [hzero] at hvectors
      by_cases hnil : (chunks.map Entry.embedding).flatten = []
      · rw [hnil, hlibrary.zero] at hvectors
        obtain rfl := Except.ok.inj hvectors
        exact absurd hlength (Nat.ne_of_lt hcount)
      · obtain ⟨e, he⟩ := hlibrary.degenerate _ hnil
        cases he.symm.trans hvectors
    · have hsizePos := Int.pos_iff_toNat_pos.1 hpos
      rw [← Int.toNat_of_nonneg (Int.le_of_lt hpos)] at hvectors
      by_cases hdvd : backend.size.toNat ∣ (chunks.map Entry.embedding).flatten.length
      swap
      · obtain ⟨e, he⟩ := hlibrary.incomplete _ hsizePos hdvd
        cases he.symm.trans hvectors
      obtain rfl := Except.ok.inj ((hlibrary.groups _ hsizePos hdvd).symm.trans hvectors)
      rw [length_groups] at hlength
      -- The buffer is as long as that many groups.
      have htotal := Nat.div_mul_cancel hdvd
      rw [hlength, length_flatten] at htotal
      have hdim := hfits hopen hadd (exists_jsons_iff.1 ⟨texts, htexts⟩) hpos htotal.symm
      rw [sum_length hdim] at htotal
      have hsize := backend.size_eq hcount htotal.symm
      have hparts : ∀ part ∈ chunks.map Entry.embedding, part.length = backend.size.toNat := by
        intro part hpart
        obtain ⟨entry, hmem, rfl⟩ := List.mem_map.1 hpart
        rw [hsize, hdim entry hmem]
      rw [groups_flatten hsizePos hparts]
      exact forall₂_rows (jsons_ok_iff.1 htexts) hdim

/-- A library over whole numbers, with chunks serialized as their text. -/
def plainLibrary : Library ℤ where
  fixedSizeList := fixedSizeList
  toJson chunk := .ok chunk.content
  idText id := toString id.uuid

theorem documented_plainLibrary : plainLibrary.Documented where
  groups {n} values hpos hdvd := by
    have hne : n ≠ 0 := Nat.ne_of_gt hpos
    simp [plainLibrary, fixedSizeList, hne, hdvd]
  incomplete {n} values hpos hdvd := by
    have hne : n ≠ 0 := Nat.ne_of_gt hpos
    exact ⟨"Incorrect length of values buffer", by simp [plainLibrary, fixedSizeList, hne, hdvd]⟩
  zero := rfl
  degenerate values hne := by simp [plainLibrary, fixedSizeList, hne]
  negative _ hneg := ⟨_, if_pos hneg⟩

/-- A chunk of a file, with this embedding. -/
def entryOf (uuid : ℕ) (name : String) (embedding : List ℤ) : Entry ℤ where
  id := ⟨uuid⟩
  embedding := embedding
  chunk := {
    id := ⟨uuid⟩
    content := "fn " ++ name ++ "() \x7b\x7d"
    context := {
      filePath := ["src", "lib.rs"], modulePath := ["crate"], symbolName := name
      symbolKind := "function", docstring := none, imports := [], outgoingCalls := []
      parentSymbolName := none, splitPart := none, splitTotal := none
      lineStart := 1, lineEnd := 1 } }

/-- A database that does what it is asked. -/
def willing : Database := ⟨.ok (), .ok ()⟩

theorem insertChunks_iff_pair :
    Stored ⟨plainLibrary, 2⟩ [entryOf 1 "f" [1, 2], entryOf 2 "g" [3, 4]] []
      (insertChunks ⟨plainLibrary, 2⟩ willing [entryOf 1 "f" [1, 2], entryOf 2 "g" [3, 4]] []) :=
  Iff.mpr (insertChunks_iff documented_plainLibrary willing _ []) fun _ _ _ _ _ ↦ by decide

/-- Embeddings of one and of three components make two rows of two: the first row gets a component
of the second chunk's embedding. -/
theorem shifted_rows :
    (insertChunks ⟨plainLibrary, 2⟩ willing [entryOf 1 "f" [1], entryOf 2 "g" [2, 3, 4]] []).2.map
        Row.vector = [[1, 2], [3, 4]] ∧
      ¬ Stored ⟨plainLibrary, 2⟩ [entryOf 1 "f" [1], entryOf 2 "g" [2, 3, 4]] []
        (insertChunks ⟨plainLibrary, 2⟩ willing
          [entryOf 1 "f" [1], entryOf 2 "g" [2, 3, 4]] []) := by
  have hrows : (insertChunks ⟨plainLibrary, 2⟩ willing
      [entryOf 1 "f" [1], entryOf 2 "g" [2, 3, 4]] []).2.map Row.vector = [[1, 2], [3, 4]] := by
    decide
  refine ⟨hrows, ?_⟩
  rintro (⟨e, h⟩ | ⟨rows, -, hstored⟩)
  · rw [h] at hrows
    cases hrows
  · exact absurd (forall_dim hstored) (by decide)

end Rows

end RustCodeMcp
