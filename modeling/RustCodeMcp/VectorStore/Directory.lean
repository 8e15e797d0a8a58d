import RustCodeMcp.Codec.Format
import RustCodeMcp.Effect.Execution
import RustCodeMcp.VectorStore.Rows

/-!
# The directory of a vector store

A LanceDB table with `metadata.json` beside it, which says which embedder the vectors in the table
came from. Opening a store and inserting into it are programs over the calls below; what is written
to `metadata.json` is written in place.

A row says through which backend it was inserted, and a backend with which identity it was opened.
Neither is stored: they are what the stamp is about.

A file that is written in place can be left half written, and `metadata.json` is the only one here
(`Cut`): everything else is a call of the database, which is done or not. Rows are never compared
with the stamp; a backend compares its identity with it once, when it is opened.
-/

namespace RustCodeMcp

/-- Which embedder produced the vectors. -/
structure VectorStoreMetadata where
  embedderVersion : String
  createdAt : String
  deriving DecidableEq

/-- What `metadata.json` is written and read with. -/
abbrev MetadataFormat (Byte : Type) : Type :=
  Format Byte String VectorStoreMetadata

/-- `serde_json`, on strings without control characters. -/
def metadataJson : MetadataFormat Char :=
  let string := Delimited.quoted '"' '\\' (by decide)
  let fields := (Delimited.literal "\x7b\n  \"embedder_version\": ".toList).seq <| string.seq <|
    (Delimited.literal ",\n  \"created_at\": ".toList).seq <| string.seq <|
      Delimited.literal "\n\x7d".toList
  let metadata := fields.map
    (fun ((), embedderVersion, (), createdAt, ()) ↦ ⟨.ofList embedderVersion, .ofList createdAt⟩)
    (fun metadata ↦ ((), metadata.embedderVersion.toList, (), metadata.createdAt.toList, ()))
    (fun metadata ↦ by
      show (⟨.ofList metadata.embedderVersion.toList, .ofList metadata.createdAt.toList⟩ :
        VectorStoreMetadata) = metadata
      rw [String.ofList_toList, String.ofList_toList])
  metadata.format "invalid JSON"

namespace LanceDb

/-- The name of the table. -/
def TABLE_NAME : String := "vectors"

/-- The columns that have an index. -/
def SCALAR_INDEX_COLUMNS : List String := ["id", "file_path"]

/-- A chunk, and the identity it was inserted through. -/
structure Row (Chunk : Type) where
  /-- The identity with which the backend was opened that inserted it. -/
  through : String
  vector : List Float32
  chunk : Chunk

/-- The rows, and the columns with an index. -/
structure Table (Chunk : Type) where
  vectorDim : ℕ
  rows : List (Row Chunk)
  /-- The columns with an index. -/
  indices : List String

/-- What is in a directory. -/
structure Directory (Byte Chunk : Type) where
  isDir : Bool
  metadata : Option (List Byte)
  /-- Whether the table is listed. -/
  listed : Bool
  /-- The table, if it can be opened. -/
  table : Option (Table Chunk)

/-- What is asked of the file system and of the database. -/
inductive Call (Byte Chunk : Type)
  | createDirAll
  | isDir
  | connect
  | tableNames
  | createTable (vectorDim : ℕ)
  | createIndex (column : String)
  | openTable
  | add (vectorDim : ℕ) (rows : List (Row Chunk))
  | metadataExists
  | readMetadata
  | writeMetadata (bytes : List Byte)

variable {Byte Chunk : Type}

/-- What a call answers. -/
@[reducible] def Call.Ret : Call Byte Chunk → Type
  | isDir | metadataExists => Bool
  | tableNames => List String
  | readMetadata => List Byte
  | _ => Unit

/-- A program over the calls. -/
abbrev Prog (Byte Chunk α : Type) : Type :=
  Effect.Prog VectorStoreError (Call Byte Chunk) Call.Ret α

/-! ### What the calls do -/

/-- The calls, when nothing fails. -/
def answer : Effect.Handler VectorStoreError (@Call.Ret Byte Chunk) (Directory Byte Chunk)
  | .createDirAll, d => (.ok (), { d with isDir := true })
  | .isDir, d => (.ok d.isDir, d)
  | .connect, d => (.ok (), d)
  | .tableNames, d => (.ok (if d.listed then [TABLE_NAME] else []), d)
  | .createTable vectorDim, d =>
    if d.listed then (.error (.io s!"Table '{TABLE_NAME}' already exists"), d)
    else (.ok (), { d with listed := true, table := some ⟨vectorDim, [], []⟩ })
  | .createIndex column, d =>
    match d.table with
    | none => (.error (.io s!"Table '{TABLE_NAME}' was not found"), d)
    | some table =>
    (.ok (), { d with table := some { table with indices := table.indices ++ [column] } })
  | .openTable, d =>
    if d.table.isSome then (.ok (), d) else (.error (.io s!"Table '{TABLE_NAME}' was not found"), d)
  | .add vectorDim rows, d =>
    match d.table with
    | none => (.error (.io s!"Table '{TABLE_NAME}' was not found"), d)
    | some table =>
      if table.vectorDim = vectorDim then
        (.ok (), { d with table := some { table with rows := table.rows ++ rows } })
      else (.error (.io "the schemas of the batch and the table differ"), d)
  | .metadataExists, d => (.ok d.metadata.isSome, d)
  | .readMetadata, d =>
    match d.metadata with
    | none => (.error (.io "No such file or directory"), d)
    | some bytes => (.ok bytes, d)
  | .writeMetadata bytes, d => (.ok (), { d with metadata := some bytes })

/-- What a call that is cut off may leave behind: a beginning of the file that was written, a table
that is listed and cannot be opened. -/
inductive Cut : Call Byte Chunk → Directory Byte Chunk → Directory Byte Chunk → Prop
  | nothing (o : Call Byte Chunk) (d) : Cut o d d
  | written (bytes beginning : List Byte) (d) (h : beginning <+: bytes) :
    Cut (.writeMetadata bytes) d { d with metadata := some beginning }
  | created (vectorDim : ℕ) (d) : Cut (.createTable vectorDim) d { d with listed := true }

/-- The calls, where any may fail or be cut off. -/
def outcomes : Effect.Outcomes VectorStoreError (@Call.Ret Byte Chunk) (Directory Byte Chunk) :=
  fun o d r d' ↦ answer o d = (r, d') ∨ (∃ e, r = .error e) ∧ Cut o d d'

/-! ### Programs -/

/-- Make a call, its error worded. -/
def attempting (o : Call Byte Chunk) (error : String → VectorStoreError) (what : String) :
    Prog Byte Chunk o.Ret :=
  (Effect.Prog.perform o).mapError fun e ↦ error (what ++ e.display)

section Programs

variable (format : MetadataFormat Byte) (path : String)

/-- `metadata_path`, printed. -/
def metadataPath : String := path ++ "/metadata.json"

/-- What `metadata.json` says, if it is there. -/
def readMetadata : Prog Byte Chunk (Option VectorStoreMetadata) := do
  if ← Effect.Prog.perform .metadataExists then
    let bytes ← attempting .readMetadata .backend
      s!"failed to read vector store metadata at {metadataPath path}: "
    match format.read bytes with
    | .ok parsed => return some parsed
    | .error e =>
      .fail (.serialization s!"failed to parse vector store metadata at {metadataPath path}: {e}")
  else return none

/-- `now` is the clock, in seconds, unless it stands before the epoch. -/
def writeMetadataIfMissing (embedderIdentity : String) (now : Option ℕ) : Prog Byte Chunk Unit := do
  if ← Effect.Prog.perform .metadataExists then return ()
  else
    let createdAt := match now with
      | some secs => s!"unix:{secs}"
      | none => "unix:0"
    attempting (.writeMetadata (format.write ⟨embedderIdentity, createdAt⟩)) .backend
      s!"failed to write vector store metadata at {metadataPath path}: "

/-- Make the table, unless it is there, and its indexes. -/
def ensureTableExists (vectorDim : ℕ) : Prog Byte Chunk Unit := do
  let tables ← attempting .tableNames .backend "Failed to list tables: "
  if tables.contains TABLE_NAME then return ()
  else
    attempting (.createTable vectorDim) .backend "Failed to create table: "
    Effect.Prog.forEach (fun column ↦
      attempting (.createIndex column) .backend s!"Failed to create {column} index: ")
      SCALAR_INDEX_COLUMNS

/-- `LanceDbBackend` -/
structure Backend where
  vectorDim : ℕ
  /-- The identity with which it was opened. -/
  embedderIdentity : String
  deriving DecidableEq

/-- `LanceDbBackend::new` -/
def new (vectorDim : ℕ) (embedderIdentity : String) (now : Option ℕ) : Prog Byte Chunk Backend := do
  attempting .createDirAll .connection "Failed to create directory: "
  attempting .connect .connection "Failed to connect: "
  -- The table first: a directory left halfway has no metadata without a table.
  ensureTableExists vectorDim
  match ← readMetadata format path with
  | some metadata =>
    if metadata.embedderVersion ≠ embedderIdentity then
      .fail (.versionMismatch metadata.embedderVersion embedderIdentity)
    else return ⟨vectorDim, embedderIdentity⟩
  | none =>
    writeMetadataIfMissing format path embedderIdentity now
    return ⟨vectorDim, embedderIdentity⟩

/-- `LanceDbBackend::open_existing` -/
def openExisting (vectorDim : ℕ) (embedderIdentity : String) : Prog Byte Chunk Backend := do
  if ← Effect.Prog.perform .isDir then
    match ← readMetadata format path with
    | none =>
      .fail (.notFound s!"vector store metadata does not exist: {metadataPath path}")
    | some metadata =>
      if metadata.embedderVersion ≠ embedderIdentity then
        .fail (.versionMismatch metadata.embedderVersion embedderIdentity)
      else
        attempting .connect .connection "Failed to connect: "
        let tables ← attempting .tableNames .backend "Failed to list tables: "
        if tables.contains TABLE_NAME then
          attempting .openTable .notFound "Table not found: "
          return ⟨vectorDim, embedderIdentity⟩
        else .fail (.notFound s!"vector table does not exist: {TABLE_NAME}")
  else .fail (.notFound s!"vector store directory does not exist: {path}")

/-- The rows of a batch, with the vectors that the fixed-size list has cut for them. -/
def Backend.chunksToBatch (backend : Backend) (chunks : List (List Float32 × Chunk)) :
    Except VectorStoreError (List (Row Chunk)) := do
  let vectors ← Rows.vectorColumn Rows.fixedSizeList (Rows.asI32 backend.vectorDim)
    (chunks.map Prod.fst)
  if vectors.length = chunks.length then
    .ok ((vectors.zip chunks).map fun (vector, _, chunk) ↦
      { through := backend.embedderIdentity, vector, chunk })
  else .error (.backend s!"Failed to create batch: {Rows.UNEQUAL_COLUMNS}")

/-- Append a batch to the table. -/
def Backend.insertChunks (backend : Backend) (chunks : List (List Float32 × Chunk)) :
    Prog Byte Chunk Unit :=
  if chunks.isEmpty then return ()
  else do
    attempting .openTable .notFound "Table not found: "
    match backend.chunksToBatch chunks with
    | .error e => .fail e
    | .ok batch => attempting (.add backend.vectorDim batch) .backend "Failed to insert chunks: "

end Programs

end LanceDb

end RustCodeMcp
