import RustCodeMcp.Effect.Program
import RustCodeMcp.Indexing.Error
import RustCodeMcp.Indexing.Merkle

/-!
# What an indexing run reads and writes

The world of one index: the project's files on disk, the Merkle snapshot, the metadata cache, the
vector table and the BM25 index, with the operations that the run's writer has queued on it and not
committed. A run is a program over the calls below (`Call`); `World.handle` carries each of them
out, one atomic step a call.

What the project takes from third parties is an `Env`: the path patterns and secret patterns of the
filters, the parser and chunker as one function from a file's text to its chunks, the embedder, the
digest, and the two orders nobody promises (of a hash map's keys and of a table scan's batches). An
`Env` carries the laws these keep as fields.

Every call can fail, and answers an `Except` then; `World.handle` is the handler under which it
fails only for a reason of its own (a file that is not there, a row under a wrong key). Disturbances
are not part of it: failures at will, edits between calls and a stop at any call are other handlers
and relations over the same calls, and they are stated where they are needed.

Below the handler every call has its run as a simp lemma. Programs are evaluated by these, so that
no proof elsewhere unfolds the handler.
-/

namespace RustCodeMcp

open Effect

/-! ### Files -/

/-- A source file on disk. -/
structure FileEntry where
  /-- Its bytes. -/
  bytes : ByteArray
  /-- Time of last modification, in nanoseconds since the epoch. -/
  modified : ℕ

/-- A tree with one file. -/
def oneFile (path : PathBuf) (text : String) (modified : ℕ) : PathMap FileEntry :=
  AList.insert path ⟨text.toUTF8, modified⟩ ∅

/-- Its file is the one with this text. -/
theorem lookup_oneFile {path : PathBuf} {text : String} {modified : ℕ} :
    (oneFile path text modified).lookup path = some ⟨text.toUTF8, modified⟩ := by
  rw [oneFile, AList.lookup_insert]

/-- Nothing else is there. -/
theorem lookup_oneFile_of_ne {path p : PathBuf} {text : String} {modified : ℕ} (h : p ≠ path) :
    (oneFile path text modified).lookup p = none := by
  rw [oneFile, AList.lookup_insert_ne h, AList.lookup_empty]

/-- What `std::fs::metadata` tells of a file. -/
structure Metadata where
  /-- Time of last modification, in nanoseconds since the epoch. -/
  modified : ℕ
  /-- Length in bytes. -/
  len : ℕ

/-- The metadata of a file on disk. -/
def FileEntry.metadata (file : FileEntry) : Metadata := ⟨file.modified, file.bytes.size⟩

/-- Stat information for fast change detection: whole seconds and a size. -/
structure FileStat where
  /-- Seconds of last modification. -/
  lastModified : ℕ
  /-- Size in bytes. -/
  size : ℕ
  deriving DecidableEq

/-- The stat of a file, from its metadata. -/
def Metadata.stat (metadata : Metadata) : FileStat :=
  ⟨metadata.modified / 1000000000, metadata.len⟩

/-- What the metadata cache records of an indexed file. -/
structure FileMetadata (D : Type) where
  /-- Hash of the text the chunks were cut from. -/
  hash : D
  /-- Seconds of last modification. -/
  lastModified : ℕ
  /-- Size in bytes. -/
  size : ℕ

/-- The stat on record. -/
def FileMetadata.stat {D : Type} (metadata : FileMetadata D) : FileStat :=
  ⟨metadata.lastModified, metadata.size⟩

/-! ### Stores -/

/-- An embedding vector, as the bits of its floats. -/
abbrev Embedding := List UInt32

/-- A row of the vector table. -/
structure Row where
  /-- The key the row is looked up by. -/
  id : ChunkId
  /-- Its vector. -/
  embedding : Embedding
  /-- The stored chunk, which carries its own copy of the key. -/
  chunk : CodeChunk

/-- The file a row belongs to. -/
def Row.filePath (row : Row) : PathBuf := row.chunk.context.filePath

/-- A document of the BM25 index. -/
structure Document where
  chunkId : ChunkId
  content : String
  symbolName : String
  filePath : PathBuf
  docstring : Option String
  deriving DecidableEq

/-- The document of a chunk — the only place where a chunk becomes one. -/
def document (chunk : CodeChunk) : Document where
  chunkId := chunk.id
  content := chunk.content
  symbolName := chunk.context.symbolName
  filePath := chunk.context.filePath
  docstring := chunk.context.docstring

/-- An operation queued on the BM25 writer. -/
inductive WriterOp
  /-- Add a document. -/
  | addDocument (document : Document)
  /-- Delete the documents of a file added before. -/
  | deleteFile (path : PathBuf)

/-- The effect of a queued operation on the documents. -/
def WriterOp.apply (documents : List Document) : WriterOp → List Document
  | addDocument document => documents ++ [document]
  | deleteFile path => documents.filter fun document ↦ document.filePath ≠ path

/-- A BM25 index and its writer. -/
structure TantivyIndex where
  /-- The live documents of the last commit: what readers see. -/
  committed : List Document
  /-- Operations queued since, in order. -/
  pending : List WriterOp

/-- The documents a commit would leave. -/
def TantivyIndex.current (index : TantivyIndex) : List Document :=
  index.pending.foldl WriterOp.apply index.committed

/-! ### Third parties -/

/-- What the project takes from third parties. -/
structure Env (D : Type) where
  /-- `SensitiveFileFilter::should_index`: no excluded pattern matches the path. -/
  shouldIndex : PathBuf → Bool
  /-- Largest size of a file to process, in bytes. -/
  maxFileSize : ℕ
  /-- `SecretsScanner::should_exclude`: some secret pattern matches the text. -/
  shouldExclude : String → Bool
  /-- The chunks of a file's text — parsed, cut by symbol, oversized ones split — or the parser's
  error. -/
  chunkSource : PathBuf → String → Except String (List ChunkBody)
  /-- Every chunk names the file it was cut from. -/
  filePath_of_mem : ∀ {path text bodies}, chunkSource path text = .ok bodies →
    ∀ body ∈ bodies, body.context.filePath = path
  /-- The vector of a chunk. -/
  embed : CodeChunk → Embedding
  /-- SHA-256. -/
  sha256 : ByteArray → D
  /-- The digest of two digests side by side. -/
  combine : D → D → D
  /-- How many files the free memory allows to parse at once. -/
  safeBatchSize : ℕ
  safeBatchSize_pos : 0 < safeBatchSize
  /-- The order in which a hash map yields its keys. -/
  hashOrder : List PathBuf → List PathBuf
  hashOrder_perm : ∀ keys, (hashOrder keys).Perm keys
  /-- The record batches a scan of the vector table yields. -/
  recordBatches : List Row → List (List Row)
  flatten_recordBatches : ∀ rows, (recordBatches rows).flatten.Perm rows

instance decidableEqByteArray : DecidableEq ByteArray := fun a b ↦
  decidable_of_iff (a.data = b.data) ByteArray.ext_iff.symm

deriving instance DecidableEq for FileEntry

/-- An environment small enough to compute with. A text that is not empty is a line of code that
defines one function, under a name of one letter; the digest of a text is the text. -/
def Env.sample : Env ByteArray where
  shouldIndex _ := true
  maxFileSize := 16
  shouldExclude _ := false
  chunkSource path text := .ok (if text.isEmpty then [] else [⟨text, {
    filePath := path
    modulePath := []
    symbolName := String.ofList ((text.toList.drop 3).take 1)
    symbolKind := "function"
    docstring := none
    imports := []
    outgoingCalls := []
    parentSymbolName := none
    splitPart := none
    splitTotal := none
    lineStart := 1
    lineEnd := 1 }⟩])
  filePath_of_mem := by
    intro path text bodies h body hbody
    cases h
    split at hbody
    · simp at hbody
    · rw [List.mem_singleton.1 hbody]
  embed _ := []
  sha256 := id
  combine left right := left ++ right
  safeBatchSize := 1
  safeBatchSize_pos := Nat.one_pos
  hashOrder := id
  hashOrder_perm _ := List.Perm.refl _
  recordBatches rows := [rows]
  flatten_recordBatches rows := by simp

/-! ### The world and its calls -/

/-- The state of one index and of the project it is about. -/
structure World (D : Type) where
  /-- The project's source files, as the walk finds them. -/
  tree : PathMap FileEntry
  /-- How many entries the walk cannot read. -/
  walkErrors : ℕ
  /-- The stored Merkle snapshot. -/
  snapshot : Option (MerkleSnapshot D)
  /-- The metadata cache, under the salt of this index. -/
  cache : PathMap (FileMetadata D)
  /-- The rows of the vector table. -/
  vectors : List Row
  /-- The BM25 index. -/
  bm25 : TantivyIndex
  /-- Whether the running indexer has brought its stores up. -/
  opened : Bool
  /-- The next chunk identifier. -/
  nextId : ℕ
  /-- Whether the run holds the workspace's operation lock for write. -/
  readersOut : Bool

/-- A world with these files in which nothing has been indexed. -/
def World.fresh {D : Type} (tree : PathMap FileEntry) : World D where
  tree
  walkErrors := 0
  snapshot := none
  cache := ∅
  vectors := []
  bm25 := ⟨[], []⟩
  opened := false
  nextId := 0
  readersOut := false

/-- One step of an indexing run that its surroundings carry out. -/
inductive Call (D : Type)
  /-- Probe for free disk space; refuses a write below the threshold. -/
  | ensureDiskHeadroom
  /-- Walk the project: its source files, and the number of unreadable entries. -/
  | walk
  | read (path : PathBuf)
  | metadata (path : PathBuf)
  | loadSnapshot
  | saveSnapshot (snapshot : MerkleSnapshot D)
  | removeSnapshot
  | cacheGet (path : PathBuf)
  | cacheInsert (path : PathBuf) (metadata : FileMetadata D)
  | cacheRemove (path : PathBuf)
  | cacheKeys
  /-- Parse, chunk and split a file's text; every chunk gets a fresh identifier. -/
  | chunkSource (path : PathBuf) (text : String)
  | embed (chunks : List CodeChunk)
  | safeBatchSize
  | addDocument (document : Document)
  | deleteFile (path : PathBuf)
  | commit
  /-- Live documents of the last commit. -/
  | numDocs
  | deleteByFilePaths (paths : List PathBuf)
  /-- Append rows to the vector table. -/
  | insertRows (rows : List Row)
  | countRows
  /-- Open a scan of the vector table: its record batches. -/
  | scan
  /-- Read and decode one record batch. -/
  | decodeBatch (batch : List Row)
  | indexedFilePaths
  /-- A fresh incremental indexer: none of its stores is up. -/
  | newIndexer
  /-- Open a BM25 writer: nothing is queued on it. -/
  | openWriter
  | isOpened
  | setOpened
  /-- Take the operation lock for write, waiting for the readers inside. -/
  | excludeReaders
  | admitReaders

/-- What a call answers when it succeeds. -/
abbrev Call.Ret {D : Type} : Call D → Type
  | walk => List PathBuf × ℕ
  | read _ => ByteArray
  | metadata _ => Metadata
  | loadSnapshot => Option (MerkleSnapshot D)
  | cacheGet _ => Option (FileMetadata D)
  | cacheKeys | indexedFilePaths => List PathBuf
  | chunkSource _ _ | decodeBatch _ => List CodeChunk
  | embed chunks => { embeddings : List Embedding // embeddings.length = chunks.length }
  | safeBatchSize | numDocs | countRows => ℕ
  | scan => List (List Row)
  | isOpened => Bool
  | _ => Unit

/-- An indexing program: its errors are their texts. -/
abbrev Task (D : Type) := Prog String (Call D) Call.Ret

/-- Have a call carried out. -/
def request {D : Type} (call : Call D) : Task D call.Ret := .perform call

/-- Report an error of `task` as an indexing error. -/
def failingAs {D α : Type} (kind : String → IndexingError) (task : Task D α) : Task D α :=
  task.mapError fun e ↦ (kind e).display

/-! ### Calls by name -/

section Calls

variable {D : Type}

/-- Probe for room on the disk before a write. -/
def ensureIndexDiskHeadroom : Task D Unit := request .ensureDiskHeadroom

/-- The source files of the project, and how many entries could not be read. -/
def collectProjectRustFiles : Task D (List PathBuf × ℕ) := request .walk

/-- Read the bytes of a file. -/
def fsRead (path : PathBuf) : Task D ByteArray := request (.read path)

/-- Ask for the metadata of a file. -/
def fsMetadata (path : PathBuf) : Task D Metadata := request (.metadata path)

/-- The stored Merkle snapshot, if there is one. -/
def loadSnapshot : Task D (Option (MerkleSnapshot D)) := request .loadSnapshot

/-- Store a Merkle snapshot in place of the last one. -/
def saveSnapshot (snapshot : MerkleSnapshot D) : Task D Unit := request (.saveSnapshot snapshot)

/-- Remove the stored Merkle snapshot. -/
def removeSnapshot : Task D Unit := request .removeSnapshot

/-- What the metadata cache has on record for a path. -/
def cacheGet (path : PathBuf) : Task D (Option (FileMetadata D)) := request (.cacheGet path)

/-- Put a file on record in the metadata cache. -/
def cacheSet (path : PathBuf) (metadata : FileMetadata D) :
    Task D Unit :=
  request (.cacheInsert path metadata)

/-- Take a path off the metadata cache. -/
def cacheRemove (path : PathBuf) : Task D Unit := request (.cacheRemove path)

/-- The paths on record in the metadata cache. -/
def cacheListFiles : Task D (List PathBuf) := request .cacheKeys

/-- Parse a file's text and cut it into chunks. -/
def parseAndChunk (path : PathBuf) (text : String) :
    Task D (List CodeChunk) :=
  request (.chunkSource path text)

/-- One vector for each chunk. -/
def embedChunks (chunks : List CodeChunk) :
    Task D { embeddings : List Embedding // embeddings.length = chunks.length } :=
  request (.embed chunks)

/-- How many files a batch of a full pass may have. -/
def calculateSafeBatchSize : Task D ℕ := request .safeBatchSize

/-- Queue a document on the BM25 writer. -/
def addDocument (document : Document) : Task D Unit := request (.addDocument document)

/-- Queue the deletion of a file's documents on the BM25 writer. -/
def deleteFileChunks (path : PathBuf) : Task D Unit := request (.deleteFile path)

/-- Make what is queued visible. -/
def commitWriter : Task D Unit := request .commit

/-- The number of documents that are visible. -/
def committedDocCount : Task D ℕ := request .numDocs

/-- Delete the rows of these files from the vector table. -/
def deleteByFilePaths (paths : List PathBuf) : Task D Unit := request (.deleteByFilePaths paths)

/-- Append rows to the vector table. -/
def insertRows (rows : List Row) : Task D Unit := request (.insertRows rows)

/-- The number of rows. -/
def countRows : Task D ℕ := request .countRows

/-- Open a scan of the vector table. -/
def scanBatches : Task D (List (List Row)) := request .scan

/-- Read the chunks of one record batch. -/
def decodeBatch (batch : List Row) : Task D (List CodeChunk) := request (.decodeBatch batch)

/-- The paths that have rows, each once. -/
def indexedFilePaths : Task D (List PathBuf) := request .indexedFilePaths

/-- Start a fresh incremental indexer. -/
def newIndexer : Task D Unit := request .newIndexer

/-- Open a BM25 writer. -/
def openWriter : Task D Unit := request .openWriter

/-- Whether the indexer has brought its stores up. -/
def isOpened : Task D Bool := request .isOpened

/-- Note that it has. -/
def setOpened : Task D Unit := request .setOpened

/-- Take the operation lock for write. -/
def excludeReaders : Task D Unit := request .excludeReaders

/-- Let go of the operation lock. -/
def admitReaders : Task D Unit := request .admitReaders

end Calls

/-! ### Carrying calls out -/

/-- Chunk bodies under fresh identifiers, counted up from `next`. -/
def withIds (next : ℕ) (bodies : List ChunkBody) : List CodeChunk :=
  bodies.mapIdx fun i body ↦ ⟨⟨next + i⟩, body.content, body.context⟩

/-- The chunks of a record batch; a row whose key is not its chunk's is refused. -/
def decodeChunkRows (batch : List Row) : Except String (List CodeChunk) :=
  batch.mapM fun row ↦
    if row.chunk.id ≠ row.id then
      .error ("row " ++ toString row.id.uuid ++ " holds the chunk of " ++
        toString row.chunk.id.uuid)
    else .ok row.chunk

namespace World

variable {D : Type}

/-- Look a file up as the file system does. -/
def open? (w : World D) (path : PathBuf) : Except String FileEntry :=
  match w.tree.lookup path with
  | some file => .ok file
  | none => .error "No such file or directory (os error 2)"

/-- Carry a call out. Each is one atomic step: it takes effect as a whole, or answers an error and
changes nothing. -/
def handle (env : Env D) : (call : Call D) → World D → Except String call.Ret × World D
  | .ensureDiskHeadroom, w => (.ok (), w)
  | .walk, w => (.ok (w.tree.keys, w.walkErrors), w)
  | .read path, w => ((w.open? path).map FileEntry.bytes, w)
  | .metadata path, w => ((w.open? path).map FileEntry.metadata, w)
  | .loadSnapshot, w => (.ok w.snapshot, w)
  | .saveSnapshot snapshot, w => (.ok (), { w with snapshot := some snapshot })
  | .removeSnapshot, w => (.ok (), { w with snapshot := none })
  | .cacheGet path, w => (.ok (w.cache.lookup path), w)
  | .cacheInsert path metadata, w => (.ok (), { w with cache := w.cache.insert path metadata })
  | .cacheRemove path, w => (.ok (), { w with cache := w.cache.erase path })
  | .cacheKeys, w => (.ok w.cache.keys, w)
  | .chunkSource path text, w => match env.chunkSource path text with
    | .ok bodies => (.ok (withIds w.nextId bodies), { w with nextId := w.nextId + bodies.length })
    | .error e => (.error e, w)
  | .embed chunks, w => (.ok ⟨chunks.map env.embed, List.length_map _⟩, w)
  | .safeBatchSize, w => (.ok env.safeBatchSize, w)
  | .addDocument document, w =>
    (.ok (), { w with bm25 := ⟨w.bm25.committed, w.bm25.pending ++ [.addDocument document]⟩ })
  | .deleteFile path, w =>
    (.ok (), { w with bm25 := ⟨w.bm25.committed, w.bm25.pending ++ [.deleteFile path]⟩ })
  | .commit, w => (.ok (), { w with bm25 := ⟨w.bm25.current, []⟩ })
  | .numDocs, w => (.ok w.bm25.committed.length, w)
  | .deleteByFilePaths paths, w =>
    (.ok (), { w with vectors := w.vectors.filter fun row ↦ row.filePath ∉ paths })
  | .insertRows rows, w => (.ok (), { w with vectors := w.vectors ++ rows })
  | .countRows, w => (.ok w.vectors.length, w)
  | .scan, w => (.ok (env.recordBatches w.vectors), w)
  | .decodeBatch batch, w => (decodeChunkRows batch, w)
  | .indexedFilePaths, w => (.ok (w.vectors.map Row.filePath).dedup, w)
  | .newIndexer, w => (.ok (), { w with opened := false })
  | .openWriter, w => (.ok (), { w with bm25 := ⟨w.bm25.committed, []⟩ })
  | .isOpened, w => (.ok w.opened, w)
  | .setOpened, w => (.ok (), { w with opened := true })
  | .excludeReaders, w => (.ok (), { w with readersOut := true })
  | .admitReaders, w => (.ok (), { w with readersOut := false })

end World

/-! ### Runs of single calls -/

section Run

variable {D : Type} {env : Env D} {w : World D}

/-- A call is run by carrying it out. -/
theorem run_request (call : Call D) :
    run (World.handle env) (request call) w = World.handle env call w :=
  run_perform _ _ _

/-- An error is reported as one of the given kind, and the world is the same. -/
@[simp] theorem run_failingAs {α : Type} (kind : String → IndexingError) (task : Task D α) :
    run (World.handle env) (failingAs kind task) w =
      ((run (World.handle env) task w).1.mapError fun e ↦ (kind e).display,
        (run (World.handle env) task w).2) :=
  run_mapError _ _ _ _

@[simp] theorem run_ensureIndexDiskHeadroom :
    run (World.handle env) (ensureIndexDiskHeadroom : Task D _) w = (.ok (), w) :=
  run_request _

@[simp] theorem run_collectProjectRustFiles :
    run (World.handle env) (collectProjectRustFiles : Task D _) w =
      (.ok (w.tree.keys, w.walkErrors), w) :=
  run_request _

@[simp] theorem run_fsRead (path : PathBuf) :
    run (World.handle env) (fsRead path) w = ((w.open? path).map FileEntry.bytes, w) :=
  run_request _

@[simp] theorem run_fsMetadata (path : PathBuf) :
    run (World.handle env) (fsMetadata path) w = ((w.open? path).map FileEntry.metadata, w) :=
  run_request _

@[simp] theorem run_loadSnapshot :
    run (World.handle env) (loadSnapshot : Task D _) w = (.ok w.snapshot, w) :=
  run_request _

@[simp] theorem run_saveSnapshot (snapshot : MerkleSnapshot D) :
    run (World.handle env) (saveSnapshot snapshot) w =
      (.ok (), { w with snapshot := some snapshot }) :=
  run_request _

@[simp] theorem run_removeSnapshot :
    run (World.handle env) (removeSnapshot : Task D _) w = (.ok (), { w with snapshot := none }) :=
  run_request _

@[simp] theorem run_cacheGet (path : PathBuf) :
    run (World.handle env) (cacheGet path) w = (.ok (w.cache.lookup path), w) :=
  run_request _

@[simp] theorem run_cacheSet (path : PathBuf) (metadata : FileMetadata D) :
    run (World.handle env) (cacheSet path metadata) w =
      (.ok (), { w with cache := w.cache.insert path metadata }) :=
  run_request _

@[simp] theorem run_cacheRemove (path : PathBuf) :
    run (World.handle env) (cacheRemove path) w = (.ok (),
    { w with cache := w.cache.erase path }) :=
  run_request _

@[simp] theorem run_cacheListFiles :
    run (World.handle env) (cacheListFiles : Task D _) w = (.ok w.cache.keys, w) :=
  run_request _

@[simp] theorem run_parseAndChunk (path : PathBuf) (text : String) :
    run (World.handle env) (parseAndChunk path text) w =
      match env.chunkSource path text with
      | .ok bodies =>
        (.ok (withIds w.nextId bodies), { w with nextId := w.nextId + bodies.length })
      | .error e => (.error e, w) :=
  run_request _

@[simp] theorem run_embedChunks (chunks : List CodeChunk) :
    run (World.handle env) (embedChunks chunks) w =
      (.ok ⟨chunks.map env.embed, List.length_map _⟩, w) :=
  run_request _

@[simp] theorem run_calculateSafeBatchSize :
    run (World.handle env) (calculateSafeBatchSize : Task D _) w = (.ok env.safeBatchSize, w) :=
  run_request _

@[simp] theorem run_addDocument (document : Document) :
    run (World.handle env) (addDocument document) w =
      (.ok (), { w with
        bm25 := ⟨w.bm25.committed, w.bm25.pending ++ [.addDocument document]⟩ }) :=
  run_request _

@[simp] theorem run_deleteFileChunks (path : PathBuf) :
    run (World.handle env) (deleteFileChunks path) w =
      (.ok (), { w with bm25 := ⟨w.bm25.committed, w.bm25.pending ++ [.deleteFile path]⟩ }) :=
  run_request _

@[simp] theorem run_commitWriter :
    run (World.handle env) (commitWriter : Task D _) w =
      (.ok (), { w with bm25 := ⟨w.bm25.current, []⟩ }) :=
  run_request _

@[simp] theorem run_committedDocCount :
    run (World.handle env) (committedDocCount : Task D _) w = (.ok w.bm25.committed.length, w) :=
  run_request _

@[simp] theorem run_deleteByFilePaths (paths : List PathBuf) :
    run (World.handle env) (deleteByFilePaths paths) w =
      (.ok (), { w with vectors := w.vectors.filter fun row ↦ row.filePath ∉ paths }) :=
  run_request _

@[simp] theorem run_insertRows (rows : List Row) :
    run (World.handle env) (insertRows rows) w = (.ok (),
    { w with vectors := w.vectors ++ rows }) :=
  run_request _

@[simp] theorem run_countRows :
    run (World.handle env) (countRows : Task D _) w = (.ok w.vectors.length, w) :=
  run_request _

@[simp] theorem run_scanBatches :
    run (World.handle env) (scanBatches : Task D _) w = (.ok (env.recordBatches w.vectors), w) :=
  run_request _

@[simp] theorem run_decodeBatch (batch : List Row) :
    run (World.handle env) (decodeBatch batch) w = (decodeChunkRows batch, w) :=
  run_request _

@[simp] theorem run_indexedFilePaths :
    run (World.handle env) (indexedFilePaths : Task D _) w =
      (.ok (w.vectors.map Row.filePath).dedup, w) :=
  run_request _

@[simp] theorem run_newIndexer :
    run (World.handle env) (newIndexer : Task D _) w = (.ok (), { w with opened := false }) :=
  run_request _

@[simp] theorem run_openWriter :
    run (World.handle env) (openWriter : Task D _) w =
      (.ok (), { w with bm25 := ⟨w.bm25.committed, []⟩ }) :=
  run_request _

@[simp] theorem run_isOpened :
    run (World.handle env) (isOpened : Task D _) w = (.ok w.opened, w) :=
  run_request _

@[simp] theorem run_setOpened :
    run (World.handle env) (setOpened : Task D _) w = (.ok (), { w with opened := true }) :=
  run_request _

@[simp] theorem run_excludeReaders :
    run (World.handle env) (excludeReaders : Task D _) w = (.ok (),
    { w with readersOut := true }) :=
  run_request _

@[simp] theorem run_admitReaders :
    run (World.handle env) (admitReaders : Task D _) w = (.ok (), { w with readersOut := false }) :=
  run_request _

end Run

end RustCodeMcp
