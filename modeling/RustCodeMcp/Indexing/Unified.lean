import RustCodeMcp.Indexing.FileProcessor

/-!
# Indexing into both stores

The operations that keep the vector table and the BM25 index in step. `prepareFile` is the expensive
half of indexing a file and writes nothing; `writeFiles` replaces the chunks of many files in one
delete and one append; `rebuildBm25IfEmpty` refills an empty BM25 index from the vector table;
`dropFilesOutside` removes what the tree no longer lists; `indexDirectoryParallel` is a full pass
over the tree.

The BM25 writer queues its operations until `commit`; the vector table and the metadata cache take
theirs at once.

**Nothing here decides what to index.** These are the operations; the strategy that calls them is in
`RustCodeMcp.Indexing.Incremental`. Each writes to the vector table first and queues for BM25 next,
and records a file in the metadata cache last, so that a file on record has been written.

A full pass goes by batches: the files of a batch are parsed, embedded together and written by one
`writeFiles`, and the batch ends with a commit. What the walk did not find is dropped after the last
one.
-/

namespace RustCodeMcp

open Effect

variable {D : Type}

/-! ### Statistics -/

/-- Statistics from an indexing operation. -/
structure IndexStats where
  /-- Total number of files found. -/
  totalFiles : ℕ := 0
  /-- Number of files that were indexed. -/
  indexedFiles : ℕ := 0
  /-- Number of unchanged files. -/
  unchangedFiles : ℕ := 0
  /-- Number of files intentionally skipped or removed. -/
  skippedFiles : ℕ := 0
  /-- Number of transient failures that must be retried. -/
  failedFiles : ℕ := 0
  /-- Paths that the Merkle snapshot must leave at their previous state. -/
  retryFiles : List PathBuf := []
  /-- Total number of chunks generated. -/
  totalChunks : ℕ := 0
  /-- The run wrote to the vector store. -/
  needsMaintenance : Bool := false
  deriving DecidableEq

namespace IndexStats

/-- One more file left alone on purpose, or removed. -/
def skip (stats : IndexStats) : IndexStats :=
  { stats with skippedFiles := stats.skippedFiles + 1 }

/-- One more path to retry. -/
def retry (stats : IndexStats) (path : PathBuf) : IndexStats :=
  { stats with
    failedFiles := stats.failedFiles + 1
    retryFiles := stats.retryFiles ++ [path] }

/-- A permanent error skips its file, a transient one has it retried. -/
def recordError (stats : IndexStats) (path : PathBuf) (error : String) : IndexStats :=
  match categorizeError error with
  | .permanent => stats.skip
  | .transient => stats.retry path

end IndexStats

/-! ### Preparing a file -/

/-- A file read, chunked and embedded, and not written anywhere yet. -/
structure PreparedFile where
  /-- File path. -/
  path : PathBuf
  /-- The text the chunks were cut from. -/
  content : String
  /-- The chunks. -/
  chunks : List CodeChunk
  /-- Their vectors, in chunk order. -/
  embeddings : List Embedding
  /-- One embedding per chunk. -/
  length_embeddings : embeddings.length = chunks.length

/-- The rows a file is stored as. -/
def PreparedFile.rows (file : PreparedFile) : List Row :=
  (file.chunks.zip file.embeddings).map fun (chunk, embedding) ↦ ⟨chunk.id, embedding, chunk⟩

/-- What `prepareFile` made of a file. -/
inductive Preparation
  | ready (file : PreparedFile)
  /-- The metadata cache says the stores already hold this content. -/
  | unchanged
  /-- Not a file this indexer processes. -/
  | skipped

/-- Read, chunk and embed one file, writing nothing. -/
def prepareFile [DecidableEq D] (env : Env D) (path : PathBuf) (consultMetadataCache : Bool) :
    Task D Preparation := do
  ensureIndexDiskHeadroom
  let processes ← shouldProcessFile env path
  if !processes then pure .skipped
  else do
    -- The stat check spares a reading.
    let statChanged ← if consultMetadataCache then hasStatChanged path else pure true
    if !statChanged then pure .unchanged
    else do
      let content ← (readToString path).mapError fun _ ↦ "Failed to read file: " ++ path.display
      let fileChanged ← if consultMetadataCache then hasFileChanged env path content else pure true
      if !fileChanged then pure .unchanged
      else do
        -- This consults the cache in any case, and reads the file once more.
        let processed ← processFileSync env path
        let embeddings ← generateEmbeddingsBatched processed.chunks
        pure (.ready ⟨processed.path, processed.content, processed.chunks, embeddings.1,
          embeddings.2⟩)

/-! ### Writing -/

/-- Add the documents of these chunks. -/
def indexChunks (chunks : List CodeChunk) : Task D Unit :=
  Prog.forEach (fun chunk ↦
    (addDocument (document chunk)).mapError fun _ ↦ "Failed to add document to Tantivy") chunks

/-- Commit Tantivy changes. -/
def commit : Task D Unit :=
  commitWriter.mapError fun _ ↦ "Failed to commit Tantivy index"

/-- Delete all chunks of these files from both stores: one vector-store write for all of them. -/
def deleteFilesChunks (paths : List PathBuf) : Task D Unit := do
  Prog.forEach deleteFileChunks paths
  (deleteByFilePaths paths).mapError
    fun e ↦ "Failed to delete chunks from vector store: " ++ e

/-- Append rows to the vector store; no rows are no write. -/
def insertChunks (rows : List Row) : Task D Unit :=
  if rows.isEmpty then pure ()
  else (insertRows rows).mapError
    fun e ↦ "Failed to index chunks to vector store: " ++ e

/-- Record a written file in the metadata cache. A file with no chunks is not recorded: the next run
looks at it again. -/
def recordIfIndexed (env : Env D) (file : PreparedFile) : Task D Unit :=
  if file.chunks.isEmpty then pure () else updateFileMetadata env file.path file.content

/-- Replace the chunks of `files` and drop those of `removed`, in both stores. The metadata cache
records a file only after its chunks are in the vector store; BM25 is committed by the caller. -/
def writeFiles (env : Env D) (files : List PreparedFile) (removed : List PathBuf) :
    Task D Unit :=
  if files.isEmpty && removed.isEmpty then pure ()
  else do
    deleteFilesChunks (removed ++ files.map PreparedFile.path)
    Prog.forEach (fun file ↦ indexChunks file.chunks) files
    insertChunks (files.flatMap PreparedFile.rows)
    Prog.forEach (recordIfIndexed env) files

/-! ### Refilling BM25 -/

/-- Read record batches of the vector store and add the documents of their chunks, counting them up
from `indexed`. -/
def scanChunks : List (List Row) → ℕ → Task D ℕ
  | [], indexed => pure indexed
  | batch :: rest, indexed => do
    let chunks ← decodeBatch batch
    indexChunks chunks
    scanChunks rest (indexed + chunks.length)

/-- Fill an empty BM25 index from the vector store, if the store has chunks; committed once, at the
end. Answers how many chunks were indexed, `none` when there was nothing to do. -/
def rebuildBm25IfEmpty : Task D (Option ℕ) := do
  let docs ← committedDocCount
  if 0 < docs then pure none
  else do
    let stored ← countRows.mapError fun e ↦ "Failed to count vector store rows: " ++ e
    if stored = 0 then pure none
    else do
      let indexed ← Prog.mapError
        (fun _ ↦ "Failed to rebuild the BM25 index from the vector store") do
          let batches ← scanBatches
          scanChunks batches 0
      commit
      pure (some indexed)

/-- `rebuildBm25IfEmpty` without an indexer: a BM25 writer of its own and the existing vector store
only. -/
def rebuildBm25FromExistingStore : Task D (Option ℕ) := do
  openWriter
  rebuildBm25IfEmpty

/-- Bring the stores up, unless they are: a new indexer refills an empty BM25 index. -/
def ensureIndexer : Task D Unit := do
  let opened ← isOpened
  if opened then pure ()
  else do
    openWriter
    let _ ← rebuildBm25IfEmpty
    setOpened

/-! ### Dropping and forgetting -/

/-- Drop from both stores, and from the metadata cache, every file the vector store holds that
`tree` does not list. Answers the dropped paths, sorted. -/
def dropFilesOutside (tree : List PathBuf) : Task D (List PathBuf) := do
  let indexed ← indexedFilePaths.mapError
    fun e ↦ "Failed to list indexed files: " ++ e
  let gone := sortPaths (indexed.filter fun path ↦ path ∉ tree)
  if gone.isEmpty then pure gone
  else do
    deleteFilesChunks gone
    commit
    Prog.forEach forgetFile gone
    pure gone

/-- The end of a full pass: drop the files the walk did not find, unless the walk hit errors and so
may have missed live files. Answers how many went. -/
def dropFilesOutsideWalk (walked : List PathBuf) (walkErrors : ℕ) : Task D ℕ :=
  if 0 < walkErrors then pure 0
  else do
    let gone ← dropFilesOutside walked
    pure gone.length

/-- Forget cache entries whose file has no vectors in the store. -/
def forgetFilesWithoutVectors : Task D (List PathBuf) := do
  let cached ← cachedPaths
  let indexed ← indexedFilePaths.mapError
    fun e ↦ "Failed to list indexed files: " ++ e
  let stale := sortPaths (cached.filter fun path ↦ path ∉ indexed)
  Prog.forEach forgetFile stale
  pure stale

/-! ### A full pass -/

/-- Cut the vectors of a batch up into those of its files. -/
def splitEmbeddings : (processed : List ProcessedFile) → (embeddings : List Embedding) →
    embeddings.length = (processed.flatMap ProcessedFile.chunks).length → List PreparedFile
  | [], _, _ => []
  | file :: rest, embeddings, h =>
    ⟨file.path, file.content, file.chunks, embeddings.take file.chunks.length, by
      simp only [List.flatMap_cons, List.length_append] at h
      simp only [List.length_take]
      omega⟩ ::
    splitEmbeddings rest (embeddings.drop file.chunks.length) (by
      simp only [List.flatMap_cons, List.length_append] at h
      simp only [List.length_drop]
      omega)

/-- Embed and write a batch of processed files. -/
def processAndIndexBatch (env : Env D) (processed : List ProcessedFile) (stats : IndexStats) :
    Task D IndexStats := do
  let allChunks := processed.flatMap ProcessedFile.chunks
  let allEmbeddings ← generateEmbeddingsBatched allChunks
  writeFiles env (splitEmbeddings processed allEmbeddings.1 allEmbeddings.2) []
  pure { stats with
    indexedFiles := stats.indexedFiles + processed.length
    totalChunks := stats.totalChunks + allChunks.length }

/-- Parse and chunk one more file of a batch. A file that fails is skipped or retried, by its
error. -/
def parseInto [DecidableEq D] (env : Env D) (acc : List ProcessedFile × IndexStats)
    (path : PathBuf) : Task D (List ProcessedFile × IndexStats) := do
  let outcome ← (processFileSync env path).attempt
  pure (match outcome with
    | .ok file => (acc.1 ++ [file], acc.2)
    | .error e => (acc.1, acc.2.recordError path e))

/-- Parse and chunk a batch of files. -/
def parallelParseBatch [DecidableEq D] (env : Env D) (fileBatch : List PathBuf)
    (stats : IndexStats) : Task D (List ProcessedFile × IndexStats) :=
  fileBatch.foldlM (parseInto env) ([], stats)

/-- Slices of `size` paths, the last one possibly shorter. -/
def pathChunks (size : ℕ) (paths : List PathBuf) : List (List PathBuf) :=
  (paths.toChunksAux (size - 1) 0).2

/-- One batch of a full pass, committed at its end. -/
def indexBatch [DecidableEq D] (env : Env D) (stats : IndexStats) (fileBatch : List PathBuf) :
    Task D IndexStats := do
  ensureIndexDiskHeadroom
  let (processed, stats) ← parallelParseBatch env fileBatch stats
  let stats ← if processed.isEmpty then pure stats else processAndIndexBatch env processed stats
  commit
  pure stats

/-- Index an entire directory. -/
def indexDirectoryParallel [DecidableEq D] (env : Env D) : Task D IndexStats := do
  let (rustFiles, walkErrors) ← collectProjectRustFiles
  let stats : IndexStats := { totalFiles := rustFiles.length }
  if rustFiles.isEmpty then pure stats
  else do
    let batchSize ← calculateSafeBatchSize
    let stats ← (pathChunks batchSize rustFiles).foldlM (indexBatch env) stats
    let dropped ← dropFilesOutsideWalk rustFiles walkErrors
    pure { stats with
      needsMaintenance := decide (0 < stats.indexedFiles) || decide (0 < dropped) }

end RustCodeMcp
