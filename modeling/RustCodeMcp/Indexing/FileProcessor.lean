import RustCodeMcp.Indexing.World

/-!
# One file: filters, change detection, chunks

The decisions the indexer takes about a single file before anything is written. A file is processed
if no filter holds against it; it is unchanged if the metadata cache has its stat or its hash on
record; what is left is read, checked for secrets, parsed and cut into chunks. `processFileSync`
strings these together and answers with an error whenever one of them ends the matter — also when
the end is no failure ("File unchanged", "No chunks generated").

The checks come in a fixed order, from the cheap to the dear: filters, stat, then the text and its
hash, then the scanner, then the parser. Each is a program of its own, so that the run over changed
files can leave out the two that consult the cache.

Whether a file that is settled is asked for again is not decided here; see `categorizeError`.
-/

namespace RustCodeMcp

open Effect

variable {D : Type} (env : Env D)

/-! ### File processor -/

/-- Check if a file should be processed (security and size checks). -/
def shouldProcessFile (path : PathBuf) : Task D Bool :=
  if !env.shouldIndex path then pure false
  else do
    let metadata ← failingAs .io (fsMetadata path)
    pure (decide (metadata.len ≤ env.maxFileSize))

/-- Whether a stat differs from the one on record; with nothing on record it does. -/
def statDiffers (cached : Option (FileMetadata D)) (stat : FileStat) : Bool :=
  match cached with
  | some cached =>
    decide (cached.lastModified ≠ stat.lastModified) || decide (cached.size ≠ stat.size)
  | none => true

/-- Whether a hash differs from the one on record; with nothing on record it does. -/
def hashDiffers [DecidableEq D] (cached : Option (FileMetadata D)) (currentHash : D) : Bool :=
  match cached with
  | some cached => decide (cached.hash ≠ currentHash)
  | none => true

/-- Fast check if a file has likely changed, by its stat alone. -/
def hasStatChanged (path : PathBuf) : Task D Bool :=
  failingAs .cache do
    let metadata ← fsMetadata path
    let cached ← cacheGet path
    pure (statDiffers cached metadata.stat)

/-- Check if a file's text has changed, by its hash. -/
def hasFileChanged [DecidableEq D] (path : PathBuf) (content : String) : Task D Bool :=
  failingAs .cache do
    let cached ← cacheGet path
    pure (hashDiffers cached (env.sha256 content.toUTF8))

/-- Record a file in the metadata cache: the hash of the text it was indexed with, under the stat
the file has now. -/
def updateFileMetadata (path : PathBuf) (content : String) : Task D Unit := do
  let metadata ← failingAs .io (fsMetadata path)
  failingAs .cache (cacheSet path
    ⟨env.sha256 content.toUTF8, metadata.stat.lastModified, metadata.stat.size⟩)

/-- Check a text for secrets. -/
def checkSecrets (content : String) : Task D Unit :=
  if env.shouldExclude content then .fail (IndexingError.parser OUTCOME_CONTAINS_SECRETS).display
  else pure ()

/-- The paths the metadata cache considers already indexed. -/
def cachedPaths : Task D (List PathBuf) :=
  failingAs .cache cacheListFiles

/-- Drop a file's cache entry, so that the next run treats it as new. -/
def forgetFile (path : PathBuf) : Task D Unit :=
  failingAs .cache (cacheRemove path)

/-! ### Indexer core -/

/-- Result of processing a single file. -/
structure ProcessedFile where
  /-- File path. -/
  path : PathBuf
  /-- File content. -/
  content : String
  /-- Generated code chunks. -/
  chunks : List CodeChunk

/-- Read a file as text. -/
def readToString (path : PathBuf) : Task D String := do
  let bytes ← fsRead path
  match String.fromUTF8? bytes with
  | some content => pure content
  | none => .fail "stream did not contain valid UTF-8"

/-- Process a single file: parse, chunk, and prepare for indexing. -/
def processFileSync [DecidableEq D] (path : PathBuf) : Task D ProcessedFile := do
  let processes ← shouldProcessFile env path
  if !processes then .fail (IndexingError.parser OUTCOME_SECURITY_FILTERED).display
  else do
    let statChanged ← hasStatChanged path
    if !statChanged then .fail (IndexingError.parser OUTCOME_FILE_UNCHANGED).display
    else do
      let content ← failingAs .io (readToString path)
      checkSecrets env content
      let fileChanged ← hasFileChanged env path content
      if !fileChanged then .fail (IndexingError.parser OUTCOME_FILE_UNCHANGED).display
      else do
        let chunks ← failingAs .parser (parseAndChunk path content)
        if chunks.isEmpty then .fail (IndexingError.parser OUTCOME_NO_CHUNKS).display
        else pure { path, content, chunks }

/-- The vectors of a list of chunks, one each. -/
def generateEmbeddingsBatched (chunks : List CodeChunk) :
    Task D { embeddings : List Embedding // embeddings.length = chunks.length } :=
  failingAs .embedding (embedChunks chunks)

end RustCodeMcp
