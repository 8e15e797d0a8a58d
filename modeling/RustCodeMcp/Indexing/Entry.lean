import RustCodeMcp.Indexing.Incremental

/-!
# What the stores hold of one path

An indexing run acts on each path on its own. `Entry` is what the two stores and the metadata cache
hold of one path; `chunksOf` and `expected` say what they should hold, from the file alone; and
`Rewritten` says of which paths a run over the tree makes it so. A path is looked at only if the
Merkle comparison reports it, and even then its entry is left as it was when the cache has the file
on record or when the file yields no chunks.

Everything here is a function of the world before the run.

The rows and the documents of a path are compared through `CodeChunk.body`, which forgets the
identifier: a file written twice is described by the same bodies and never by the same chunks. Two
files with the same bytes at the same path should have the same bodies (`chunksOf_congr`), so that
what should be held is a function of the tree alone.
-/

namespace RustCodeMcp

variable {D : Type}

/-! ### Entries -/

/-- What the stores and the cache hold of a path. -/
structure Entry (D : Type) where
  /-- Its rows in the vector table. -/
  rows : List Row
  /-- Its documents in the BM25 index, queued operations included. -/
  documents : List Document
  /-- Its record in the metadata cache. -/
  metadata : Option (FileMetadata D)

namespace World

variable (w : World D)

/-- The rows of a path. -/
def rowsAt (path : PathBuf) : List Row :=
  w.vectors.filter fun row ↦ row.filePath = path

/-- The documents of a path, queued operations included. -/
def documentsAt (path : PathBuf) : List Document :=
  w.bm25.current.filter fun document ↦ document.filePath = path

/-- What the stores and the cache hold of a path. -/
def entry (path : PathBuf) : Entry D :=
  ⟨w.rowsAt path, w.documentsAt path, w.cache.lookup path⟩

/-- The chunks the vector table holds of a path, up to their identifiers. -/
def bodiesAt (path : PathBuf) : List ChunkBody :=
  (w.rowsAt path).map fun row ↦ row.chunk.body

/-- The stored snapshot's tree. -/
def oldMerkle : Option (FileSystemMerkle D) :=
  w.snapshot.map FileSystemMerkle.ofSnapshot

/-- The hash the stored snapshot has for a path. -/
def oldHash (path : PathBuf) : Option D :=
  w.oldMerkle.bind fun merkle ↦ merkle.hashOf path

theorem oldHash_congr {w v : World D} {path : PathBuf} (h : v.snapshot = w.snapshot) :
    v.oldHash path = w.oldHash path := by
  rw [oldHash, oldHash, oldMerkle, oldMerkle, h]

end World

/-! ### What should be held -/

namespace Env

variable (env : Env D)

/-- No filter holds against the file. -/
def processes (path : PathBuf) (file : FileEntry) : Bool :=
  env.shouldIndex path && decide (file.bytes.size ≤ env.maxFileSize)

/-- The text of a file to index and its chunks: it passes the filters, is text, holds no secret,
parses, and yields a chunk. -/
def chunksOf (path : PathBuf) (file : FileEntry) : Option (String × List ChunkBody) :=
  if env.processes path file then
    match String.fromUTF8? file.bytes with
    | some text =>
      if env.shouldExclude text then none
      else match env.chunkSource path text with
        | .ok (body :: bodies) => some (text, body :: bodies)
        | _ => none
    | none => none
  else none

/-- The chunks the stores should hold of a path, given the file there, if any. -/
def expected (path : PathBuf) (file : Option FileEntry) : List ChunkBody :=
  ((file.bind (env.chunksOf path)).map Prod.snd).getD []

/-- The record of a file in the metadata cache. -/
def record (file : FileEntry) : FileMetadata D :=
  ⟨env.sha256 file.bytes, file.metadata.stat.lastModified, file.metadata.stat.size⟩

variable {env} {path : PathBuf} {file : FileEntry} {text : String} {bodies : List ChunkBody}

/-- Taken apart, `chunksOf` is the checks a file has to pass. -/
theorem chunksOf_eq_some : env.chunksOf path file = some (text, bodies) ↔
    env.processes path file = true ∧ String.fromUTF8? file.bytes = some text ∧
      env.shouldExclude text = false ∧ env.chunkSource path text = .ok bodies ∧ bodies ≠ [] := by
  constructor
  · intro h
    simp only [chunksOf] at h
    split at h <;> try simp at h
    next hprocesses =>
    split at h <;> try simp at h
    next content hutf8 =>
    obtain ⟨hsecret, h⟩ := h
    split at h <;> simp only [Option.some.injEq, Prod.mk.injEq, reduceCtorEq] at h
    next body rest hchunks =>
    obtain ⟨rfl, rfl⟩ := h
    exact ⟨hprocesses, hutf8, hsecret, hchunks, by simp⟩
  · rintro ⟨hprocesses, hutf8, hsecret, hchunks, hne⟩
    obtain ⟨body, rest, rfl⟩ := List.exists_cons_of_ne_nil hne
    simp [chunksOf, hprocesses, hutf8, hsecret, hchunks]

@[simp] theorem expected_none : env.expected path none = [] := rfl

theorem expected_some : env.expected path (some file) =
    ((env.chunksOf path file).map Prod.snd).getD [] := rfl

theorem expected_of_chunksOf (h : env.chunksOf path file = some (text, bodies)) :
    env.expected path (some file) = bodies := by
  simp [expected_some, h]

theorem expected_of_chunksOf_eq_none (h : env.chunksOf path file = none) :
    env.expected path (some file) = [] := by
  simp [expected_some, h]

theorem chunksOf_eq_none_of_not_processes (h : env.processes path file = false) :
    env.chunksOf path file = none := by
  simp [chunksOf, h]

theorem filePath_of_mem_chunksOf (h : env.chunksOf path file = some (text, bodies)) :
    ∀ body ∈ bodies, body.context.filePath = path :=
  env.filePath_of_mem (chunksOf_eq_some.1 h).2.2.2.1

/-- What a file should have depends on its bytes alone. -/
theorem chunksOf_congr {other : FileEntry} (h : file.bytes = other.bytes) :
    env.chunksOf path file = env.chunksOf path other := by
  rw [chunksOf, chunksOf, processes, processes, h]

end Env

/-! ### What a run does about it -/

namespace World

variable (w : World D) (env : Env D)

/-- The vector table holds of a path what it should. -/
def UpToDate (path : PathBuf) : Prop :=
  w.bodiesAt path = env.expected path (w.tree.lookup path)

/-- The metadata cache has this file on record for the path, by its stat or by its hash. -/
def Described (path : PathBuf) (file : FileEntry) : Prop :=
  ∃ metadata, w.cache.lookup path = some metadata ∧
    (metadata.stat = file.metadata.stat ∨ metadata.hash = env.sha256 file.bytes)

/-- A Merkle tree with one more of the project's files. -/
def hashFile (merkle : FileSystemMerkle D) (path : PathBuf) : FileSystemMerkle D :=
  match w.tree.lookup path with
  | some file =>
    { merkle with
      tree := merkle.tree ++ [env.sha256 file.bytes]
      fileToNode := merkle.fileToNode.insert path
        ⟨env.sha256 file.bytes, merkle.tree.length, file.modified⟩ }
  | none => merkle

/-- The tree a Merkle walk builds. -/
def merkle : FileSystemMerkle D :=
  (sortPaths w.tree.keys).foldl (w.hashFile env) ⟨[], ∅, 1⟩

/-- The hash of a path's bytes. -/
def newHash (path : PathBuf) : Option D :=
  (w.tree.lookup path).map fun file ↦ env.sha256 file.bytes

variable {w env}

instance {path : PathBuf} : Decidable (w.UpToDate env path) :=
  inferInstanceAs (Decidable (w.bodiesAt path = env.expected path (w.tree.lookup path)))

instance [DecidableEq D] {path : PathBuf} {file : FileEntry} :
    Decidable (w.Described env path file) :=
  match h : w.cache.lookup path with
  | none => isFalse (by simp [Described, h])
  | some metadata =>
    decidable_of_iff
      (metadata.stat = file.metadata.stat ∨ metadata.hash = env.sha256 file.bytes)
      (by simp [Described, h])

theorem mem_sortPaths {paths : List PathBuf} {path : PathBuf} :
    path ∈ sortPaths paths ↔ path ∈ paths :=
  List.mem_insertionSort _

theorem mem_keys_tree {path : PathBuf} : path ∈ w.tree.keys ↔ (w.tree.lookup path).isSome := by
  rw [AList.lookup_isSome, AList.mem_keys]

/-- A walk hashes the files that it comes by, and leaves the others as they were. -/
theorem hashOf_foldl_hashFile {path : PathBuf} (paths : List PathBuf)
    (start : FileSystemMerkle D) :
    (paths.foldl (w.hashFile env) start).hashOf path =
      if path ∈ paths ∧ (w.tree.lookup path).isSome then w.newHash env path
      else start.hashOf path := by
  induction paths generalizing start with
  | nil => simp
  | cons head rest ih =>
    rw [List.foldl_cons, ih]
    by_cases hrest : path ∈ rest ∧ (w.tree.lookup path).isSome
    · simp [hrest]
    · rw [if_neg hrest]
      by_cases hpath : path = head
      · subst hpath
        rcases hfile : w.tree.lookup path with - | file <;>
          simp [hashFile, FileSystemMerkle.hashOf, hfile, newHash]
      · simp only [List.mem_cons, hpath, false_or, if_neg hrest]
        rcases hfile : w.tree.lookup head with - | file <;>
          simp [hashFile, FileSystemMerkle.hashOf, hfile, hpath]

/-- **A walk hashes the file of every path.** -/
theorem hashOf_merkle {path : PathBuf} : (w.merkle env).hashOf path = w.newHash env path := by
  rw [merkle, hashOf_foldl_hashFile]
  simp only [mem_sortPaths, mem_keys_tree]
  rcases hfile : w.tree.lookup path with - | file <;>
    simp [FileSystemMerkle.hashOf, newHash, hfile]

variable [DecidableEq D] (w env)

/-- Whether the fast path of the Merkle comparison lets a run look any further. -/
def RootChanged (old : FileSystemMerkle D) : Prop :=
  (w.merkle env).hasChanges env.combine old = true

/-- **The paths an incremental run rewrites.** The path is reported as changed, and its file is
gone, or no longer one to process, or yields chunks and is not on record. -/
def RewrittenSince (old : FileSystemMerkle D) (path : PathBuf) : Prop :=
  w.RootChanged env old ∧ w.newHash env path ≠ old.hashOf path ∧
    match w.tree.lookup path with
    | none => True
    | some file =>
      ((old.hashOf path).isSome ∧ env.processes path file = false) ∨
        ((env.chunksOf path file).isSome ∧ ¬ w.Described env path file)

/-- **The paths a full pass rewrites.** Its file yields chunks and is not on record, or it has rows
and is missing from a walk that found something and met no errors. -/
def RewrittenByPass (path : PathBuf) : Prop :=
  match w.tree.lookup path with
  | none => w.rowsAt path ≠ [] ∧ w.walkErrors = 0 ∧ w.tree.keys ≠ []
  | some file => (env.chunksOf path file).isSome ∧ ¬ w.Described env path file

/-- The paths a run rewrites. -/
def Rewritten (path : PathBuf) : Prop :=
  match w.oldMerkle with
  | some old => w.RewrittenSince env old path
  | none => w.RewrittenByPass env path

end World

end RustCodeMcp
