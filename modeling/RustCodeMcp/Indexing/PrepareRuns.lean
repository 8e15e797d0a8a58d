import RustCodeMcp.Indexing.Entry

/-!
# Runs of the read-only half

What the steps before any write answer when their surroundings carry every call out: the filters and
cache checks of a file, its preparation, and the Merkle walk. None of them changes the world, except
that preparing a file uses up identifiers. `run_prepareFile` sorts the outcomes of a preparation by
what `Entry` says about the file.

The filters are asked for in the order of the code, and their outcome is told once, as `chunksOf`: a
file is one to index if it passes the filters, reads as text, has no secrets, and yields chunks.

The three results that later modules cite:

* `run_prepareFile`: a file of the tree is handed over to be written, or skipped as one not to
  process, or left for what went wrong with it;
* `run_prepareFile_described`: a file on record is left alone, whether or not the cache was to be
  consulted;
* `run_fromDirectory`: the Merkle walk builds the tree of the world it walks.
-/

namespace RustCodeMcp

open Effect

variable {D : Type} {env : Env D}

/-! ### Checks of one file -/

section File

variable {w : World D} {path : PathBuf} {file : FileEntry}

theorem run_shouldProcessFile (hfile : w.tree.lookup path = some file) :
    run (World.handle env) (shouldProcessFile env path) w =
      (.ok (env.processes path file), w) := by
  rcases hindex : env.shouldIndex path with - | -
  · simp [shouldProcessFile, Env.processes, hindex]
  · simp [shouldProcessFile, Env.processes, hindex, run_bind, World.open?, hfile,
      Except.map, Except.mapError, FileEntry.metadata]

theorem run_hasStatChanged (hfile : w.tree.lookup path = some file) :
    run (World.handle env) (hasStatChanged path) w =
      (.ok (statDiffers (w.cache.lookup path) file.metadata.stat), w) := by
  simp [hasStatChanged, run_bind, World.open?, hfile, Except.map, Except.mapError]

theorem run_hasFileChanged [DecidableEq D] {content : String} :
    run (World.handle env) (hasFileChanged env path content) w =
      (.ok (hashDiffers (w.cache.lookup path) (env.sha256 content.toUTF8)), w) := by
  simp [hasFileChanged, run_bind, Except.mapError]

/-- A file reads as text if its bytes are well-formed. -/
theorem run_readToString (hfile : w.tree.lookup path = some file) :
    run (World.handle env) (readToString path) w =
      (match String.fromUTF8? file.bytes with
        | some content => .ok content
        | none => .error "stream did not contain valid UTF-8", w) := by
  rcases hutf8 : String.fromUTF8? file.bytes with - | content <;>
    simp [readToString, run_bind, World.open?, hfile, Except.map, hutf8]

/-- The bytes of a text that was read are those of the file. -/
theorem toByteArray_of_fromUTF8? {bytes : ByteArray} {text : String}
    (h : String.fromUTF8? bytes = some text) : text.toByteArray = bytes := by
  simp only [String.fromUTF8?] at h
  split at h
  · obtain rfl := Option.some.inj h
    rfl
  · simp at h

/-- A file on record agrees with the record in its stat or in its hash. -/
theorem statDiffers_or_hashDiffers [DecidableEq D] : w.Described env path file ↔
    statDiffers (w.cache.lookup path) file.metadata.stat = false ∨
      hashDiffers (w.cache.lookup path) (env.sha256 file.bytes) = false := by
  rcases hcached : w.cache.lookup path with - | ⟨hash, lastModified, size⟩
  · simp [World.Described, statDiffers, hashDiffers, hcached]
  · rcases hstat : file.metadata.stat with ⟨seconds, bytes⟩
    simp [World.Described, statDiffers, hashDiffers, hcached, hstat, FileMetadata.stat]

variable [DecidableEq D] {text : String} {bodies : List ChunkBody}

/-- A file to index that is not on record is cut into its chunks. -/
theorem run_processFileSync_ok (hfile : w.tree.lookup path = some file)
    (hchunks : env.chunksOf path file = some (text, bodies))
    (hdescribed : ¬ w.Described env path file) :
    run (World.handle env) (processFileSync env path) w =
      (.ok ⟨path, text, withIds w.nextId bodies⟩,
        { w with nextId := w.nextId + bodies.length }) := by
  obtain ⟨hprocesses, hutf8, hsecret, hsource, hne⟩ := Env.chunksOf_eq_some.1 hchunks
  rw [statDiffers_or_hashDiffers, not_or, Bool.not_eq_false, Bool.not_eq_false] at hdescribed
  have hids : withIds w.nextId bodies ≠ [] := by
    simpa [withIds] using hne
  simp [processFileSync, run_bind, run_shouldProcessFile hfile, hprocesses,
    run_hasStatChanged hfile, hdescribed.1, run_readToString hfile, hutf8, Except.mapError,
    checkSecrets, hsecret, run_hasFileChanged, toByteArray_of_fromUTF8? hutf8,
      hdescribed.2, hsource,
    hids]

/-- One that is on record is said to be unchanged. -/
theorem run_processFileSync_described (hfile : w.tree.lookup path = some file)
    (hchunks : env.chunksOf path file = some (text, bodies))
    (hdescribed : w.Described env path file) :
    run (World.handle env) (processFileSync env path) w =
      (.error (IndexingError.parser OUTCOME_FILE_UNCHANGED).display, w) := by
  obtain ⟨hprocesses, hutf8, hsecret, hsource, hne⟩ := Env.chunksOf_eq_some.1 hchunks
  rcases hstat : statDiffers (w.cache.lookup path) file.metadata.stat with - | -
  · simp [processFileSync, run_bind, run_shouldProcessFile hfile, hprocesses,
      run_hasStatChanged hfile, hstat]
  · have hhash : hashDiffers (w.cache.lookup path) (env.sha256 file.bytes) = false := by
      simpa [hstat] using statDiffers_or_hashDiffers.1 hdescribed
    simp [processFileSync, run_bind, run_shouldProcessFile hfile, hprocesses,
      run_hasStatChanged hfile, hstat, run_readToString hfile, hutf8, Except.mapError,
      checkSecrets, hsecret, run_hasFileChanged, toByteArray_of_fromUTF8? hutf8, hhash]

theorem run_processFileSync_filtered (hfile : w.tree.lookup path = some file)
    (hprocesses : env.processes path file = false) :
    run (World.handle env) (processFileSync env path) w =
      (.error (IndexingError.parser OUTCOME_SECURITY_FILTERED).display, w) := by
  simp [processFileSync, run_bind, run_shouldProcessFile hfile, hprocesses]

/-- A file that is none to index fails to be processed, one way or another. -/
theorem run_processFileSync_error (hfile : w.tree.lookup path = some file)
    (hchunks : env.chunksOf path file = none) :
    ∃ e, run (World.handle env) (processFileSync env path) w = (.error e, w) := by
  rcases hprocesses : env.processes path file with - | -
  · exact ⟨_, run_processFileSync_filtered hfile hprocesses⟩
  rcases hstat : statDiffers (w.cache.lookup path) file.metadata.stat with - | -
  · simp [processFileSync, run_bind, run_shouldProcessFile hfile, hprocesses,
      run_hasStatChanged hfile, hstat]
  rcases hutf8 : String.fromUTF8? file.bytes with - | text
  · simp [processFileSync, run_bind, run_shouldProcessFile hfile, hprocesses,
      run_hasStatChanged hfile, hstat, run_readToString hfile, hutf8, Except.mapError]
  rcases hsecret : env.shouldExclude text with - | -
  · rcases hhash : hashDiffers (w.cache.lookup path) (env.sha256 file.bytes) with - | -
    · simp [processFileSync, run_bind, run_shouldProcessFile hfile, hprocesses,
        run_hasStatChanged hfile, hstat, run_readToString hfile, hutf8, Except.mapError,
        checkSecrets, hsecret, run_hasFileChanged, toByteArray_of_fromUTF8? hutf8, hhash]
    · rcases hsource : env.chunkSource path text with e | _ | ⟨body, bodies⟩
      · simp [processFileSync, run_bind, run_shouldProcessFile hfile, hprocesses,
          run_hasStatChanged hfile, hstat, run_readToString hfile, hutf8, Except.mapError,
          checkSecrets, hsecret, run_hasFileChanged, toByteArray_of_fromUTF8? hutf8, hhash, hsource]
      · simp [processFileSync, run_bind, run_shouldProcessFile hfile, hprocesses,
          run_hasStatChanged hfile, hstat, run_readToString hfile, hutf8, Except.mapError,
          checkSecrets, hsecret, run_hasFileChanged, toByteArray_of_fromUTF8? hutf8, hhash, hsource,
          withIds]
      · simp [Env.chunksOf, hprocesses, hutf8, hsecret, hsource] at hchunks
  · simp [processFileSync, run_bind, run_shouldProcessFile hfile, hprocesses,
      run_hasStatChanged hfile, hstat, run_readToString hfile, hutf8, Except.mapError,
      checkSecrets, hsecret]

/-! ### Preparing a file -/

/-- What preparing a file hands over to be written: its chunks under identifiers from `next` on. -/
def preparedFile (env : Env D) (next : ℕ) (path : PathBuf) (text : String)
    (bodies : List ChunkBody) : PreparedFile :=
  ⟨path, text, withIds next bodies, (withIds next bodies).map env.embed, List.length_map _⟩

variable {consult : Bool}

theorem run_prepareFile_skipped (hfile : w.tree.lookup path = some file)
    (hprocesses : env.processes path file = false) :
    run (World.handle env) (prepareFile env path consult) w = (.ok .skipped, w) := by
  simp [prepareFile, run_bind, run_shouldProcessFile hfile, hprocesses]

/-- A file to index that is not on record is ready. -/
theorem run_prepareFile_ready (hfile : w.tree.lookup path = some file)
    (hchunks : env.chunksOf path file = some (text, bodies))
    (hdescribed : ¬ w.Described env path file) :
    run (World.handle env) (prepareFile env path consult) w =
      (.ok (.ready (preparedFile env w.nextId path text bodies)),
        { w with nextId := w.nextId + bodies.length }) := by
  obtain ⟨hprocesses, hutf8, -⟩ := Env.chunksOf_eq_some.1 hchunks
  have hprocessed := run_processFileSync_ok hfile hchunks hdescribed
  rw [statDiffers_or_hashDiffers, not_or, Bool.not_eq_false, Bool.not_eq_false] at hdescribed
  rcases consult with - | - <;>
    simp [prepareFile, run_bind, run_shouldProcessFile hfile, hprocesses,
      run_hasStatChanged hfile, hdescribed.1, run_readToString hfile, hutf8, Except.mapError,
      run_hasFileChanged, toByteArray_of_fromUTF8? hutf8, hdescribed.2, hprocessed,
      generateEmbeddingsBatched, preparedFile]

/-- What processing a text ends in, if it fails, is what preparing the file ends in, unless the cache
already told that the file is unchanged. -/
theorem run_prepareFile_of_error {e : String} (hfile : w.tree.lookup path = some file)
    (hprocesses : env.processes path file = true)
    (hutf8 : String.fromUTF8? file.bytes = some text)
    (hprocessed : run (World.handle env) (processFileSync env path) w = (.error e, w)) :
    run (World.handle env) (prepareFile env path consult) w = (.ok .unchanged, w) ∨
      run (World.handle env) (prepareFile env path consult) w = (.error e, w) := by
  rcases consult with - | -
  · simp [prepareFile, run_bind, run_shouldProcessFile hfile, hprocesses, run_readToString hfile,
      hutf8, Except.mapError, hprocessed]
  rcases hstat : statDiffers (w.cache.lookup path) file.metadata.stat with - | -
  · simp [prepareFile, run_bind, run_shouldProcessFile hfile, hprocesses,
      run_hasStatChanged hfile, hstat]
  rcases hhash : hashDiffers (w.cache.lookup path) (env.sha256 file.bytes) with - | - <;>
    simp [prepareFile, run_bind, run_shouldProcessFile hfile, hprocesses,
      run_hasStatChanged hfile, hstat, run_readToString hfile, hutf8, Except.mapError,
      run_hasFileChanged, toByteArray_of_fromUTF8? hutf8, hhash, hprocessed]

/-- **A file on record is left alone**, whether or not the cache was to be consulted: processing
consults it in any case. -/
theorem run_prepareFile_described (hfile : w.tree.lookup path = some file)
    (hchunks : env.chunksOf path file = some (text, bodies))
    (hdescribed : w.Described env path file) :
    run (World.handle env) (prepareFile env path consult) w = (.ok .unchanged, w) ∨
      run (World.handle env) (prepareFile env path consult) w =
        (.error (IndexingError.parser OUTCOME_FILE_UNCHANGED).display, w) := by
  obtain ⟨hprocesses, hutf8, -⟩ := Env.chunksOf_eq_some.1 hchunks
  exact run_prepareFile_of_error hfile hprocesses hutf8
    (run_processFileSync_described hfile hchunks hdescribed)

/-- A file that passes the filters and is none to index is not prepared, and not cleared either. -/
theorem run_prepareFile_error (hfile : w.tree.lookup path = some file)
    (hprocesses : env.processes path file = true) (hchunks : env.chunksOf path file = none) :
    run (World.handle env) (prepareFile env path consult) w = (.ok .unchanged, w) ∨
      ∃ e, run (World.handle env) (prepareFile env path consult) w = (.error e, w) := by
  rcases hutf8 : String.fromUTF8? file.bytes with - | text
  · rcases hstat : statDiffers (w.cache.lookup path) file.metadata.stat with - | - <;>
      rcases consult with - | - <;>
      simp [prepareFile, run_bind, run_shouldProcessFile hfile, hprocesses,
        run_hasStatChanged hfile, hstat, run_readToString hfile, hutf8, Except.mapError]
  · obtain ⟨e, hprocessed⟩ := run_processFileSync_error hfile hchunks
    exact (run_prepareFile_of_error hfile hprocesses hutf8 hprocessed).imp_right fun h ↦ ⟨e, h⟩

/-- **Preparing a file of the tree** has one of three outcomes: it is handed over to be written, it
is skipped as one not to process, or it is left for what the stores hold of it — and an error about
a file that does yield chunks is none to retry. -/
theorem run_prepareFile (consult : Bool) (hfile : w.tree.lookup path = some file) :
    (∃ text bodies, env.chunksOf path file = some (text, bodies) ∧ ¬ w.Described env path file ∧
      run (World.handle env) (prepareFile env path consult) w =
        (.ok (.ready (preparedFile env w.nextId path text bodies)),
          { w with nextId := w.nextId + bodies.length })) ∨
    (env.processes path file = false ∧
      run (World.handle env) (prepareFile env path consult) w = (.ok .skipped, w)) ∨
    (env.processes path file = true ∧
      (env.chunksOf path file = none ∨ w.Described env path file) ∧
      (run (World.handle env) (prepareFile env path consult) w = (.ok .unchanged, w) ∨
        ∃ e, run (World.handle env) (prepareFile env path consult) w = (.error e, w) ∧
          ((env.chunksOf path file).isSome → categorizeError e = .permanent))) := by
  rcases hprocesses : env.processes path file with - | -
  · exact Or.inr (Or.inl ⟨rfl, run_prepareFile_skipped hfile hprocesses⟩)
  rcases hchunks : env.chunksOf path file with - | ⟨text, bodies⟩
  · refine Or.inr (Or.inr ⟨rfl, Or.inl rfl, ?_⟩)
    rcases run_prepareFile_error hfile hprocesses hchunks with h | ⟨e, h⟩
    · exact Or.inl h
    · exact Or.inr ⟨e, h, by simp⟩
  by_cases hdescribed : w.Described env path file
  · refine Or.inr (Or.inr ⟨rfl, Or.inr hdescribed, ?_⟩)
    rcases run_prepareFile_described hfile hchunks hdescribed with h | h
    · exact Or.inl h
    · exact Or.inr ⟨_, h, fun _ ↦ categorizeError_settled (by simp [SETTLED_OUTCOMES])⟩
  · exact Or.inl ⟨text, bodies, rfl, hdescribed, run_prepareFile_ready hfile hchunks hdescribed⟩

end File

/-! ### The Merkle walk -/

/-- **A walk builds the tree of the world it walks.** -/
theorem run_fromDirectory {w : World D} :
    run (World.handle env) (fromDirectory env) w = (.ok (w.merkle env), w) := by
  have hfold : ∀ (paths : List PathBuf) (start : FileSystemMerkle D),
      (∀ path ∈ paths, path ∈ w.tree.keys) →
      run (World.handle env) (paths.foldlM (fun merkle path ↦ do
        let content ← fsRead path
        let hash := env.sha256 content
        let metadata ← fsMetadata path
        pure { merkle with
          tree := merkle.tree ++ [hash]
          fileToNode := merkle.fileToNode.insert path
            ⟨hash, merkle.tree.length, metadata.modified⟩ }) start) w =
        (.ok (paths.foldl (w.hashFile env) start), w) := by
    intro paths
    induction paths with
    | nil => simp
    | cons path rest ih =>
      intro start hmem
      obtain ⟨file, hfile⟩ := Option.isSome_iff_exists.1
        (World.mem_keys_tree.1 (hmem path List.mem_cons_self))
      simp [run_bind, World.open?, hfile, Except.map, World.hashFile, FileEntry.metadata,
        ih _ fun path hpath ↦ hmem path (List.mem_cons_of_mem _ hpath)]
  simp only [fromDirectory, run_bind, run_collectProjectRustFiles, World.merkle]
  exact hfold _ _ fun path hpath ↦ World.mem_sortPaths.1 hpath

end RustCodeMcp
