import RustCodeMcp.Effect.Execution
import RustCodeMcp.Indexing.RunSpec

/-!
# What a run touches when it is cut off or its calls fail

A run whose calls may fail does not end as its specification says, and one that is cut off does not
end at all. What can still be said comes from the calls a program makes: preparing files makes none
that changes a store, and writing files makes none that changes anything about other paths. The
frame rules here (`visits_of_reads`, `SameBut.visits`) turn that into statements about every state
such a program can be in.

Classes of calls are predicates on `Call`, and a program is of a class if all the calls it can make
are (`Only`). They are ordered by how much they may change: calls that look, that read, that write
within some paths, that write anything but commit, that refill. For each program of the indexer the
narrowest class it belongs to is proved once, mostly by composition, and every theorem about
interrupted or failing runs cites that class.

A program that passes every error on (`FailFast`) has a further property: if it ends well, no call
of it has failed.
-/

namespace RustCodeMcp

open Effect

variable {D α : Type} {env : Env D} {call : Call D} {task : Task D α} {w t : World D}

/-- The calls of a run when any of them may fail. -/
abbrev World.mayFail (env : Env D) : Outcomes String (@Call.Ret D) (World D) :=
  Handler.orFails (World.handle env)

/-- The calls of a run when none fails. -/
abbrev World.noneFails (env : Env D) : Outcomes String (@Call.Ret D) (World D) :=
  Handler.outcomes (World.handle env)

/-! ### Calls that read -/

/-- The calls that change nothing but the supply of identifiers. -/
def Call.Reads : Call D → Prop
  | ensureDiskHeadroom | walk | read _ | metadata _ | loadSnapshot | cacheGet _ | cacheKeys
  | chunkSource _ _ | embed _ | safeBatchSize | numDocs | countRows | scan | decodeBatch _
  | indexedFilePaths | isOpened => True
  | _ => False

/-- A reading call changes nothing but the supply of identifiers. -/
theorem handle_of_reads {r : Except String call.Ret}
    (hreads : call.Reads) (h : World.handle env call w = (r, t)) :
    ∃ nextId, t = { w with nextId } := by
  cases call with
  | chunkSource path text =>
    simp only [World.handle] at h
    split at h
    · exact ⟨_, (congrArg Prod.snd h).symm⟩
    · exact ⟨w.nextId, (congrArg Prod.snd h).symm⟩
  | ensureDiskHeadroom | walk | read | metadata | loadSnapshot | cacheGet | cacheKeys | embed
  | safeBatchSize | numDocs | countRows | scan | decodeBatch | indexedFilePaths | isOpened =>
    exact ⟨w.nextId, (congrArg Prod.snd h).symm⟩
  | _ => exact hreads.elim

/-- A call that fails changes nothing. -/
theorem handle_error {e : String} (h : World.handle env call w = (.error e, t)) : t = w := by
  cases call with
  | chunkSource path text =>
    simp only [World.handle] at h
    split at h
    · cases h
    · exact (congrArg Prod.snd h).symm
  | read | metadata | decodeBatch => exact (congrArg Prod.snd h).symm
  | _ => cases h

/-- Where calls may fail, one that failed changed nothing. -/
theorem mayFail_error {e : String} (h : World.mayFail env call w (.error e) t) : t = w := by
  rcases h with h | ⟨-, rfl⟩
  · exact handle_error h
  · rfl

/-- **A program that only reads changes nothing**, even if some of its calls fail. -/
theorem visits_of_reads (hreads : Only Call.Reads task)
    (h : Visits (World.mayFail env) task w t) : ∃ nextId, t = { w with nextId } := by
  refine hreads.visits (fun t ↦ ∃ nextId, t = { w with nextId })
    (fun call s r t hcall hstep hs ↦ ?_) ⟨w.nextId, rfl⟩ h
  refine Handler.orFails.preserves (fun t ↦ ∃ nextId, t = { w with nextId }) hstep hs fun h ↦ ?_
  obtain ⟨nextId, rfl⟩ := hs
  obtain ⟨nextId', rfl⟩ := handle_of_reads hcall h
  exact ⟨nextId', rfl⟩

/-- The calls that change nothing at all. -/
def Call.Looks : Call D → Prop
  | chunkSource _ _ => False
  | call => call.Reads

theorem Call.Looks.reads (h : call.Looks) : call.Reads := by
  cases call <;> first | exact h | exact h.elim

/-- A program that only looks changes nothing. -/
theorem visits_of_looks (hlooks : Only Call.Looks task)
    (h : Visits (World.mayFail env) task w t) : t = w := by
  refine hlooks.visits (fun t ↦ t = w) (fun call s r t hcall hstep hs ↦ ?_) rfl h
  refine Handler.orFails.preserves (fun t ↦ t = w) hstep hs fun h ↦ ?_
  cases call with
  | chunkSource => exact hcall.elim
  | ensureDiskHeadroom | walk | read | metadata | loadSnapshot | cacheGet | cacheKeys | embed
  | safeBatchSize | numDocs | countRows | scan | decodeBatch | indexedFilePaths | isOpened =>
    exact (congrArg Prod.snd h).symm.trans hs
  | _ => exact hcall.elim

/-! ### Calls about some paths -/

/-- The calls that change nothing about paths outside `paths`, and commit nothing. -/
def Call.Within (paths : PathBuf → Prop) : Call D → Prop
  | deleteFile path | cacheInsert path _ | cacheRemove path => paths path
  | deleteByFilePaths removed => ∀ path ∈ removed, paths path
  | addDocument document => paths document.filePath
  | insertRows rows => ∀ row ∈ rows, paths row.filePath
  | call => call.Reads

/-- The calls that read, or write without committing. -/
def Call.Writes : Call D → Prop := Call.Within fun _ ↦ True

/-- Two worlds that differ at most in what they hold of `paths`. -/
structure World.SameBut (paths : PathBuf → Prop) (w w' : World D) : Prop where
  project : w.SameProject w'
  readersOut : w'.readersOut = w.readersOut
  committed : w'.bm25.committed = w.bm25.committed
  entry : ∀ path, ¬ paths path → w'.entry path = w.entry path

namespace World.SameBut

variable {paths : PathBuf → Prop} {w w₂ w₃ : World D}

/-- A world differs from itself nowhere. -/
theorem refl (w : World D) : w.SameBut paths w := ⟨.refl w, rfl, rfl, fun _ _ ↦ rfl⟩

/-- Differences within the same paths add up to no others. -/
theorem trans (h : w.SameBut paths w₂) (h' : w₂.SameBut paths w₃) : w.SameBut paths w₃ :=
  ⟨h.project.trans h'.project, h'.readersOut.trans h.readersOut, h'.committed.trans h.committed,
    fun path hpath ↦ (h'.entry path hpath).trans (h.entry path hpath)⟩

/-- The supply of identifiers is no part of what is held. -/
theorem of_nextId {nextId : ℕ} : w.SameBut paths { w with nextId } :=
  ⟨⟨rfl, rfl, rfl, rfl⟩, rfl, rfl, fun _ _ ↦ rfl⟩

end World.SameBut

/-- An entry is its rows, its documents and its record. -/
theorem World.entry_congr {w w' : World D} {path : PathBuf} (hrows : w'.rowsAt path = w.rowsAt path)
    (hdocuments : w'.documentsAt path = w.documentsAt path)
    (hcache : w'.cache.lookup path = w.cache.lookup path) : w'.entry path = w.entry path := by
  rw [World.entry, World.entry, hrows, hdocuments, hcache]

/-- What is queued last is applied last. -/
theorem current_append (committed : List Document) (pending : List WriterOp) (op : WriterOp) :
    TantivyIndex.current ⟨committed, pending ++ [op]⟩ =
      op.apply (TantivyIndex.current ⟨committed, pending⟩) := by
  simp [TantivyIndex.current]

/-- A call about some paths leaves the others alone. -/
theorem sameBut_of_within {paths : PathBuf → Prop}
    {r : Except String call.Ret} (hwithin : call.Within paths)
    (h : World.handle env call w = (r, t)) : w.SameBut paths t := by
  have hreads : call.Reads → w.SameBut paths t := by
    intro hreads
    obtain ⟨nextId, rfl⟩ := handle_of_reads hreads h
    exact .of_nextId
  cases call with
  | deleteFile path =>
    cases h
    refine ⟨⟨rfl, rfl, rfl, rfl⟩, rfl, rfl, fun p hp ↦ World.entry_congr rfl ?_ rfl⟩
    -- What the call deletes is none of what `p` has.
    have hne : p ≠ path := fun heq ↦ hp (heq ▸ hwithin)
    rw [World.documentsAt, current_append, WriterOp.apply, List.filter_filter]
    refine List.filter_congr fun document _ ↦ ?_
    by_cases heq : document.filePath = p
    · simp [heq, hne]
    · simp [heq]
  | addDocument document =>
    cases h
    refine ⟨⟨rfl, rfl, rfl, rfl⟩, rfl, rfl, fun p hp ↦ World.entry_congr rfl ?_ rfl⟩
    have hne : document.filePath ≠ p := fun heq ↦ hp (heq ▸ hwithin)
    rw [World.documentsAt, current_append, WriterOp.apply, List.filter_append]
    simp [World.documentsAt, hne]
  | deleteByFilePaths removed =>
    cases h
    refine ⟨⟨rfl, rfl, rfl, rfl⟩, rfl, rfl, fun p hp ↦ World.entry_congr ?_ rfl rfl⟩
    rw [World.rowsAt, List.filter_filter]
    refine List.filter_congr fun row _ ↦ ?_
    by_cases heq : row.filePath = p
    · simp [heq, show p ∉ removed from fun hin ↦ hp (hwithin p hin)]
    · simp [heq]
  | insertRows rows =>
    cases h
    refine ⟨⟨rfl, rfl, rfl, rfl⟩, rfl, rfl, fun p hp ↦ World.entry_congr ?_ rfl rfl⟩
    have hrows : rows.filter (fun row ↦ row.filePath = p) = [] :=
      List.filter_eq_nil_iff.2 fun row hrow heq ↦ hp (of_decide_eq_true heq ▸ hwithin row hrow)
    rw [World.rowsAt, List.filter_append, hrows, List.append_nil, World.rowsAt]
  | cacheInsert path metadata =>
    cases h
    refine ⟨⟨rfl, rfl, rfl, rfl⟩, rfl, rfl, fun p hp ↦ World.entry_congr rfl rfl ?_⟩
    have hne : p ≠ path := fun heq ↦ hp (heq ▸ hwithin)
    simp [hne]
  | cacheRemove path =>
    cases h
    refine ⟨⟨rfl, rfl, rfl, rfl⟩, rfl, rfl, fun p hp ↦ World.entry_congr rfl rfl ?_⟩
    have hne : p ≠ path := fun heq ↦ hp (heq ▸ hwithin)
    simp [hne]
  | _ => exact hreads hwithin

/-- **A program about some paths leaves the others alone**, wherever it is cut off and whichever of
its calls fail. -/
theorem World.SameBut.visits {paths : PathBuf → Prop} (hwithin : Only (Call.Within paths) task)
    (h : Visits (World.mayFail env) task w t) : w.SameBut paths t :=
  hwithin.visits (w.SameBut paths) (fun _ _ _ _ hcall hstep hs ↦
    Handler.orFails.preserves (w.SameBut paths) hstep hs fun h ↦
      hs.trans (sameBut_of_within hcall h)) (.refl w) h

/-! ### Calls that leave the stores alone -/

/-- The calls that change neither store, nor what is queued for BM25. -/
def Call.KeepsStores : Call D → Prop
  | cacheInsert _ _ | cacheRemove _ | saveSnapshot _ | removeSnapshot | newIndexer | setOpened
  | excludeReaders | admitReaders => True
  | call => call.Reads

/-- **A program that leaves the stores alone** does so wherever it is cut off. -/
theorem visits_of_keepsStores (hkeeps : Only Call.KeepsStores task)
    (h : Visits (World.mayFail env) task w t) :
    t.vectors = w.vectors ∧ t.bm25 = w.bm25 := by
  refine hkeeps.visits (fun t ↦ t.vectors = w.vectors ∧ t.bm25 = w.bm25)
    (fun call s r t hcall hstep hs ↦ ?_) ⟨rfl, rfl⟩ h
  refine Handler.orFails.preserves (fun t ↦ t.vectors = w.vectors ∧ t.bm25 = w.bm25) hstep hs
    fun h ↦ ?_
  have hreads : call.Reads → t.vectors = w.vectors ∧ t.bm25 = w.bm25 := by
    intro hreads
    obtain ⟨nextId, rfl⟩ := handle_of_reads hreads h
    exact hs
  cases call with
  | cacheInsert | cacheRemove | saveSnapshot | removeSnapshot | newIndexer | setOpened
  | excludeReaders | admitReaders =>
    cases h
    exact hs
  | _ => exact hreads hcall

/-! ### Preparing only reads -/

/-- The calls that preparing a file makes. -/
def Call.Prepares (path : PathBuf) : Call D → Prop
  | ensureDiskHeadroom | embed _ => True
  | read p | metadata p | cacheGet p | chunkSource p _ => p = path
  | _ => False

theorem Call.Prepares.reads {path : PathBuf} (h : call.Prepares path) : call.Reads := by
  cases call <;> trivial

section Prepares

variable (path : PathBuf)

theorem only_failingAs {C : Call D → Prop} {kind : String → IndexingError}
    (h : Only C task) : Only C (failingAs kind task) :=
  only_mapError.2 h

/-- A preparing call is a program that prepares. -/
theorem prepares_request (h : call.Prepares path) : Only (Call.Prepares path) (request call) :=
  only_perform.2 h

/-- A reading call is a program that reads. -/
theorem reads_request (h : call.Reads) : Only Call.Reads (request call) :=
  only_perform.2 h

/-- The filters ask for the size of the file. -/
theorem prepares_shouldProcessFile : Only (Call.Prepares path) (shouldProcessFile env path) := by
  unfold shouldProcessFile
  split
  · exact only_pure
  · exact (only_failingAs (prepares_request path (by rfl))).bind fun _ ↦ only_pure

/-- The stat is asked for. -/
theorem prepares_hasStatChanged :
    Only (Call.Prepares path) (hasStatChanged path : Task D Bool) :=
  only_failingAs <| Only.bind (prepares_request path (by rfl)) fun _ ↦
    Only.bind (prepares_request path (by rfl)) fun _ ↦ only_pure

/-- The file is read. -/
theorem prepares_readToString : Only (Call.Prepares path) (readToString path : Task D String) :=
  Only.bind (prepares_request path (by rfl)) fun bytes ↦ by
    rcases String.fromUTF8? bytes with - | content
    · exact only_fail
    · exact only_pure

variable [DecidableEq D]

theorem prepares_hasFileChanged (content : String) :
    Only (Call.Prepares path) (hasFileChanged env path content) :=
  only_failingAs <| Only.bind (prepares_request path (by rfl)) fun _ ↦ only_pure

/-- Processing a file is made of these. -/
theorem prepares_processFileSync : Only (Call.Prepares path) (processFileSync env path) := by
  refine (prepares_shouldProcessFile path).bind fun processes ↦ ?_
  split
  · exact only_fail
  refine (prepares_hasStatChanged path).bind fun statChanged ↦ ?_
  split
  · exact only_fail
  refine (only_failingAs (prepares_readToString path)).bind fun content ↦ ?_
  have hsecrets : Only (Call.Prepares path) (checkSecrets env content) := by
    unfold checkSecrets
    split
    · exact only_fail
    · exact only_pure
  refine hsecrets.bind fun _ ↦ (prepares_hasFileChanged path content).bind fun fileChanged ↦ ?_
  split
  · exact only_fail
  refine (only_failingAs (prepares_request path (by rfl))).bind fun chunks ↦ ?_
  split
  · exact only_fail
  · exact only_pure

/-- **Preparing a file makes calls about that file only.** -/
theorem prepares_prepareFile (consult : Bool) :
    Only (Call.Prepares path) (prepareFile env path consult) := by
  refine Only.bind (prepares_request path (by trivial)) fun _ ↦
    (prepares_shouldProcessFile path).bind fun processes ↦ ?_
  split
  · exact only_pure
  extract_lets afterHash afterStat
  have hafterHash : ∀ fileChanged, Only (Call.Prepares path) (afterHash fileChanged) := by
    intro fileChanged
    simp only [afterHash]
    split
    · exact only_pure
    exact (prepares_processFileSync path).bind fun processed ↦
      (only_failingAs (prepares_request path (by trivial))).bind fun _ ↦ only_pure
  have hafterStat : ∀ statChanged, Only (Call.Prepares path) (afterStat statChanged) := by
    intro statChanged
    simp only [afterStat]
    split
    · exact only_pure
    refine (only_mapError.2 (prepares_readToString path)).bind fun content ↦ ?_
    split
    · exact (prepares_hasFileChanged path content).bind hafterHash
    · exact only_pure.bind hafterHash
  split
  · exact (prepares_hasStatChanged path).bind hafterStat
  · exact only_pure.bind hafterStat

theorem reads_processFileSync : Only Call.Reads (processFileSync env path) :=
  (prepares_processFileSync path).mono fun _ h ↦ h.reads

/-- **It writes nothing.** -/
theorem reads_prepareFile (consult : Bool) : Only Call.Reads (prepareFile env path consult) :=
  (prepares_prepareFile path consult).mono fun _ h ↦ h.reads

end Prepares

/-- A looking call is a program that looks. -/
theorem looks_request (h : call.Looks) : Only Call.Looks (request call) :=
  only_perform.2 h

/-- Building a Merkle tree changes nothing. -/
theorem looks_fromDirectory : Only Call.Looks (fromDirectory env) :=
  Only.bind (looks_request (by trivial)) fun _ ↦ Only.foldlM fun _ _ _ ↦
    Only.bind (looks_request (by trivial)) fun _ ↦
      Only.bind (looks_request (by trivial)) fun _ ↦ only_pure

/-- Recording a file changes the metadata cache only. -/
theorem keepsStores_recordIfIndexed {file : PreparedFile} :
    Only Call.KeepsStores (recordIfIndexed env file) := by
  unfold recordIfIndexed
  split
  · exact only_pure
  · exact Only.bind (only_failingAs (only_perform.2 (by trivial))) fun _ ↦
      only_failingAs (only_perform.2 (by trivial))

theorem keepsStores_forgetGone {stats : IndexStats} {path : PathBuf} :
    Only Call.KeepsStores (forgetGone stats path : Task D IndexStats) := by
  refine Only.bind (only_attempt.2 (only_failingAs (only_perform.2 (by trivial))))
    fun outcome ↦ ?_
  rcases outcome with e | u
  · exact only_pure
  · exact only_pure

/-! ### Writing stays within its paths -/

section Within

variable {paths : PathBuf → Prop} {removed : List PathBuf} {pending : PendingWrite}

/-- A call within some paths is a program within them. -/
theorem within_request (h : call.Within paths) : Only (Call.Within paths) (request call) :=
  only_perform.2 h

theorem within_of_reads (h : Only Call.Reads task) : Only (Call.Within paths) task :=
  h.mono fun call hreads ↦ by
    cases call <;> first | exact hreads | exact hreads.elim

/-- Queueing chunks is within the paths they are at. -/
theorem within_indexChunks {chunks : List CodeChunk}
    (h : ∀ chunk ∈ chunks, paths chunk.context.filePath) :
    Only (Call.Within paths) (indexChunks chunks : Task D Unit) :=
  Only.forEach fun chunk hchunk ↦ only_mapError.2 (within_request (h chunk hchunk))

/-- Deleting chunks is within the paths they are deleted from. -/
theorem within_deleteFilesChunks (h : ∀ path ∈ removed, paths path) :
    Only (Call.Within paths) (deleteFilesChunks removed : Task D Unit) :=
  Only.bind (Only.forEach fun path hpath ↦ within_request (by exact h path hpath)) fun _ ↦
    only_mapError.2 (within_request h)

/-- Inserting rows is within the paths they are at. -/
theorem within_insertChunks {rows : List Row} (h : ∀ row ∈ rows, paths row.filePath) :
    Only (Call.Within paths) (insertChunks rows : Task D Unit) := by
  unfold insertChunks
  split
  · exact only_pure
  · exact only_mapError.2 (within_request h)

/-- Recording a file is within its path. -/
theorem within_recordIfIndexed {file : PreparedFile} (h : paths file.path) :
    Only (Call.Within paths) (recordIfIndexed env file) := by
  unfold recordIfIndexed
  split
  · exact only_pure
  · exact Only.bind (only_failingAs (within_request (by trivial))) fun _ ↦
      only_failingAs (within_request h)

/-- **A write touches its own paths only**: those it drops, and those of its files and chunks. -/
theorem within_writeFiles {files : List PreparedFile}
    (hchunks : ∀ file ∈ files, ∀ chunk ∈ file.chunks, paths chunk.context.filePath)
    (hremoved : ∀ path ∈ removed, paths path) (hfiles : ∀ file ∈ files, paths file.path) :
    Only (Call.Within paths) (writeFiles env files removed) := by
  unfold writeFiles
  split
  · exact only_pure
  refine (within_deleteFilesChunks fun path hpath ↦ ?_).bind fun _ ↦ ?_
  · rcases List.mem_append.1 hpath with hpath | hpath
    · exact hremoved path hpath
    · obtain ⟨file, hfile, rfl⟩ := List.mem_map.1 hpath
      exact hfiles file hfile
  refine (Only.forEach fun file hfile ↦ within_indexChunks (hchunks file hfile)).bind fun _ ↦ ?_
  refine (within_insertChunks fun row hrow ↦ ?_).bind fun _ ↦ ?_
  · obtain ⟨file, hfile, hrow⟩ := List.mem_flatMap.1 hrow
    refine hchunks file hfile row.chunk ?_
    rw [← file.map_chunk_rows]
    exact List.mem_map_of_mem hrow
  · exact Only.forEach fun file hfile ↦ within_recordIfIndexed (hfiles file hfile)

/-- Forgetting a file is within its path. -/
theorem within_forgetGone {stats : IndexStats} {path : PathBuf} (h : paths path) :
    Only (Call.Within paths) (forgetGone stats path : Task D IndexStats) := by
  refine Only.bind (only_attempt.2 (only_failingAs (within_request (by exact h))))
    fun outcome ↦ ?_
  rcases outcome with e | u
  · exact only_pure
  · exact only_pure

/-- **So does a flush.** -/
theorem within_flush {stats : IndexStats}
    (hchunks : ∀ file ∈ pending.files, ∀ chunk ∈ file.chunks, paths chunk.context.filePath)
    (hpaths : ∀ path ∈ pending.paths, paths path) :
    Only (Call.Within paths) (pending.flush env stats) := by
  have hremoved : ∀ path ∈ pending.removed, paths path :=
    fun path h ↦ hpaths path (List.mem_append_left _ h)
  have hfiles : ∀ file ∈ pending.files, paths file.path :=
    fun file h ↦ hpaths _ (mem_paths_files h)
  refine (only_attempt.2 (within_writeFiles hchunks hremoved hfiles)).bind fun outcome ↦ ?_
  rcases outcome with e | u
  · exact only_pure
  · exact Only.foldlM fun _ path hpath ↦
      within_forgetGone (hremoved path (List.mem_append_left _ hpath))

/-- A flush of prepared files touches the paths it is about. -/
theorem within_flush_of_atPath {stats : IndexStats} (hat : ∀ file ∈ pending.files, file.AtPath) :
    Only (Call.Within (· ∈ pending.paths)) (pending.flush env stats) :=
  within_flush (fun file hfile chunk hchunk ↦ hat file hfile chunk hchunk ▸ mem_paths_files hfile)
    fun _ h ↦ h

theorem writes_writeFiles {files : List PreparedFile} :
    Only Call.Writes (writeFiles env files removed) :=
  within_writeFiles (fun _ _ _ _ ↦ trivial) (fun _ _ ↦ trivial) fun _ _ ↦ trivial

theorem writes_flush {stats : IndexStats} : Only Call.Writes (pending.flush env stats) :=
  within_flush (fun _ _ _ _ ↦ trivial) fun _ _ ↦ trivial

end Within

/-! ### Refilling -/

/-- The calls of a refill. -/
def Call.Refills : Call D → Prop
  | openWriter | addDocument _ | commit | setOpened => True
  | call => call.Looks

/-- Two worlds that differ at most in the BM25 index and the indexer. -/
structure World.SameButBm25 (w w' : World D) : Prop where
  tree : w'.tree = w.tree
  walkErrors : w'.walkErrors = w.walkErrors
  snapshot : w'.snapshot = w.snapshot
  cache : w'.cache = w.cache
  vectors : w'.vectors = w.vectors
  readersOut : w'.readersOut = w.readersOut

/-- **A refill changes the BM25 index only.** -/
theorem World.SameButBm25.visits (hrefills : Only Call.Refills task)
    (h : Visits (World.mayFail env) task w t) : w.SameButBm25 t := by
  refine hrefills.visits w.SameButBm25 (fun call s r t hcall hstep hs ↦ ?_)
    ⟨rfl, rfl, rfl, rfl, rfl, rfl⟩ h
  refine Handler.orFails.preserves w.SameButBm25 hstep hs fun h ↦ ?_
  have hlooks : call.Looks → w.SameButBm25 t := by
    intro hlooks
    obtain ⟨nextId, rfl⟩ := handle_of_reads hlooks.reads h
    exact ⟨hs.tree, hs.walkErrors, hs.snapshot, hs.cache, hs.vectors, hs.readersOut⟩
  cases call with
  | openWriter | addDocument | commit | setOpened =>
    cases h
    exact ⟨hs.tree, hs.walkErrors, hs.snapshot, hs.cache, hs.vectors, hs.readersOut⟩
  | _ => exact hlooks hcall

section Refills

/-- A refilling call is a program that refills. -/
theorem refills_request (h : call.Refills) : Only Call.Refills (request call) :=
  only_perform.2 h

/-- Queueing chunks is part of a refill. -/
theorem refills_indexChunks {chunks : List CodeChunk} :
    Only Call.Refills (indexChunks chunks : Task D Unit) :=
  Only.forEach fun _ _ ↦ only_mapError.2 (refills_request (by trivial))

theorem refills_scanChunks {batches : List (List Row)} {indexed : ℕ} :
    Only Call.Refills (scanChunks batches indexed : Task D ℕ) := by
  induction batches generalizing indexed with
  | nil => exact only_pure
  | cons batch rest ih =>
    exact Only.bind (refills_request (by trivial)) fun _ ↦ refills_indexChunks.bind fun _ ↦ ih

/-- The refill of an indexer that is opened. -/
theorem refills_rebuildBm25IfEmpty :
    Only Call.Refills (rebuildBm25IfEmpty : Task D (Option ℕ)) := by
  refine Only.bind (refills_request (by trivial)) fun docs ↦ ?_
  split
  · exact only_pure
  refine Only.bind (only_mapError.2 (refills_request (by trivial))) fun stored ↦ ?_
  split
  · exact only_pure
  exact Only.bind
    (only_mapError.2 (Only.bind (refills_request (by trivial)) fun _ ↦ refills_scanChunks)) fun _ ↦
    Only.bind (only_mapError.2 (refills_request (by trivial))) fun _ ↦ only_pure

/-- The refill of an index that is there already. -/
theorem refills_rebuildBm25FromExistingStore :
    Only Call.Refills (rebuildBm25FromExistingStore : Task D (Option ℕ)) :=
  Only.bind (refills_request (by trivial)) fun _ ↦ refills_rebuildBm25IfEmpty

/-- Opening an indexer refills at most. -/
theorem refills_ensureIndexer : Only Call.Refills (ensureIndexer : Task D Unit) := by
  refine Only.bind (refills_request (by trivial)) fun opened ↦ ?_
  split
  · exact only_pure
  exact Only.bind (refills_request (by trivial)) fun _ ↦ refills_rebuildBm25IfEmpty.bind fun _ ↦
    refills_request (by trivial)

/-- The refill beside a comparison of trees. -/
theorem refills_refillBeside {old : Option (FileSystemMerkle D)} :
    Only Call.Refills (refillBeside old) := by
  refine Only.bind (refills_request (by trivial)) fun opened ↦ ?_
  split
  · refine Only.bind (refills_request (by trivial)) fun docs ↦ ?_
    split
    · exact refills_rebuildBm25FromExistingStore.bind fun _ ↦ only_pure
    · exact only_pure
  · exact only_pure

end Refills

/-! ### The loop over changed files -/

/-- The calls between two commits of a run: they read, write, or shut the readers out. -/
def Call.Loops : Call D → Prop
  | excludeReaders => True
  | call => call.Writes

section Loops

/-- What writes without committing may stand in the loop. -/
theorem loops_of_writes (h : Only Call.Writes task) : Only Call.Loops task :=
  h.mono fun call hwrites ↦ by
    cases call <;> first | exact hwrites | trivial

theorem loops_beforeWrite {exclusion : ReaderExclusion} {entered : Bool} :
    Only Call.Loops (beforeWrite exclusion entered : Task D Unit) := by
  unfold beforeWrite
  split
  · exact only_pure
  · cases exclusion
    · exact only_pure
    · exact only_perform.2 trivial

variable [DecidableEq D]

theorem loops_prepareFile {path : PathBuf} {consult : Bool} :
    Only Call.Loops (prepareFile env path consult) :=
  loops_of_writes (within_of_reads (reads_prepareFile path consult))

/-- The loop is made of such calls. -/
theorem loops_prepareAndWrite {exclusion : ReaderExclusion} {toPrepare : List (PathBuf × Bool)}
    {pending : PendingWrite} {entered : Bool} {stats : IndexStats} :
    Only Call.Loops (prepareAndWrite env exclusion toPrepare pending entered stats) := by
  induction toPrepare generalizing pending entered stats with
  | nil => exact loops_beforeWrite.bind fun _ ↦ loops_of_writes writes_flush
  | cons head rest ih =>
    obtain ⟨path, consult⟩ := head
    rw [prepareAndWrite]
    refine (only_attempt.2 loops_prepareFile).bind fun outcome ↦ ?_
    simp only
    split
    · exact loops_beforeWrite.bind fun _ ↦ (loops_of_writes writes_flush).bind fun _ ↦ ih
    · exact ih

end Loops

/-! ### An incremental update -/

/-- The calls that leave the snapshot alone. -/
def Call.KeepsSnapshot : Call D → Prop
  | saveSnapshot _ | removeSnapshot => False
  | _ => True

/-- **A program that saves no snapshot** leaves the stored one, and the files, as they are. -/
theorem visits_of_keepsSnapshot (hkeeps : Only Call.KeepsSnapshot task)
    (h : Visits (World.mayFail env) task w t) :
    t.tree = w.tree ∧ t.walkErrors = w.walkErrors ∧ t.snapshot = w.snapshot := by
  refine hkeeps.visits
    (fun t ↦ t.tree = w.tree ∧ t.walkErrors = w.walkErrors ∧ t.snapshot = w.snapshot)
    (fun call s r t hcall hstep hs ↦ ?_) ⟨rfl, rfl, rfl⟩ h
  refine Handler.orFails.preserves
    (fun t ↦ t.tree = w.tree ∧ t.walkErrors = w.walkErrors ∧ t.snapshot = w.snapshot) hstep hs
    fun h ↦ ?_
  cases call with
  | saveSnapshot => exact hcall.elim
  | removeSnapshot => exact hcall.elim
  | chunkSource path text =>
    obtain ⟨nextId, rfl⟩ := handle_of_reads (by trivial) h
    exact hs
  | _ =>
    cases h
    exact hs

section Snapshot

/-- A refill saves no snapshot. -/
theorem keepsSnapshot_of_refills (h : Only Call.Refills task) : Only Call.KeepsSnapshot task :=
  h.mono fun call hrefills ↦ by
    cases call <;> trivial

theorem keepsSnapshot_of_loops (h : Only Call.Loops task) : Only Call.KeepsSnapshot task :=
  h.mono fun call hloops ↦ by
    cases call <;> trivial

/-- Letting the readers in again saves none either. -/
theorem keepsSnapshot_admitAfter {exclusion : ReaderExclusion} (h : Only Call.KeepsSnapshot task) :
    Only Call.KeepsSnapshot (exclusion.admitAfter task) := by
  refine (only_attempt.2 h).bind fun outcome ↦ Only.bind ?_ fun _ ↦ ?_
  · cases exclusion
    · exact only_pure
    · exact only_perform.2 trivial
  · rcases outcome with e | a
    · exact only_fail
    · exact only_pure

/-- An incremental update saves no snapshot. -/
theorem keepsSnapshot_incrementalUpdate [DecidableEq D] {exclusion : ReaderExclusion}
    {old merkle : FileSystemMerkle D} :
    Only Call.KeepsSnapshot (incrementalUpdate env exclusion old merkle) := by
  unfold incrementalUpdate
  extract_lets unchanged changes
  split
  · exact only_pure
  split
  · exact only_pure
  refine Only.bind ?_ fun _ ↦ only_pure
  refine (keepsSnapshot_of_refills refills_ensureIndexer).bind fun _ ↦
    Only.bind (only_perform.2 trivial) fun _ ↦
    (keepsSnapshot_of_loops loops_prepareAndWrite).bind fun _ ↦ Only.bind ?_ fun _ ↦ only_pure
  exact keepsSnapshot_admitAfter (only_mapError.2 (only_perform.2 trivial))

end Snapshot

/-! ### Programs that pass every error on -/

section FailFast

/-- A call passes its own error on. -/
theorem failFast_request : FailFast (request call) := failFast_perform

/-- Wrapping an error passes it on. -/
theorem failFast_failingAs {kind : String → IndexingError}
    (h : FailFast task) : FailFast (failingAs kind task) :=
  h.mapError

section Prepare

variable (path : PathBuf)

/-- The filters pass on what asking for the size may end in. -/
theorem failFast_shouldProcessFile : FailFast (shouldProcessFile env path) := by
  unfold shouldProcessFile
  split
  · exact failFast_pure
  · exact (failFast_failingAs failFast_request).bind fun _ ↦ failFast_pure

theorem failFast_hasStatChanged : FailFast (hasStatChanged path : Task D Bool) :=
  failFast_failingAs <| failFast_request.bind fun _ ↦ failFast_request.bind fun _ ↦ failFast_pure

theorem failFast_readToString : FailFast (readToString path : Task D String) :=
  failFast_request.bind fun bytes ↦ by
    rcases String.fromUTF8? bytes with - | content
    · exact failFast_fail
    · exact failFast_pure

variable [DecidableEq D]

theorem failFast_hasFileChanged (content : String) : FailFast (hasFileChanged env path content) :=
  failFast_failingAs <| failFast_request.bind fun _ ↦ failFast_pure

/-- Processing a file ends with the first error. -/
theorem failFast_processFileSync : FailFast (processFileSync env path) := by
  refine (failFast_shouldProcessFile path).bind fun processes ↦ ?_
  split
  · exact failFast_fail
  refine (failFast_hasStatChanged path).bind fun statChanged ↦ ?_
  split
  · exact failFast_fail
  refine (failFast_failingAs (failFast_readToString path)).bind fun content ↦ ?_
  have hsecrets : FailFast (checkSecrets env content) := by
    unfold checkSecrets
    split
    · exact failFast_fail
    · exact failFast_pure
  refine hsecrets.bind fun _ ↦ (failFast_hasFileChanged path content).bind fun fileChanged ↦ ?_
  split
  · exact failFast_fail
  refine (failFast_failingAs failFast_request).bind fun chunks ↦ ?_
  split
  · exact failFast_fail
  · exact failFast_pure

/-- A preparation ends with the first error. -/
theorem failFast_prepareFile (consult : Bool) : FailFast (prepareFile env path consult) := by
  refine failFast_request.bind fun _ ↦ (failFast_shouldProcessFile path).bind fun processes ↦ ?_
  split
  · exact failFast_pure
  extract_lets afterHash afterStat
  have hafterHash : ∀ fileChanged, FailFast (afterHash fileChanged) := by
    intro fileChanged
    simp only [afterHash]
    split
    · exact failFast_pure
    exact (failFast_processFileSync path).bind fun processed ↦
      (failFast_failingAs failFast_request).bind fun _ ↦ failFast_pure
  have hafterStat : ∀ statChanged, FailFast (afterStat statChanged) := by
    intro statChanged
    simp only [afterStat]
    split
    · exact failFast_pure
    refine (failFast_readToString path).mapError.bind fun content ↦ ?_
    split
    · exact (failFast_hasFileChanged path content).bind hafterHash
    · exact failFast_pure.bind hafterHash
  split
  · exact (failFast_hasStatChanged path).bind hafterStat
  · exact failFast_pure.bind hafterStat

end Prepare

/-- Queueing chunks ends with the first that is refused. -/
theorem failFast_indexChunks {chunks : List CodeChunk} :
    FailFast (indexChunks chunks : Task D Unit) :=
  FailFast.forEach fun _ ↦ failFast_request.mapError

/-- A commit passes its error on. -/
theorem failFast_commit : FailFast (commit : Task D Unit) := failFast_request.mapError

/-- Deleting chunks ends with the first store that refuses. -/
theorem failFast_deleteFilesChunks {paths : List PathBuf} :
    FailFast (deleteFilesChunks paths : Task D Unit) :=
  (FailFast.forEach fun _ ↦ failFast_request).bind fun _ ↦ failFast_request.mapError

theorem failFast_insertChunks {rows : List Row} : FailFast (insertChunks rows : Task D Unit) := by
  unfold insertChunks
  split
  · exact failFast_pure
  · exact failFast_request.mapError

theorem failFast_scanChunks {batches : List (List Row)} {indexed : ℕ} :
    FailFast (scanChunks batches indexed : Task D ℕ) := by
  induction batches generalizing indexed with
  | nil => exact failFast_pure
  | cons batch rest ih =>
    exact failFast_request.bind fun _ ↦ failFast_indexChunks.bind fun _ ↦ ih

/-- A refill stops at its first error. -/
theorem failFast_rebuildBm25IfEmpty : FailFast (rebuildBm25IfEmpty : Task D (Option ℕ)) := by
  refine failFast_request.bind fun docs ↦ ?_
  split
  · exact failFast_pure
  refine failFast_request.mapError.bind fun stored ↦ ?_
  split
  · exact failFast_pure
  exact (failFast_request.bind fun _ ↦ failFast_scanChunks).mapError.bind fun _ ↦
    failFast_commit.bind fun _ ↦ failFast_pure

theorem failFast_ensureIndexer : FailFast (ensureIndexer : Task D Unit) := by
  refine failFast_request.bind fun opened ↦ ?_
  split
  · exact failFast_pure
  exact failFast_request.bind fun _ ↦ failFast_rebuildBm25IfEmpty.bind fun _ ↦ failFast_request

theorem failFast_refillBeside {old : Option (FileSystemMerkle D)} :
    FailFast (refillBeside old) := by
  refine failFast_request.bind fun opened ↦ ?_
  split
  · refine failFast_request.bind fun docs ↦ ?_
    split
    · exact (failFast_request.bind fun _ ↦ failFast_rebuildBm25IfEmpty).bind fun _ ↦ failFast_pure
    · exact failFast_pure
  · exact failFast_pure

theorem failFast_beforeWrite {exclusion : ReaderExclusion} {entered : Bool} :
    FailFast (beforeWrite exclusion entered : Task D Unit) := by
  unfold beforeWrite
  split
  · exact failFast_pure
  · cases exclusion
    · exact failFast_pure
    · exact failFast_request

theorem failFast_dropFilesOutsideWalk {walked : List PathBuf} {walkErrors : ℕ} :
    FailFast (dropFilesOutsideWalk walked walkErrors : Task D ℕ) := by
  unfold dropFilesOutsideWalk
  split
  · exact failFast_pure
  refine FailFast.bind (failFast_request.mapError.bind fun indexed ↦ ?_) fun _ ↦ failFast_pure
  extract_lets gone
  split
  · exact failFast_pure
  · exact failFast_deleteFilesChunks.bind fun _ ↦ failFast_commit.bind fun _ ↦
      (FailFast.forEach fun _ ↦ failFast_failingAs failFast_request).bind fun _ ↦ failFast_pure

theorem failFast_fromDirectory : FailFast (fromDirectory env) := by
  refine failFast_request.bind fun walked ↦ FailFast.foldlM fun _ _ ↦ ?_
  exact failFast_request.bind fun _ ↦ failFast_request.bind fun _ ↦ failFast_pure

end FailFast

end RustCodeMcp
