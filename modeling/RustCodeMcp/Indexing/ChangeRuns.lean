import RustCodeMcp.Indexing.WriteRuns

/-!
# Runs over a list of changes

What processing changes does to the paths it is given, when its surroundings carry every call out.
The list is prepared in turn and written whenever enough rows are pending; since every path occurs
once, where the writes fall makes no difference to what a path holds in the end
(`run_prepareAndWrite`): the outcome for a path is read off the world before the run.

Every round of the loop deals with one path, and leaves it in one of three ways: its file is ready
to be written, its rows are to be removed, or it is left alone. `Prepared` tells these apart by the
file and by the entry before the run, and `LoopDone` is the same for all paths of a list at once.

**Writes in the middle of the loop** do not show in the outcome. What is pending when the loop is
over, and what was written on the way, are about different paths, and what a write leaves alone
(`entry_flush_of_not_mem`) is what the rest of the loop starts from.
-/

namespace RustCodeMcp

open Effect

variable {D : Type} {env : Env D}

/-! ### One write -/

/-- What a path holds once its prepared file is written. -/
def freshEntry (env : Env D) (next : ℕ) (path : PathBuf) (file : FileEntry) (text : String)
    (bodies : List ChunkBody) : Entry D where
  rows := (preparedFile env next path text bodies).rows
  documents := (withIds next bodies).map document
  metadata := some (env.record file)

/-- The prepared file is one the current tree and its chunker could have given. -/
def PreparedFile.Ready (env : Env D) (w : World D) (prepared : PreparedFile) : Prop :=
  ∃ next path file text bodies, prepared = preparedFile env next path text bodies ∧
    w.tree.lookup path = some file ∧ env.chunksOf path file = some (text, bodies)

theorem map_body_withIds (next : ℕ) (bodies : List ChunkBody) :
    (withIds next bodies).map CodeChunk.body = bodies := by
  refine List.ext_getElem (by simp [withIds]) fun i _ _ ↦ ?_
  simp [withIds, CodeChunk.body]

section Ready

variable {w : World D} {path : PathBuf} {file : FileEntry} {text : String}
  {bodies : List ChunkBody}

theorem preparedFile_atPath (next : ℕ) (hchunks : env.chunksOf path file = some (text, bodies)) :
    (preparedFile env next path text bodies).AtPath := by
  intro chunk hchunk
  have hbody : chunk.body ∈ bodies := by
    rw [← map_body_withIds next bodies]
    exact List.mem_map_of_mem hchunk
  exact Env.filePath_of_mem_chunksOf hchunks _ hbody

theorem preparedFile_chunks_ne_nil (next : ℕ)
    (hchunks : env.chunksOf path file = some (text, bodies)) :
    (preparedFile env next path text bodies).chunks ≠ [] := by
  intro h
  refine (Env.chunksOf_eq_some.1 hchunks).2.2.2.2 ?_
  rw [← map_body_withIds next bodies]
  exact List.map_eq_nil_iff.2 h

theorem recordOf_preparedFile (next : ℕ) (hfile : w.tree.lookup path = some file)
    (hchunks : env.chunksOf path file = some (text, bodies)) :
    w.recordOf env (preparedFile env next path text bodies) = some (env.record file) := by
  have hutf8 := toByteArray_of_fromUTF8? (Env.chunksOf_eq_some.1 hchunks).2.1
  simp [World.recordOf, preparedFile, hfile, Env.record, hutf8]

theorem PreparedFile.Ready.atPath {prepared : PreparedFile} (h : prepared.Ready env w) :
    prepared.AtPath := by
  obtain ⟨next, path, file, text, bodies, rfl, -, hchunks⟩ := h
  exact preparedFile_atPath next hchunks

theorem PreparedFile.Ready.isSome_lookup {prepared : PreparedFile} (h : prepared.Ready env w) :
    (w.tree.lookup prepared.path).isSome := by
  obtain ⟨next, path, file, text, bodies, rfl, hfile, -⟩ := h
  simp [preparedFile, hfile]

/-- The chunks of a fresh entry are those of its file. -/
theorem map_body_freshEntry (next : ℕ) :
    (freshEntry env next path file text bodies).rows.map (fun row ↦ row.chunk.body) = bodies := by
  have h : (freshEntry env next path file text bodies).rows.map Row.chunk =
      withIds next bodies := PreparedFile.map_chunk_rows
  calc (freshEntry env next path file text bodies).rows.map (fun row ↦ row.chunk.body)
      = ((freshEntry env next path file text bodies).rows.map Row.chunk).map CodeChunk.body := by
        rw [List.map_map]
        rfl
    _ = bodies := by rw [h, map_body_withIds]

end Ready

/-! ### Flushing -/

section Flush

variable {w : World D} {pending : PendingWrite} {stats : IndexStats}

/-- Counting written files asks for no retry. -/
theorem retryFiles_foldl_recordWritten (files : List PreparedFile) :
    (files.foldl IndexStats.recordWritten stats).retryFiles = stats.retryFiles := by
  induction files generalizing stats with
  | nil => rfl
  | cons file rest ih =>
    rw [List.foldl_cons, ih, IndexStats.recordWritten]
    split <;> rfl

/-- Files that are gone lose their records, and none is to be retried for it. -/
theorem run_foldlM_forgetGone (paths : List PathBuf) :
    ∃ stats', run (World.handle env) (paths.foldlM forgetGone stats) w =
      (.ok stats', w.forget paths) ∧ stats'.retryFiles = stats.retryFiles := by
  induction paths generalizing stats w with
  | nil => exact ⟨stats, by simp [World.forget], rfl⟩
  | cons path rest ih =>
    have hhead : run (World.handle env) (forgetGone stats path) w =
        (.ok stats.skip, w.forget [path]) := by
      simp [forgetGone, forgetFile, run_bind, Except.mapError, World.forget]
    obtain ⟨stats', hrun, hretry⟩ := @ih (w.forget [path]) stats.skip
    refine ⟨stats', ?_, hretry⟩
    rw [List.foldlM_cons, run_bind_ok hhead, hrun]
    rfl

/-- The effect of writing everything pending. -/
def World.flush (env : Env D) (w : World D) (pending : PendingWrite) : World D :=
  (w.write env pending.files pending.removed).forget pending.gone

/-- With every call carried out, a flush has its effect and adds nothing to retry. -/
theorem run_flush (htree : ∀ file ∈ pending.files, (w.tree.lookup file.path).isSome) :
    ∃ stats', run (World.handle env) (pending.flush env stats) w =
      (.ok stats', w.flush env pending) ∧ stats'.retryFiles = stats.retryFiles := by
  obtain ⟨stats', hrun, hretry⟩ := @run_foldlM_forgetGone _ env
    (w.write env pending.files pending.removed)
    (pending.files.foldl IndexStats.recordWritten
      { stats with skippedFiles := stats.skippedFiles + pending.cleared.length }) pending.gone
  refine ⟨stats', ?_, by rw [hretry, retryFiles_foldl_recordWritten]⟩
  simp only [PendingWrite.flush, run_bind, run_attempt,
    run_writeFiles pending.files pending.removed htree]
  exact hrun

/-- All the paths of a pending write. -/
def PendingWrite.paths (pending : PendingWrite) : List PathBuf :=
  pending.removed ++ pending.files.map PreparedFile.path

/-- The parts of the world that writing leaves alone. -/
structure World.SameProject (w w' : World D) : Prop where
  tree : w'.tree = w.tree
  walkErrors : w'.walkErrors = w.walkErrors
  snapshot : w'.snapshot = w.snapshot
  opened : w'.opened = w.opened

/-- What the paths of a pending write hold once it is written. -/
structure PendingWrite.Written (env : Env D) (pending : PendingWrite) (w w' : World D) : Prop where
  gone : ∀ path ∈ pending.gone, w'.entry path = ⟨[], [], none⟩
  cleared : ∀ path ∈ pending.cleared, w'.entry path = ⟨[], [], w.cache.lookup path⟩
  files : ∀ next path file text bodies, preparedFile env next path text bodies ∈ pending.files →
    w.tree.lookup path = some file → env.chunksOf path file = some (text, bodies) →
    w'.entry path = freshEntry env next path file text bodies

/-- **A flush writes its paths**, each of which occurs once in it. -/
theorem written_flush (hready : ∀ file ∈ pending.files, file.Ready env w)
    (hnodup : pending.paths.Nodup) : pending.Written env w (w.flush env pending) := by
  have hat : ∀ file ∈ pending.files, file.AtPath := fun file hfile ↦ (hready file hfile).atPath
  obtain ⟨hremoved, hfiles, hdisjoint⟩ := List.nodup_append'.1 hnodup
  obtain ⟨-, -, hgone⟩ := List.nodup_append'.1 hremoved
  refine ⟨fun path hpath ↦ ?_, fun path hpath ↦ ?_, ?_⟩
  · have hmem : path ∈ pending.removed := List.mem_append_left _ hpath
    rw [World.flush, World.entry_forget, World.entry_write_of_mem_removed hat hmem
      (hdisjoint hmem), if_pos hpath]
  · have hmem : path ∈ pending.removed := List.mem_append_right _ hpath
    rw [World.flush, World.entry_forget, World.entry_write_of_mem_removed hat hmem
      (hdisjoint hmem), if_neg fun h ↦ hgone h hpath]
  · intro next path file text bodies hmem hfile hchunks
    have hpath : path ∉ pending.gone := fun h ↦
      hdisjoint (List.mem_append_left _ h) (List.mem_map_of_mem hmem)
    have hentry : (w.write env pending.files pending.removed).entry path =
        freshEntry env next path file text bodies :=
      World.entry_write_of_mem hfiles hat hmem (recordOf_preparedFile next hfile hchunks)
        (preparedFile_chunks_ne_nil next hchunks)
    rw [World.flush, World.entry_forget, if_neg hpath]
    exact hentry

/-- A flush leaves all other paths alone. -/
theorem entry_flush_of_not_mem {path : PathBuf} (hready : ∀ file ∈ pending.files, file.Ready env w)
    (hpath : path ∉ pending.paths) : (w.flush env pending).entry path = w.entry path := by
  rw [PendingWrite.paths, List.mem_append, not_or] at hpath
  rw [World.flush, World.entry_forget,
    World.entry_write_of_not_mem (fun file hfile ↦ (hready file hfile).atPath) hpath.1 hpath.2,
    if_neg fun h ↦ hpath.1 (List.mem_append_left _ h)]

end Flush

/-! ### The loop over changed files -/

namespace World

variable {w w₂ : World D} {consult : Bool} {path : PathBuf} {e : Entry D}

/-- What preparing and writing a changed path leaves it with. -/
inductive Prepared (env : Env D) (w : World D) (consult : Bool) (path : PathBuf) (e : Entry D) :
    Prop
  /-- The file was prepared: the path holds its chunks. -/
  | fresh {file text bodies} (next : ℕ) (hfile : w.tree.lookup path = some file)
      (hchunks : env.chunksOf path file = some (text, bodies))
      (hdescribed : ¬ w.Described env path file)
      (he : e = freshEntry env next path file text bodies)
  /-- The file was modified into one not to process: its chunks are gone, its record stays. -/
  | cleared {file} (hfile : w.tree.lookup path = some file)
      (hprocesses : env.processes path file = false) (hconsult : consult = false)
      (he : e = ⟨[], [], w.cache.lookup path⟩)
  /-- Nothing was to be written. -/
  | kept {file} (hfile : w.tree.lookup path = some file)
      (hleft : env.processes path file = false ∧ consult = true ∨
        env.processes path file = true ∧
          (env.chunksOf path file = none ∨ w.Described env path file))
      (he : e = w.entry path)

theorem described_congr {file : FileEntry} (hentry : w₂.entry path = w.entry path) :
    w₂.Described env path file ↔ w.Described env path file := by
  have hcache : w₂.cache.lookup path = w.cache.lookup path := congrArg Entry.metadata hentry
  simp only [Described, hcache]

/-- The outcome for a path depends on its file and its entry alone. -/
theorem Prepared.congr (htree : w₂.tree = w.tree) (hentry : w₂.entry path = w.entry path)
    (h : w₂.Prepared env consult path e) : w.Prepared env consult path e := by
  have hcache : w₂.cache.lookup path = w.cache.lookup path := congrArg Entry.metadata hentry
  cases h with
  | fresh next hfile hchunks hdescribed he =>
    exact fresh next (htree ▸ hfile) hchunks (mt (described_congr hentry).2 hdescribed) he
  | cleared hfile hprocesses hconsult he =>
    exact cleared (htree ▸ hfile) hprocesses hconsult (hcache ▸ he)
  | kept hfile hleft he =>
    refine kept (htree ▸ hfile) (hleft.imp id fun h ↦ ⟨h.1, h.2.imp id ?_⟩) (hentry ▸ he)
    exact (described_congr hentry).1

theorem SameProject.refl (w : World D) : w.SameProject w := ⟨rfl, rfl, rfl, rfl⟩

/-- Two stretches of writing leave the project alone if each does. -/
theorem SameProject.trans {w₃ : World D} (h : w.SameProject w₂) (h₂ : w₂.SameProject w₃) :
    w.SameProject w₃ :=
  ⟨h₂.tree.trans h.tree, h₂.walkErrors.trans h.walkErrors, h₂.snapshot.trans h.snapshot,
    h₂.opened.trans h.opened⟩

theorem sameProject_flush {pending : PendingWrite} : w.SameProject (w.flush env pending) :=
  ⟨rfl, rfl, rfl, rfl⟩

/-- A path with a file that passes the filters and is none to index. -/
def Unindexable (env : Env D) (w : World D) (path : PathBuf) : Prop :=
  ∃ file, w.tree.lookup path = some file ∧ env.processes path file = true ∧
    env.chunksOf path file = none

end World

/-- Sending the readers out changes nothing but that they are out. -/
theorem run_exclude (exclusion : ReaderExclusion) (w : World D) :
    ∃ readersOut, run (World.handle env) exclusion.exclude w = (.ok (), { w with readersOut }) := by
  rcases exclusion with - | -
  · exact ⟨w.readersOut, rfl⟩
  · exact ⟨true, by simp [ReaderExclusion.exclude]⟩

/-- Before a write the readers are sent out, unless they are out already. -/
theorem run_beforeWrite (exclusion : ReaderExclusion) (entered : Bool) (w : World D) :
    ∃ readersOut, run (World.handle env) (beforeWrite exclusion entered) w =
      (.ok (), { w with readersOut }) := by
  rcases entered with - | -
  · exact run_exclude exclusion w
  · exact ⟨w.readersOut, rfl⟩

/-- An error asks for a retry of its own path only, and only if it is transient. -/
theorem recordError_retryFiles {stats : IndexStats} {path p : PathBuf} {e : String}
    (h : p ∈ (stats.recordError path e).retryFiles) :
    p ∈ stats.retryFiles ∨ p = path ∧ categorizeError e = .transient := by
  rcases hcategory : categorizeError e with - | -
  · exact Or.inl (by simpa [IndexStats.recordError, IndexStats.skip, hcategory] using h)
  · simpa [IndexStats.recordError, IndexStats.retry, hcategory] using h

section Loop

/-- **One round of the loop**: preparing a file of the tree and accounting for it leaves the world
as it was but for identifiers, and adds the path to the pending write, unless it is left alone. -/
theorem run_round [DecidableEq D] {w : World D} {path : PathBuf} (consult : Bool)
    {pending : PendingWrite} (stats : IndexStats) (htree : (w.tree.lookup path).isSome)
    (hready : ∀ file ∈ pending.files, file.Ready env w) :
    ∃ outcome nextId,
      run (World.handle env) (prepareFile env path consult).attempt w =
        (.ok outcome, { w with nextId }) ∧
      (∀ file ∈ (accountPreparation path consult outcome pending stats).1.files,
        file.Ready env w) ∧
      (∀ p ∈ (accountPreparation path consult outcome pending stats).2.retryFiles,
        p ∈ stats.retryFiles ∨ p = path ∧ w.Unindexable env path) ∧
      ((∃ text bodies file next, w.tree.lookup path = some file ∧
          env.chunksOf path file = some (text, bodies) ∧ ¬ w.Described env path file ∧
          (accountPreparation path consult outcome pending stats).1 =
            { pending with
              rows := pending.rows + (preparedFile env next path text bodies).chunks.length
              files := pending.files ++ [preparedFile env next path text bodies] }) ∨
        (∃ file, w.tree.lookup path = some file ∧ env.processes path file = false ∧
          consult = false ∧
          (accountPreparation path consult outcome pending stats).1 =
            { pending with cleared := pending.cleared ++ [path] }) ∨
        (w.Prepared env consult path (w.entry path) ∧
          (accountPreparation path consult outcome pending stats).1 = pending)) := by
  obtain ⟨file, hfile⟩ := Option.isSome_iff_exists.1 htree
  rcases run_prepareFile consult hfile with
    ⟨text, bodies, hchunks, hdescribed, hrun⟩ | ⟨hprocesses, hrun⟩ | ⟨hprocesses, hleft, hrun⟩
  · refine ⟨.ok (.ready _), _, by rw [run_attempt, hrun], ?_, fun p hp ↦ Or.inl hp,
      Or.inl ⟨text, bodies, file, _, hfile, hchunks, hdescribed, rfl⟩⟩
    intro prepared hprepared
    rcases List.mem_append.1 hprepared with h | h
    · exact hready prepared h
    · exact ⟨_, path, file, text, bodies, List.mem_singleton.1 h, hfile, hchunks⟩
  · refine ⟨.ok .skipped, w.nextId, by rw [run_attempt, hrun], ?_, ?_, ?_⟩
    · rcases consult with - | - <;> exact hready
    · rcases consult with - | - <;> exact fun p hp ↦ Or.inl hp
    · rcases consult with - | -
      · exact Or.inr (Or.inl ⟨file, hfile, hprocesses, rfl, rfl⟩)
      · exact Or.inr (Or.inr ⟨.kept hfile (Or.inl ⟨hprocesses, rfl⟩) rfl, rfl⟩)
  · have hkept : w.Prepared env consult path (w.entry path) :=
      .kept hfile (Or.inr ⟨hprocesses, hleft⟩) rfl
    rcases hrun with hrun | ⟨e, hrun, hpermanent⟩
    · exact ⟨.ok .unchanged, w.nextId, by rw [run_attempt, hrun], hready, fun p hp ↦ Or.inl hp,
        Or.inr (Or.inr ⟨hkept, rfl⟩)⟩
    · refine ⟨.error e, w.nextId, by rw [run_attempt, hrun], hready, fun p hp ↦ ?_,
        Or.inr (Or.inr ⟨hkept, rfl⟩)⟩
      refine (recordError_retryFiles hp).imp id fun ⟨hp, htransient⟩ ↦ ⟨hp, file, hfile,
        hprocesses, ?_⟩
      rcases hchunks : env.chunksOf path file with - | found
      · rfl
      · rw [hpermanent (by simp [hchunks])] at htransient
        cases htransient

/-- What the paths of a run over changes hold at its end, given what was pending and what was left
to prepare at its start. -/
structure LoopDone (env : Env D) (pending : PendingWrite) (toPrepare : List (PathBuf × Bool))
    (w w' : World D) : Prop where
  project : w.SameProject w'
  written : pending.Written env w w'
  prepared : ∀ path consult, (path, consult) ∈ toPrepare →
    w.Prepared env consult path (w'.entry path)
  kept : ∀ path, path ∉ pending.paths → path ∉ toPrepare.map Prod.fst →
    w'.entry path = w.entry path

theorem mem_paths_files {pending : PendingWrite} {file : PreparedFile} (h : file ∈ pending.files) :
    file.path ∈ pending.paths :=
  List.mem_append_right _ (List.mem_map_of_mem h)

namespace LoopDone

variable {pending : PendingWrite} {toPrepare : List (PathBuf × Bool)} {w w₂ w' : World D}

/-- The start may be replaced by a world with the same project, entries and records. -/
theorem congr_left (h : LoopDone env pending toPrepare w₂ w') (hproject : w.SameProject w₂)
    (hentry : ∀ path, w₂.entry path = w.entry path) : LoopDone env pending toPrepare w w' where
  project := hproject.trans h.project
  written := by
    refine ⟨h.written.gone, fun path hpath ↦ ?_, fun next path file text bodies hmem hfile ↦ ?_⟩
    · have hcache : w₂.cache.lookup path = w.cache.lookup path :=
        congrArg Entry.metadata (hentry path)
      rw [h.written.cleared path hpath, hcache]
    · exact h.written.files next path file text bodies hmem (hproject.tree ▸ hfile)
  prepared := fun path consult hmem ↦ (h.prepared path consult hmem).congr hproject.tree
    (hentry path)
  kept := fun path hpending hrest ↦ (h.kept path hpending hrest).trans (hentry path)

/-- Two loops in turn, over different paths. -/
theorem trans {done : List (PathBuf × Bool)} (h : LoopDone env pending done w w₂)
    (h₂ : LoopDone env {} toPrepare w₂ w')
    (hpending : ∀ path ∈ pending.paths, path ∉ toPrepare.map Prod.fst)
    (hdone : ∀ path ∈ done.map Prod.fst, path ∉ toPrepare.map Prod.fst) :
    LoopDone env pending (done ++ toPrepare) w w' := by
  have hempty : ∀ path, path ∉ PendingWrite.paths {} := by
    simp [PendingWrite.paths, PendingWrite.removed]
  have hkept : ∀ path, path ∉ toPrepare.map Prod.fst → w'.entry path = w₂.entry path :=
    fun path hpath ↦ h₂.kept path (hempty path) hpath
  refine ⟨h.project.trans h₂.project, ⟨fun path hpath ↦ ?_, fun path hpath ↦ ?_,
    fun next path file text bodies hmem hfile hchunks ↦ ?_⟩, fun path consult hmem ↦ ?_,
    fun path hnot hrest ↦ ?_⟩
  · rw [hkept path (hpending path (List.mem_append_left _ (List.mem_append_left _ hpath)))]
    exact h.written.gone path hpath
  · rw [hkept path (hpending path (List.mem_append_left _ (List.mem_append_right _ hpath)))]
    exact h.written.cleared path hpath
  · rw [hkept path (hpending path (mem_paths_files hmem))]
    exact h.written.files next path file text bodies hmem hfile hchunks
  · rcases List.mem_append.1 hmem with hmem | hmem
    · rw [hkept path (hdone path (List.mem_map_of_mem hmem))]
      exact h.prepared path consult hmem
    · have hpath : path ∈ toPrepare.map Prod.fst := List.mem_map_of_mem hmem
      exact (h₂.prepared path consult hmem).congr h.project.tree
        (h.kept path (fun hin ↦ hpending path hin hpath) fun hin ↦ hdone path hin hpath)
  · rw [List.map_append, List.mem_append, not_or] at hrest
    exact (hkept path hrest.2).trans (h.kept path hnot hrest.1)

/-- A round that handed its file over to be written. -/
theorem ready {path : PathBuf} {consult : Bool} {next rows : ℕ} {file : FileEntry} {text : String}
    {bodies : List ChunkBody} (hfile : w.tree.lookup path = some file)
    (hchunks : env.chunksOf path file = some (text, bodies))
    (hdescribed : ¬ w.Described env path file)
    (h : LoopDone env { pending with
      rows, files := pending.files ++ [preparedFile env next path text bodies] } toPrepare w w') :
    LoopDone env pending ((path, consult) :: toPrepare) w w' where
  project := h.project
  written := ⟨h.written.gone, h.written.cleared, fun next path file text bodies hmem ↦
    h.written.files next path file text bodies (List.mem_append_left _ hmem)⟩
  prepared := by
    intro p c hmem
    rcases List.mem_cons.1 hmem with heq | hmem
    · obtain ⟨rfl, rfl⟩ := Prod.mk.inj heq
      exact .fresh next hfile hchunks hdescribed
        (h.written.files next _ file text bodies (by simp) hfile hchunks)
    · exact h.prepared p c hmem
  kept := by
    intro p hpending hrest
    simp only [List.map_cons, List.mem_cons, not_or] at hrest
    refine h.kept p ?_ hrest.2
    simpa [PendingWrite.paths, PendingWrite.removed, preparedFile, not_or, and_assoc, hrest.1]
      using hpending

/-- A round that had its path cleared. -/
theorem clear {path : PathBuf} {consult : Bool} {file : FileEntry}
    (hfile : w.tree.lookup path = some file) (hprocesses : env.processes path file = false)
    (hconsult : consult = false)
    (h : LoopDone env { pending with cleared := pending.cleared ++ [path] } toPrepare w w') :
    LoopDone env pending ((path, consult) :: toPrepare) w w' where
  project := h.project
  written := ⟨h.written.gone, fun path hpath ↦
    h.written.cleared path (List.mem_append_left _ hpath), h.written.files⟩
  prepared := by
    intro p c hmem
    rcases List.mem_cons.1 hmem with heq | hmem
    · obtain ⟨rfl, rfl⟩ := Prod.mk.inj heq
      exact .cleared hfile hprocesses hconsult (h.written.cleared _ (by simp))
    · exact h.prepared p c hmem
  kept := by
    intro p hpending hrest
    simp only [List.map_cons, List.mem_cons, not_or] at hrest
    refine h.kept p ?_ hrest.2
    simp only [PendingWrite.paths, PendingWrite.removed, List.mem_append, not_or,
      List.mem_singleton] at hpending ⊢
    tauto

/-- A round that left its path alone. -/
theorem keep {path : PathBuf} {consult : Bool}
    (hprepared : w.Prepared env consult path (w.entry path))
    (hpath : path ∉ pending.paths) (hrest : path ∉ toPrepare.map Prod.fst)
    (h : LoopDone env pending toPrepare w w') :
    LoopDone env pending ((path, consult) :: toPrepare) w w' where
  project := h.project
  written := h.written
  prepared := by
    intro p c hmem
    rcases List.mem_cons.1 hmem with heq | hmem
    · obtain ⟨rfl, rfl⟩ := Prod.mk.inj heq
      rw [h.kept _ hpath hrest]
      exact hprepared
    · exact h.prepared p c hmem
  kept := fun p hpending hcons ↦ h.kept p hpending fun hmem ↦ hcons (List.mem_cons_of_mem _ hmem)

end LoopDone

/-- The write at the end of a run, or in the middle of one. -/
theorem run_publish (exclusion : ReaderExclusion) (entered : Bool) {pending : PendingWrite}
    (stats : IndexStats) {w : World D} (hready : ∀ file ∈ pending.files, file.Ready env w)
    (hnodup : pending.paths.Nodup) :
    ∃ stats' w₁ w',
      run (World.handle env) (beforeWrite exclusion entered) w = (.ok (), w₁) ∧
      run (World.handle env) (pending.flush env stats) w₁ = (.ok stats', w') ∧
      LoopDone env pending [] w w' ∧ stats'.retryFiles = stats.retryFiles := by
  obtain ⟨readersOut, hbefore⟩ := @run_beforeWrite _ env exclusion entered w
  obtain ⟨stats', hflush, hretry⟩ := @run_flush _ env { w with readersOut } pending stats
    fun file hfile ↦ (hready file hfile).isSome_lookup
  refine ⟨stats', _, _, hbefore, hflush, ?_, hretry⟩
  have hdone : LoopDone env pending [] { w with readersOut }
      (World.flush env { w with readersOut } pending) :=
    ⟨World.sameProject_flush, written_flush hready hnodup, by simp,
      fun path hpath _ ↦ entry_flush_of_not_mem hready hpath⟩
  exact hdone.congr_left ⟨rfl, rfl, rfl, rfl⟩ fun _ ↦ rfl

/-- **A run over changed files**: each ends up written, cleared or as it was, however the writes are
cut up. -/
theorem run_prepareAndWrite [DecidableEq D] {exclusion : ReaderExclusion}
    {toPrepare : List (PathBuf × Bool)}
    {pending : PendingWrite} {entered : Bool} {stats : IndexStats} {w : World D}
    (htree : ∀ path ∈ toPrepare.map Prod.fst, (w.tree.lookup path).isSome)
    (hready : ∀ file ∈ pending.files, file.Ready env w)
    (hnodup : (pending.paths ++ toPrepare.map Prod.fst).Nodup) :
    ∃ stats' w',
      run (World.handle env) (prepareAndWrite env exclusion toPrepare pending entered stats) w =
        (.ok stats', w') ∧
      LoopDone env pending toPrepare w w' ∧
      ∀ p ∈ stats'.retryFiles,
        p ∈ stats.retryFiles ∨ p ∈ toPrepare.map Prod.fst ∧ w.Unindexable env p := by
  induction toPrepare generalizing pending entered stats w with
  | nil =>
    obtain ⟨stats', w₁, w', hbefore, hflush, hdone, hretry⟩ :=
      run_publish exclusion entered stats hready (by simpa using hnodup)
    refine ⟨stats', w', ?_, hdone, fun p hp ↦ Or.inl (hretry ▸ hp)⟩
    rw [prepareAndWrite, run_bind_ok hbefore, hflush]
  | cons head rest ih =>
    obtain ⟨path, consult⟩ := head
    obtain ⟨outcome, nextId, hround, hready₁, hretry₁, hcases⟩ :=
      run_round consult stats (htree path (by simp)) hready
    simp only [prepareAndWrite, run_bind_ok hround]
    generalize accountPreparation path consult outcome pending stats = accounted at *
    obtain ⟨pending₁, stats₁⟩ := accounted
    simp only at hready₁ hretry₁ hcases ⊢
    have htree₁ : ∀ p ∈ rest.map Prod.fst, (w.tree.lookup p).isSome :=
      fun p hp ↦ htree p (List.mem_cons_of_mem _ hp)
    obtain ⟨hpending, hcons, hdisjoint⟩ := List.nodup_append'.1 hnodup
    obtain ⟨hpathRest, hrest⟩ := List.nodup_cons.1 hcons
    have hpath : path ∉ pending.paths := fun h ↦ hdisjoint h List.mem_cons_self
    -- The round only moves the path from the front of the list to the pending write.
    have hnodup₁ : (pending₁.paths ++ rest.map Prod.fst).Nodup := by
      have hmoved : (pending.paths ++ [path] ++ rest.map Prod.fst).Nodup := by
        simpa using hnodup
      rcases hcases with ⟨_, _, _, _, -, -, -, rfl⟩ | ⟨_, -, -, -, rfl⟩ | ⟨-, rfl⟩
      · simpa [PendingWrite.paths, PendingWrite.removed, preparedFile] using hmoved
      · refine (List.Perm.nodup_iff (List.Perm.append_right _ ?_)).2 hmoved
        simp only [PendingWrite.paths, PendingWrite.removed, List.append_assoc]
        exact ((List.perm_append_comm).append_left _).append_left _
      · exact hmoved.sublist ((List.sublist_append_left _ _).append_right _)
    have hdone : ∀ w', LoopDone env pending₁ rest w w' →
        LoopDone env pending ((path, consult) :: rest) w w' := by
      intro w' h
      rcases hcases with ⟨_, _, _, _, hfile, hchunks, hdescribed, rfl⟩ |
        ⟨_, hfile, hprocesses, hconsult, rfl⟩ | ⟨hprepared, rfl⟩
      · exact h.ready hfile hchunks hdescribed
      · exact h.clear hfile hprocesses hconsult
      · exact h.keep hprepared hpath hpathRest
    have hretry : ∀ p, (p ∈ stats₁.retryFiles ∨ p ∈ rest.map Prod.fst ∧ w.Unindexable env p) →
        p ∈ stats.retryFiles ∨ p ∈ ((path, consult) :: rest).map Prod.fst ∧
          w.Unindexable env p := by
      rintro p (hp | ⟨hp, hunindexable⟩)
      · rcases hretry₁ p hp with hp | ⟨rfl, hunindexable⟩
        · exact Or.inl hp
        · exact Or.inr ⟨List.mem_cons_self, hunindexable⟩
      · exact Or.inr ⟨List.mem_cons_of_mem _ hp, hunindexable⟩
    have hnext : ∀ w', LoopDone env pending₁ rest { w with nextId } w' →
        LoopDone env pending₁ rest w w' :=
      fun w' h ↦ h.congr_left ⟨rfl, rfl, rfl, rfl⟩ fun _ ↦ rfl
    split
    next _ =>
      obtain ⟨stats₂, w₁, w₂, hbefore, hflush, hdone₂, hretry₂⟩ :=
        @run_publish _ env exclusion entered pending₁ stats₁ { w with nextId } hready₁
          (List.Nodup.of_append_left hnodup₁)
      have htree₂ : ∀ p ∈ rest.map Prod.fst, (w₂.tree.lookup p).isSome := by
        rw [hdone₂.project.tree]
        exact htree₁
      obtain ⟨stats', w', hrun, hdone', hretry'⟩ := @ih {} true stats₂ w₂ htree₂ (by simp)
        (by simpa [PendingWrite.paths, PendingWrite.removed] using hrest)
      have hdisjoint₁ := (List.nodup_append'.1 hnodup₁).2.2
      refine ⟨stats', w', ?_, hdone w' (hnext w' (hdone₂.trans hdone' hdisjoint₁ (by simp))),
        fun p hp ↦ ?_⟩
      · rw [run_bind_ok hbefore, run_bind_ok hflush, hrun]
      · refine hretry p ((hretry' p hp).imp (fun h ↦ hretry₂ ▸ h) fun h ↦ ⟨h.1, ?_⟩)
        have hunindexable := h.2
        rwa [World.Unindexable, hdone₂.project.tree] at hunindexable
    next _ =>
      obtain ⟨stats', w', hrun, hdone', hretry'⟩ :=
        @ih pending₁ entered stats₁ { w with nextId } htree₁ hready₁ hnodup₁
      exact ⟨stats', w', hrun, hdone w' (hnext w' hdone'), fun p hp ↦ hretry p (hretry' p hp)⟩

end Loop

end RustCodeMcp
