import RustCodeMcp.Indexing.FailedWrites

/-!
# Agreement of the two stores

The BM25 index and the vector table are to hold the same chunks. They are written one after the
other, and only the writes of one are held back until a commit, so that a write that fails half-way
leaves them apart. What a run can still promise, when its calls may fail, is that they are apart on
no path but those of writes that failed, all of which it asks to retry (`storesAgree_of_ok`).

The argument goes by what a part of a run keeps (`KeepsAgreement`): the failed writes noted so far
are still noted, every file of a newly failed write is now to be retried, and the stores agree
wherever they agreed before, failed files apart. Parts compose (`KeepsAgreement.trans`), so that a
loop needs no more than one of its rounds. A write that ends well establishes agreement on its own
files (`agrees_write`), whatever was queued for them before.

A full pass is simpler: a write of it that fails ends the pass with an error, and so a pass that
ends well has no failed write at all.
-/

namespace RustCodeMcp

open Effect

variable {D : Type} {env : Env D}

/-! ### Agreement on a path -/

/-- Rows and documents are under the same chunk identifiers. -/
def AgreeOn (rows : List Row) (documents : List Document) : Prop :=
  ∀ id, (∃ document ∈ documents, document.chunkId = id) ↔ ∃ row ∈ rows, row.id = id

theorem AgreeOn.append {rows rows' : List Row} {documents documents' : List Document}
    (h : AgreeOn rows documents) (h' : AgreeOn rows' documents') :
    AgreeOn (rows ++ rows') (documents ++ documents') := by
  intro id
  simp only [List.mem_append, or_and_right, exists_or]
  exact or_congr (h id) (h' id)

namespace World

variable (w : World D)

/-- The two stores agree on a path, once what is queued is committed. -/
def Agrees (path : PathBuf) : Prop := AgreeOn (w.rowsAt path) (w.documentsAt path)

/-- The committed BM25 index and the vector table agree on a path. -/
def StoresAgree (path : PathBuf) : Prop :=
  ∀ id, (∃ document ∈ w.bm25.committed, document.filePath = path ∧ document.chunkId = id) ↔
    ∃ row ∈ w.vectors, row.filePath = path ∧ row.id = id

/-- The committed BM25 index and the vector table hold the same chunk identifiers. -/
def SameIds : Prop :=
  ∀ id, (∃ document ∈ w.bm25.committed, document.chunkId = id) ↔ ∃ row ∈ w.vectors, row.id = id

variable {w} {w' : World D} {path : PathBuf}

/-- With nothing queued the committed documents are all there are. -/
theorem storesAgree_iff (hpending : w.bm25.pending = []) : w.StoresAgree path ↔ w.Agrees path := by
  have hcurrent : w.bm25.current = w.bm25.committed := by
    simp [TantivyIndex.current, hpending]
  simp [StoresAgree, Agrees, AgreeOn, rowsAt, documentsAt, hcurrent, and_assoc]

/-- Stores that agree on every path hold the same identifiers. -/
theorem sameIds_of_storesAgree (h : ∀ path, w.StoresAgree path) : w.SameIds := by
  intro id
  constructor
  · rintro ⟨document, hdocument, hid⟩
    obtain ⟨row, hrow, -, hid⟩ := (h document.filePath id).1 ⟨document, hdocument, rfl, hid⟩
    exact ⟨row, hrow, hid⟩
  · rintro ⟨row, hrow, hid⟩
    obtain ⟨document, hdocument, -, hid⟩ := (h row.filePath id).2 ⟨row, hrow, rfl, hid⟩
    exact ⟨document, hdocument, hid⟩

/-- Stores agree that list the same identifiers under the same paths. -/
theorem storesAgree_of_map_eq (h : w.bm25.committed.map (fun document ↦
    (document.filePath, document.chunkId)) = w.vectors.map fun row ↦ (row.filePath, row.id)) :
    w.StoresAgree path := by
  intro id
  have hmem : ∀ pair : PathBuf × ChunkId,
      pair ∈ w.bm25.committed.map (fun document ↦ (document.filePath, document.chunkId)) ↔
        pair ∈ w.vectors.map fun row ↦ (row.filePath, row.id) := fun _ ↦ by rw [h]
  simpa [List.mem_map] using hmem (path, id)

theorem Agrees.congr (hentry : w'.entry path = w.entry path) (h : w.Agrees path) :
    w'.Agrees path := by
  have hrows : w'.rowsAt path = w.rowsAt path := congrArg Entry.rows hentry
  have hdocuments : w'.documentsAt path = w.documentsAt path := congrArg Entry.documents hentry
  rwa [Agrees, hrows, hdocuments]

/-- Agreement is about the two stores alone. -/
theorem agrees_congr (hvectors : w'.vectors = w.vectors) (hbm25 : w'.bm25 = w.bm25) :
    w'.Agrees path ↔ w.Agrees path := by
  simp only [Agrees, rowsAt, documentsAt, hvectors, hbm25]

/-- The chunks of a write are added to both stores under the same identifiers. -/
theorem agrees_written (files : List PreparedFile) :
    AgreeOn ((files.flatMap PreparedFile.rows).filter fun row ↦ row.filePath = path)
      (((files.flatMap PreparedFile.chunks).filter
        fun chunk ↦ chunk.context.filePath = path).map document) := by
  have hkeyed : ∀ row ∈ files.flatMap PreparedFile.rows, row.chunk.id = row.id := by
    intro row hrow
    obtain ⟨file, -, hrow⟩ := List.mem_flatMap.1 hrow
    exact PreparedFile.keyed_of_mem_rows row hrow
  have hchunks : files.flatMap PreparedFile.chunks =
      (files.flatMap PreparedFile.rows).map Row.chunk := by
    rw [List.map_flatMap]
    exact List.flatMap_congr fun file _ ↦ PreparedFile.map_chunk_rows.symm
  intro id
  simp only [hchunks, List.filter_map, List.mem_map, List.mem_filter]
  constructor
  · rintro ⟨_, ⟨_, ⟨row, ⟨hrow, hpath⟩, rfl⟩, rfl⟩, hid⟩
    exact ⟨row, ⟨hrow, hpath⟩, (hkeyed row hrow).symm.trans hid⟩
  · rintro ⟨row, ⟨hrow, hpath⟩, hid⟩
    exact ⟨_, ⟨_, ⟨row, ⟨hrow, hpath⟩, rfl⟩, rfl⟩, (hkeyed row hrow).trans hid⟩

/-- **A write keeps the stores in agreement**, on every path. -/
theorem agrees_write {files : List PreparedFile} {removed : List PathBuf} (h : w.Agrees path) :
    (w.write env files removed).Agrees path := by
  rw [Agrees, rowsAt_write, documentsAt_write]
  refine AgreeOn.append ?_ (agrees_written files)
  split
  · exact fun id ↦ by simp
  · exact h

/-- Opening the stores keeps the agreement: a refill queues the documents of the rows. -/
theorem agrees_broughtUp (hpending : w.bm25.pending = [])
    (hkeyed : w.NeedsRefill → w.RowsKeyed) (h : w.Agrees path) : (w.broughtUp env).Agrees path := by
  by_cases hneeds : w.NeedsRefill
  · have hdocuments := @documentsAt_broughtUp_of_needsRefill _ env w path hneeds
    intro id
    simp only [rowsAt_broughtUp, hdocuments.mem_iff, List.mem_map]
    constructor
    · rintro ⟨_, ⟨row, hrow, rfl⟩, hid⟩
      exact ⟨row, hrow, (hkeyed hneeds row (List.mem_of_mem_filter hrow)).symm.trans hid⟩
    · rintro ⟨row, hrow, hid⟩
      exact ⟨_, ⟨row, hrow, rfl⟩, (hkeyed hneeds row (List.mem_of_mem_filter hrow)).trans hid⟩
  · exact h.congr (entry_broughtUp_of_not_needsRefill hpending hneeds)

end World

/-! ### Writing with failures -/

section Failures

variable {w w' : World D} {s t : World D × Noted} {stats stats' : IndexStats}

/-- What a part of a run that may have had failures has kept: the project, what was to be retried,
and the agreement of the stores on every path but those of the writes that failed, all of which are
to be retried. -/
structure KeepsAgreement (s t : World D × Noted) (stats stats' : IndexStats) : Prop where
  project : s.1.SameProject t.1
  retry : stats.retryFiles ⊆ stats'.retryFiles
  failed : s.2.failed ⊆ t.2.failed
  listed : ∀ path ∈ t.2.failed, path ∈ s.2.failed ∨ path ∈ stats'.retryFiles
  agrees : ∀ path, path ∉ t.2.failed → s.1.Agrees path → t.1.Agrees path

theorem KeepsAgreement.trans {u : World D × Noted} {stats₂ : IndexStats}
    (h : KeepsAgreement s u stats stats₂) (h' : KeepsAgreement u t stats₂ stats') :
    KeepsAgreement s t stats stats' where
  project := h.project.trans h'.project
  retry _ hpath := h'.retry (h.retry hpath)
  failed _ hpath := h'.failed (h.failed hpath)
  listed path hpath := by
    rcases h'.listed path hpath with hbefore | hretry
    · exact (h.listed path hbefore).imp_right fun hretry ↦ h'.retry hretry
    · exact .inr hretry
  agrees path hpath hagrees :=
    h'.agrees path hpath (h.agrees path (fun hin ↦ hpath (h'.failed hin)) hagrees)

/-- A part in which no write failed. -/
theorem KeepsAgreement.of_failed_eq (hproject : s.1.SameProject t.1)
    (hretry : stats.retryFiles ⊆ stats'.retryFiles) (hfailed : t.2.failed = s.2.failed)
    (hagrees : ∀ path, s.1.Agrees path → t.1.Agrees path) : KeepsAgreement s t stats stats' where
  project := hproject
  retry := hretry
  failed := hfailed ▸ fun _ h ↦ h
  listed _ hpath := .inl (hfailed ▸ hpath)
  agrees path _ := hagrees path

theorem retryFiles_foldl_retry (paths : List PathBuf) :
    (paths.foldl IndexStats.retry stats).retryFiles = stats.retryFiles ++ paths := by
  induction paths generalizing stats with
  | nil => simp
  | cons path rest ih => simp [ih, IndexStats.retry]

theorem retry_subset_recordError {path : PathBuf} {e : String} :
    stats.retryFiles ⊆ (stats.recordError path e).retryFiles := by
  unfold IndexStats.recordError
  split
  · exact fun _ h ↦ h
  · exact List.subset_append_left _ _

theorem retry_subset_forgetGone {paths : List PathBuf}
    (h : Executes (World.mayFail env) (paths.foldlM forgetGone stats) w (.ok stats') w') :
    stats.retryFiles ⊆ stats'.retryFiles := by
  induction paths generalizing stats w with
  | nil =>
    obtain ⟨hstats, -⟩ := h
    cases hstats
    exact fun _ h ↦ h
  | cons path rest ih =>
    rw [List.foldlM_cons] at h
    obtain ⟨stats₁, w₁, hhead, hrest⟩ := executes_bind_ok.1 h
    obtain ⟨outcome, _, -, hhead⟩ := executes_bind_ok.1 hhead
    refine fun p hp ↦ ih hrest ?_
    rcases outcome with e | u
    · obtain ⟨hstats, -⟩ := executes_pure.1 hhead
      cases hstats
      exact List.mem_append_left _ hp
    · obtain ⟨hstats, -⟩ := executes_pure.1 hhead
      cases hstats
      exact hp

/-- The part of a write that changes the stores. -/
def writeStores (files : List PreparedFile) (removed : List PathBuf) : Task D Unit := do
  deleteFilesChunks (removed ++ files.map PreparedFile.path)
  Prog.forEach (fun file ↦ indexChunks file.chunks) files
  insertChunks (files.flatMap PreparedFile.rows)

section Stores

variable {files : List PreparedFile} {removed : List PathBuf}

theorem failFast_writeStores : FailFast (writeStores files removed : Task D Unit) :=
  failFast_deleteFilesChunks.bind fun _ ↦
    (FailFast.forEach fun _ ↦ failFast_indexChunks).bind fun _ ↦ failFast_insertChunks

/-- The stores are changed first, and the records are made after that. -/
theorem writeFiles_eq (h : (files.isEmpty && removed.isEmpty) = false) :
    writeFiles env files removed =
      writeStores files removed >>= fun _ ↦ Prog.forEach (recordIfIndexed env) files := by
  rw [writeFiles, if_neg (by simp [h]), writeStores, Prog.bind_assoc]
  exact congrArg _ (funext fun _ ↦ (Prog.bind_assoc ..).symm)

theorem run_writeStores : run (World.handle env) (writeStores files removed) w =
    (.ok (), (w.deleteChunks (removed ++ files.map PreparedFile.path)).addChunks files) := by
  rw [writeStores, run_bind_ok (run_deleteFilesChunks _), run_bind_ok (run_indexFiles _),
    run_insertChunks]
  rfl

/-- A write that fails has failed for every file it touched. -/
theorem takesDown_writeStores : TakesDown env (writeStores files removed) := by
  refine .bind (.bind (.forEach (fun _ ↦ takesDown_request rfl) _) fun _ ↦
    (takesDown_request rfl).mapError _) fun _ ↦
      .bind (.forEach (fun _ ↦ .forEach (fun _ ↦ (takesDown_request rfl).mapError _) _) _)
        fun _ ↦ ?_
  unfold insertChunks
  split
  · exact takesDown_pure
  · exact (takesDown_request rfl).mapError _

theorem touches_request {paths touched : List PathBuf} {call : Call D}
    (h : call.touched = some touched) (hpaths : touched ⊆ paths) :
    Only (Call.Touches paths) (request call) :=
  only_perform.2 ⟨touched, h, hpaths⟩

/-- A write touches its own files only. -/
theorem touches_writeStores (hat : ∀ file ∈ files, file.AtPath) :
    Only (Call.Touches (removed ++ files.map PreparedFile.path))
      (writeStores files removed : Task D Unit) := by
  have hpath : ∀ file ∈ files, ∀ chunk ∈ file.chunks,
      chunk.context.filePath ∈ removed ++ files.map PreparedFile.path :=
    fun file hfile chunk hchunk ↦ List.mem_append_right _
      (hat file hfile chunk hchunk ▸ List.mem_map_of_mem hfile)
  have hdelete : Only (Call.Touches (removed ++ files.map PreparedFile.path))
      (deleteFilesChunks (removed ++ files.map PreparedFile.path) : Task D Unit) := by
    refine .bind (.forEach fun path hmem ↦ touches_request rfl ?_) fun _ ↦
      only_mapError.2 (touches_request rfl (List.Subset.refl _))
    exact List.cons_subset.2 ⟨hmem, List.nil_subset _⟩
  have hindex : ∀ file ∈ files, Only (Call.Touches (removed ++ files.map PreparedFile.path))
      (indexChunks file.chunks : Task D Unit) := by
    refine fun file hfile ↦ .forEach fun chunk hchunk ↦ only_mapError.2 (touches_request rfl ?_)
    exact List.cons_subset.2 ⟨hpath file hfile chunk hchunk, List.nil_subset _⟩
  have hinsert : Only (Call.Touches (removed ++ files.map PreparedFile.path))
      (insertChunks (files.flatMap PreparedFile.rows) : Task D Unit) := by
    unfold insertChunks
    split
    · exact only_pure
    · refine only_mapError.2 (touches_request rfl fun path hmem ↦ ?_)
      obtain ⟨row, hrow, rfl⟩ := List.mem_map.1 hmem
      obtain ⟨file, hfile, hrow⟩ := List.mem_flatMap.1 hrow
      refine hpath file hfile row.chunk ?_
      rw [← file.map_chunk_rows]
      exact List.mem_map_of_mem hrow
  exact hdelete.bind fun _ ↦ (Only.forEach hindex).bind fun _ ↦ hinsert

/-- Recording files changes neither store, however it ends. -/
theorem agrees_recordFiles {r : Except String Unit}
    (h : Executes (World.noted env) (Prog.forEach (recordIfIndexed env) files) s r t) :
    s.1.SameProject t.1 ∧ t.2.failed = s.2.failed ∧
      ∀ path, t.1.Agrees path ↔ s.1.Agrees path := by
  have hkeeps : Only Call.KeepsStores (Prog.forEach (recordIfIndexed env) files) :=
    Only.forEach fun _ _ ↦ keepsStores_recordIfIndexed
  obtain ⟨hvectors, hbm25⟩ := visits_of_keepsStores hkeeps h.of_noting.visits
  exact ⟨(World.SameBut.visits
      (Only.forEach fun _ _ ↦ @within_recordIfIndexed _ env (fun _ ↦ True) _ trivial)
      h.of_noting.visits).project,
    failed_of_untouching (untouching_of_keepsStores hkeeps) h.visits,
    fun _ ↦ World.agrees_congr hvectors hbm25⟩

/-- **A write of the stores that ends well keeps them in agreement**, on every path. -/
theorem agrees_writeStores {u : Unit}
    (h : Executes (World.noted env) (writeStores files removed) s (.ok u) t) :
    s.1.SameProject t.1 ∧ t.2.failed = s.2.failed ∧
      ∀ path, s.1.Agrees path → t.1.Agrees path := by
  have hrun := failFast_writeStores.run_of_ok h.of_noting
  rw [run_writeStores] at hrun
  obtain ⟨-, ht⟩ := Prod.mk.inj hrun
  refine ⟨?_, failed_of_failFast failFast_writeStores h, fun path hagrees ↦ ?_⟩
  · rw [← ht]
    exact ⟨rfl, rfl, rfl, rfl⟩
  · refine (World.agrees_congr ?_ ?_).2 (@World.agrees_write _ env _ _ files removed hagrees)
    · rw [← ht]
      rfl
    · rw [← ht]
      rfl

/-- **A write that fails**, for whatever reason, has failed in the stores for files of its own, all
of them touched, and keeps the stores in agreement on the others. -/
theorem executes_writeFiles_error {e : String} (hat : ∀ file ∈ files, file.AtPath)
    (hcurrent : (files.isEmpty && removed.isEmpty) = false → s.2.current = [])
    (h : Executes (World.noted env) (writeFiles env files removed) s (.error e) t) :
    s.2.failed ⊆ t.2.failed ∧
      t.2.failed ⊆ s.2.failed ++ (removed ++ files.map PreparedFile.path) ∧
      ∀ path, path ∉ t.2.failed → s.1.Agrees path → t.1.Agrees path := by
  by_cases hempty : (files.isEmpty && removed.isEmpty) = true
  · rw [writeFiles, if_pos hempty] at h
    cases h.1
  rw [Bool.not_eq_true] at hempty
  rw [writeFiles_eq hempty] at h
  rcases executes_bind.1 h with ⟨_, u, hstores, hrecord⟩ | ⟨e', hstores, -⟩
  · have hfailed := (agrees_writeStores hstores).2.1
    have hfailed' := (agrees_recordFiles hrecord).2.1
    rw [hfailed', hfailed]
    exact ⟨fun _ h ↦ h, List.subset_append_left _ _, fun path _ hagrees ↦
      ((agrees_recordFiles hrecord).2.2 path).2
        ((agrees_writeStores hstores).2.2 path hagrees)⟩
  · obtain ⟨huntouched, -, hfailed, hbefore⟩ :=
      untouched_of_touches (touches_writeStores hat) hstores.visits
    rw [hcurrent hempty, List.nil_append] at hfailed
    refine ⟨hbefore, hfailed, fun path hpath hagrees ↦ hagrees.congr ?_⟩
    exact huntouched.entry path fun hin ↦ hpath (takesDown_writeStores s e' t hstores hin)

/-- **A write that ends well** has failed for no file, and keeps the stores in agreement. -/
theorem executes_writeFiles_ok {u : Unit}
    (h : Executes (World.noted env) (writeFiles env files removed) s (.ok u) t) :
    s.1.SameProject t.1 ∧ t.2.failed = s.2.failed ∧
      ∀ path, s.1.Agrees path → t.1.Agrees path := by
  by_cases hempty : (files.isEmpty && removed.isEmpty) = true
  · rw [writeFiles, if_pos hempty] at h
    obtain ⟨-, rfl⟩ := executes_pure.1 h
    exact ⟨.refl _, rfl, fun _ h ↦ h⟩
  rw [Bool.not_eq_true] at hempty
  rw [writeFiles_eq hempty] at h
  obtain ⟨_, u', hstores, hrecord⟩ := executes_bind_ok.1 h
  obtain ⟨hproject, hfailed, hagrees⟩ := agrees_writeStores hstores
  obtain ⟨hproject', hfailed', hagrees'⟩ := agrees_recordFiles hrecord
  exact ⟨hproject.trans hproject', hfailed'.trans hfailed, fun path h ↦
    (hagrees' path).2 (hagrees path h)⟩

end Stores

/-- **A flush with failures** leaves the stores apart on no path but those of a write that failed,
which it asks to retry. -/
theorem executes_flush {pending : PendingWrite} (hat : ∀ file ∈ pending.files, file.AtPath)
    (hcurrent : (pending.files.isEmpty && pending.removed.isEmpty) = false → s.2.current = [])
    (h : Executes (World.noted env) (pending.flush env stats) s (.ok stats') t) :
    KeepsAgreement s t stats stats' := by
  have hproject := (World.SameBut.visits (within_flush_of_atPath hat) h.of_noting.visits).project
  obtain ⟨outcome, u, hwrite, hrest⟩ := executes_bind_ok.1 h
  obtain ⟨result, hresult, hwrite⟩ := executes_attempt.1 hwrite
  cases hresult
  rcases outcome with e | _
  · obtain ⟨hstats, rfl⟩ := executes_pure.1 hrest
    have hretry : stats'.retryFiles = stats.retryFiles ++
        (pending.files.map PreparedFile.path ++ pending.removed) := by
      rw [← retryFiles_foldl_retry]
      exact congrArg _ (Except.ok.inj hstats)
    obtain ⟨hbefore, hfailed, hagrees⟩ := executes_writeFiles_error hat hcurrent hwrite
    refine ⟨hproject, hretry ▸ List.subset_append_left _ _, hbefore, fun path hpath ↦ ?_, hagrees⟩
    refine (List.mem_append.1 (hfailed hpath)).imp_right fun hin ↦ ?_
    rw [hretry]
    exact List.mem_append_right _ (List.perm_append_comm.mem_iff.1 hin)
  · obtain ⟨-, hfailed, hagrees⟩ := executes_writeFiles_ok hwrite
    have hkeeps : ∀ stats : IndexStats,
        Only Call.KeepsStores (pending.gone.foldlM forgetGone stats : Task D IndexStats) :=
      fun stats ↦ Only.foldlM fun _ _ _ ↦ keepsStores_forgetGone
    obtain ⟨hvectors, hbm25⟩ := visits_of_keepsStores (hkeeps _) hrest.of_noting.visits
    have hfailed' : t.2.failed = u.2.failed :=
      failed_of_untouching (untouching_of_keepsStores (hkeeps _)) hrest.visits
    refine .of_failed_eq hproject (fun p hp ↦ retry_subset_forgetGone hrest.of_noting ?_)
      (hfailed'.trans hfailed) fun path h ↦ (World.agrees_congr hvectors hbm25).2 (hagrees path h)
    rw [retryFiles_foldl_recordWritten]
    exact hp

theorem silent_beforeWrite {exclusion : ReaderExclusion} {entered : Bool} :
    Only (fun call ↦ call.touched = none ∧ call.isProbe = false)
      (beforeWrite exclusion entered : Task D Unit) := by
  unfold beforeWrite
  split
  · exact only_pure
  · cases exclusion
    · exact only_pure
    · exact only_perform.2 ⟨rfl, rfl⟩

/-- Sending the readers out changes nothing else. -/
theorem executes_beforeWrite {exclusion : ReaderExclusion} {entered : Bool} {u : Unit}
    (h : Executes (World.noted env) (beforeWrite exclusion entered) s (.ok u) t) :
    t.2 = s.2 ∧ ∃ readersOut, t.1 = { s.1 with readersOut } := by
  obtain ⟨readersOut, hrun⟩ := @run_beforeWrite _ env exclusion entered s.1
  rw [failFast_beforeWrite.run_of_ok h.of_noting] at hrun
  exact ⟨notes_eq_of_silent silent_beforeWrite h.visits, readersOut, congrArg Prod.snd hrun⟩

theorem KeepsAgreement.of_readersOut {readersOut : Bool} (hnotes : t.2 = s.2)
    (h : t.1 = { s.1 with readersOut }) : KeepsAgreement s t stats stats :=
  .of_failed_eq (by rw [h]; exact ⟨rfl, rfl, rfl, rfl⟩) (fun _ h ↦ h) (by rw [hnotes])
    fun _ hagrees ↦ by rw [h]; exact hagrees

/-- Preparing a file starts with a probe. -/
theorem notes_of_prepareFile [DecidableEq D] {path : PathBuf} {consult : Bool}
    {r : Except String Preparation}
    (h : Executes (World.noted env) (prepareFile env path consult) s r t) :
    t.2 = { s.2 with current := [] } := by
  obtain ⟨answer, u, ⟨-, hprobe⟩, hrest⟩ := h
  have hprepare : Only Call.Reads (prepareFile env path consult) := reads_prepareFile path consult
  have hreads := untouching_of_reads (hprepare.2 answer)
  have hfailed := failed_of_untouching hreads hrest.visits
  have hcurrent := current_of_untouching hreads hrest.visits (by rw [hprobe]; rfl)
  rw [hprobe] at hfailed
  exact congrArg₂ Noted.mk hcurrent hfailed

/-- One round of the loop: what is pending stays ready to be written. -/
theorem executes_round [DecidableEq D] {path : PathBuf} {consult : Bool} {pending : PendingWrite}
    {outcome : Except String Preparation} (htree : (s.1.tree.lookup path).isSome)
    (hready : ∀ file ∈ pending.files, file.Ready env s.1)
    (h : Executes (World.noted env) (prepareFile env path consult).attempt s (.ok outcome) t) :
    (∃ nextId, t.1 = { s.1 with nextId }) ∧ t.2 = { s.2 with current := [] } ∧
      (∀ file ∈ (accountPreparation path consult outcome pending stats).1.files,
        file.Ready env s.1) ∧
      stats.retryFiles ⊆ (accountPreparation path consult outcome pending stats).2.retryFiles := by
  obtain ⟨result, hresult, hprepare⟩ := executes_attempt.1 h
  obtain rfl := Except.ok.inj hresult
  refine ⟨visits_of_reads (reads_prepareFile path consult) hprepare.of_noting.visits,
    notes_of_prepareFile hprepare, ?_⟩
  rcases outcome with e | preparation
  · exact ⟨hready, retry_subset_recordError⟩
  · have hrun := (failFast_prepareFile path consult).run_of_ok hprepare.of_noting
    obtain ⟨outcome, nextId, hround, hready', -, -⟩ := run_round consult stats htree hready
    rw [run_attempt, hrun] at hround
    obtain rfl := Except.ok.inj (congrArg Prod.fst hround)
    refine ⟨hready', ?_⟩
    rcases preparation with file | - | -
    · exact fun _ h ↦ h
    · exact fun _ h ↦ h
    · rcases consult with - | - <;> exact fun _ h ↦ h

/-- **The loop over changed files, with failures**, leaves the stores apart on no path but those of
writes that failed, which it asks to retry. -/
theorem executes_prepareAndWrite [DecidableEq D] {exclusion : ReaderExclusion}
    {toPrepare : List (PathBuf × Bool)} {pending : PendingWrite} {entered : Bool}
    (htree : ∀ path ∈ toPrepare.map Prod.fst, (s.1.tree.lookup path).isSome)
    (hready : ∀ file ∈ pending.files, file.Ready env s.1)
    (hcurrent : (pending.files.isEmpty && pending.removed.isEmpty) = false → s.2.current = [])
    (h : Executes (World.noted env)
      (prepareAndWrite env exclusion toPrepare pending entered stats) s (.ok stats') t) :
    KeepsAgreement s t stats stats' := by
  induction toPrepare generalizing pending entered stats s with
  | nil =>
    rw [prepareAndWrite] at h
    obtain ⟨_, u, hbefore, hflush⟩ := executes_bind_ok.1 h
    obtain ⟨hnotes, _, hout⟩ := executes_beforeWrite hbefore
    rw [← hnotes] at hcurrent
    exact (KeepsAgreement.of_readersOut hnotes hout).trans
      (executes_flush (fun file hfile ↦ (hready file hfile).atPath) hcurrent hflush)
  | cons head rest ih =>
    obtain ⟨path, consult⟩ := head
    rw [prepareAndWrite] at h
    obtain ⟨outcome, u, hround, h⟩ := executes_bind_ok.1 h
    obtain ⟨⟨nextId, hnext⟩, hnotes, hready₁, hretry⟩ :=
      executes_round (htree path List.mem_cons_self) hready hround
    generalize accountPreparation path consult outcome pending stats = accounted at *
    obtain ⟨pending₁, stats₁⟩ := accounted
    simp only at hready₁ hretry h
    have htree_eq : u.1.tree = s.1.tree := by rw [hnext]
    have hhead : KeepsAgreement s u stats stats₁ :=
      .of_failed_eq (by rw [hnext]; exact ⟨rfl, rfl, rfl, rfl⟩) hretry
        (by rw [hnotes]) fun _ hagrees ↦ by rw [hnext]; exact hagrees
    have htree₁ : ∀ p ∈ rest.map Prod.fst, (u.1.tree.lookup p).isSome := fun p hp ↦
      htree_eq ▸ htree p (List.mem_cons_of_mem _ hp)
    have hready₂ : ∀ file ∈ pending₁.files, file.Ready env u.1 := fun file hfile ↦ by
      rw [hnext]
      exact hready₁ file hfile
    have hcurrent₁ : u.2.current = [] := congrArg Noted.current hnotes
    refine hhead.trans ?_
    split at h
    · obtain ⟨_, u', hbefore, h⟩ := executes_bind_ok.1 h
      obtain ⟨hnotes', _, hout⟩ := executes_beforeWrite hbefore
      obtain ⟨stats₂, v, hflush, hrest⟩ := executes_bind_ok.1 h
      rw [← hnotes'] at hcurrent₁
      have hkeeps := (KeepsAgreement.of_readersOut hnotes' hout).trans
        (executes_flush (fun file hfile ↦ (hready₂ file hfile).atPath) (fun _ ↦ hcurrent₁) hflush)
      refine hkeeps.trans (ih (fun p hp ↦ ?_) (by simp) (by simp [PendingWrite.removed]) hrest)
      rw [hkeeps.project.tree]
      exact htree₁ p hp
    · exact ih htree₁ hready₂ (fun _ ↦ hcurrent₁) h

/-- Letting the readers back in changes nothing else. -/
theorem executes_admitAfter {α : Type} {exclusion : ReaderExclusion} {task : Task D α} {a : α}
    (h : Executes (World.noted env) (exclusion.admitAfter task) s (.ok a) t) :
    ∃ u readersOut, Executes (World.noted env) task s (.ok a) u ∧ t.2 = u.2 ∧
      t.1 = { u.1 with readersOut } := by
  obtain ⟨outcome, u, hattempt, h⟩ := executes_bind_ok.1 h
  obtain ⟨result, hresult, htask⟩ := executes_attempt.1 hattempt
  obtain rfl := Except.ok.inj hresult
  obtain ⟨_, v, hadmit, h⟩ := executes_bind_ok.1 h
  have hv : v.2 = u.2 ∧ ∃ readersOut, v.1 = { u.1 with readersOut } := by
    cases exclusion with
    | heldByCaller =>
      obtain ⟨-, rfl⟩ := executes_pure.1 hadmit
      exact ⟨rfl, v.1.readersOut, rfl⟩
    | aroundPublish =>
      obtain ⟨hcall, hnote⟩ := executes_perform.1 hadmit
      refine ⟨hnote, false, ?_⟩
      rcases hcall with hcall | ⟨⟨e, he⟩, -⟩
      · exact (congrArg Prod.snd hcall).symm
      · cases he
  obtain ⟨hnotes, readersOut, hout⟩ := hv
  rcases outcome with e | b
  · cases h.1
  · obtain ⟨hok, rfl⟩ := executes_pure.1 h
    obtain rfl := Except.ok.inj hok
    exact ⟨u, readersOut, htask, hnotes, hout⟩

/-- What a run that ended well has kept, failures or not. -/
structure Survived (s t : World D × Noted) (stats : IndexStats) : Prop where
  tree : t.1.tree = s.1.tree
  walkErrors : t.1.walkErrors = s.1.walkErrors
  snapshot : t.1.snapshot = s.1.snapshot
  pending : t.1.bm25.pending = []
  listed : ∀ path ∈ t.2.failed, path ∈ s.2.failed ∨ path ∈ stats.retryFiles
  agrees : ∀ path, path ∉ t.2.failed → s.1.Agrees path → t.1.Agrees path

theorem executes_ensureIndexDiskHeadroom {u : Unit}
    (h : Executes (World.mayFail env) ensureIndexDiskHeadroom w (.ok u) w') : w = w' := by
  have hrun := failFast_request.run_of_ok h
  exact congrArg Prod.snd hrun

/-- An indexer that was opened has its stores brought up, and a refill it made was of keyed rows. -/
theorem executes_ensureIndexer {u : Unit}
    (h : Executes (World.mayFail env) ensureIndexer w (.ok u) w') :
    w' = w.broughtUp env ∧ (w.NeedsRefill → w.RowsKeyed) := by
  have hrun := failFast_ensureIndexer.run_of_ok h
  by_cases hkeyed : w.NeedsRefill → w.RowsKeyed
  · rw [run_ensureIndexer hkeyed] at hrun
    cases hrun
    exact ⟨rfl, hkeyed⟩
  · rw [Classical.not_imp] at hkeyed
    obtain ⟨e, w₁, herror⟩ := @run_ensureIndexer_error _ env w hkeyed.1 hkeyed.2
    rw [hrun] at herror
    cases herror

variable [DecidableEq D]

/-- **Processing changes, with failures.** -/
theorem executes_processChanges {exclusion : ReaderExclusion} {changes : ChangeSet}
    (hpending : s.1.bm25.pending = [])
    (htree : ∀ path ∈ changes.toPrepare.map Prod.fst, (s.1.tree.lookup path).isSome)
    (h : Executes (World.noted env) (processChanges env exclusion changes) s (.ok stats) t) :
    Survived s t stats := by
  obtain ⟨_, s₁, hensure, h⟩ := executes_bind_ok.1 h
  obtain ⟨hup, hkeyed⟩ := executes_ensureIndexer hensure.of_noting
  have hfailed₁ := failed_of_failFast failFast_ensureIndexer hensure
  obtain ⟨_, s₂, hheadroom, h⟩ := executes_bind_ok.1 h
  have hsame := executes_ensureIndexDiskHeadroom hheadroom.of_noting
  have hfailed₂ := failed_of_failFast failFast_request hheadroom
  obtain ⟨stats₁, s₃, hloop, h⟩ := executes_bind_ok.1 h
  obtain ⟨_, s₄, hadmit, h⟩ := executes_bind_ok.1 h
  obtain ⟨s₅, readersOut, hcommit, hnotes, hout⟩ := executes_admitAfter hadmit
  have hfailed₄ : s₄.2.failed = s₃.2.failed := by
    rw [hnotes, failed_of_failFast failFast_commit hcommit]
  have hcommit := failFast_commit.run_of_ok hcommit.of_noting
  rw [run_commit] at hcommit
  have hcommitted : _ = s₅.1 := (Prod.mk.inj hcommit).2
  rw [← hcommitted] at hout
  obtain ⟨hstats, rfl⟩ := executes_pure.1 h
  obtain rfl := Except.ok.inj hstats
  have hstart : s₂.1 = s.1.broughtUp env := hsame.symm.trans hup
  have hfailed : s₂.2.failed = s.2.failed := hfailed₂.trans hfailed₁
  have hkeeps : KeepsAgreement s₂ s₃ {} stats₁ := by
    refine executes_prepareAndWrite (fun p hp ↦ ?_) (by simp)
      (fun _ ↦ congrArg Noted.current (executes_perform.1 hheadroom).2) hloop
    rw [hstart, World.tree_broughtUp]
    exact htree p hp
  obtain ⟨hproject, -, -, hlisted, hagrees⟩ := hkeeps
  rw [hstart] at hproject hagrees
  rw [hfailed] at hlisted
  refine ⟨?_, ?_, ?_, ?_, ?_, fun path hpath h ↦ ?_⟩
  · rw [hout]
    exact hproject.tree.trans World.tree_broughtUp
  · rw [hout]
    exact hproject.walkErrors.trans World.walkErrors_broughtUp
  · rw [hout]
    exact hproject.snapshot.trans World.snapshot_broughtUp
  · rw [hout]
  · rw [hfailed₄]
    exact hlisted
  · rw [hout]
    exact hagrees path (hfailed₄ ▸ hpath) (World.agrees_broughtUp hpending hkeyed h)

/-- **An incremental update, with failures.** -/
theorem executes_incrementalUpdate {exclusion : ReaderExclusion} {old : FileSystemMerkle D}
    (hpending : s.1.bm25.pending = [])
    (h : Executes (World.noted env) (incrementalUpdate env exclusion old (s.1.merkle env)) s
      (.ok stats) t) : Survived s t stats := by
  have hrefl : Survived s s stats := ⟨rfl, rfl, rfl, hpending, fun _ h ↦ .inl h, fun _ _ h ↦ h⟩
  unfold incrementalUpdate at h
  split at h
  · obtain ⟨-, rfl⟩ := executes_pure.1 h
    exact hrefl
  next hroot =>
  simp only at h
  split at h
  · obtain ⟨-, rfl⟩ := executes_pure.1 h
    exact hrefl
  · obtain ⟨stats₁, s₁, hprocess, h⟩ := executes_bind_ok.1 h
    obtain ⟨hstats, rfl⟩ := executes_pure.1 h
    obtain rfl := Except.ok.inj hstats
    have hreports : Reports env s.1 old _ :=
      reports_detectChanges (by simpa [World.RootChanged] using hroot)
    obtain ⟨htree, hwalkErrors, hsnapshot, hpending', hlisted, hagrees⟩ :=
      executes_processChanges hpending
        (fun p hp ↦ by simpa [World.newHash] using hreports.isSome_newHash hp) hprocess
    exact ⟨htree, hwalkErrors, hsnapshot, hpending', hlisted, hagrees⟩

/-- What a full pass has kept so far; a write that fails ends the pass. -/
structure PassKeeps (s t : World D × Noted) : Prop where
  project : s.1.SameProject t.1
  pending : t.1.bm25.pending = []
  failed : t.2.failed = s.2.failed
  agrees : ∀ path, s.1.Agrees path → t.1.Agrees path

omit [DecidableEq D] in
theorem PassKeeps.trans {u : World D × Noted} (h : PassKeeps s u) (h' : PassKeeps u t) :
    PassKeeps s t :=
  ⟨h.project.trans h'.project, h'.pending, h'.failed.trans h.failed, fun path hagrees ↦
    h'.agrees path (h.agrees path hagrees)⟩

omit [DecidableEq D] in
/-- Writing one batch of a pass: nothing fails, or the pass has ended. -/
theorem executes_processAndIndexBatch {processed : List ProcessedFile}
    (h : Executes (World.noted env) (processAndIndexBatch env processed stats) s
    (.ok stats') t) : s.1.SameProject t.1 ∧ t.2.failed = s.2.failed ∧
      ∀ path, s.1.Agrees path → t.1.Agrees path := by
  obtain ⟨embeddings, u, hembed, hrest⟩ := executes_bind_ok.1 h
  have hreads : Only Call.Reads (generateEmbeddingsBatched
      (processed.flatMap ProcessedFile.chunks) : Task D _) :=
    only_failingAs (reads_request (by trivial))
  obtain ⟨nextId, hnext⟩ := visits_of_reads hreads hembed.of_noting.visits
  have hfailed := failed_of_untouching (untouching_of_reads hreads) hembed.visits
  obtain ⟨_, v, hwrite, hpure⟩ := executes_bind_ok.1 hrest
  obtain ⟨-, rfl⟩ := executes_pure.1 hpure
  obtain ⟨hproject, hfailed', hagrees⟩ := executes_writeFiles_ok hwrite
  rw [hnext] at hproject hagrees
  exact ⟨⟨hproject.tree, hproject.walkErrors, hproject.snapshot, hproject.opened⟩,
    hfailed'.trans hfailed, hagrees⟩

/-- A batch of a full pass, with failures: a write that fails ends the pass. -/
theorem executes_indexBatch {batch : List PathBuf}
    (h : Executes (World.noted env) (indexBatch env stats batch) s (.ok stats') t) :
    PassKeeps s t := by
  obtain ⟨_, s₁, hheadroom, hbatch⟩ := executes_bind_ok.1 h
  have hsame := executes_ensureIndexDiskHeadroom hheadroom.of_noting
  have hfailed₁ := failed_of_failFast failFast_request hheadroom
  obtain ⟨⟨processed, stats₁⟩, s₂, hparse, hrest⟩ := executes_bind_ok.1 hbatch
  have hreads : Only Call.Reads (parallelParseBatch env batch stats) :=
    Only.foldlM fun _ path _ ↦ Only.bind (only_attempt.2 (reads_processFileSync path))
      fun _ ↦ only_pure
  obtain ⟨nextId, hnext⟩ := visits_of_reads hreads hparse.of_noting.visits
  have hfailed₂ := failed_of_untouching (untouching_of_reads hreads) hparse.visits
  have hcommit : ∀ {u : World D × Noted} {stats₂ : IndexStats},
      Executes (World.noted env) (commit >>= fun _ ↦ pure stats₂) u (.ok stats') t →
      PassKeeps u t := by
    intro u stats₂ h
    obtain ⟨_, v, hcommit, hpure⟩ := executes_bind_ok.1 h
    have hfailed := failed_of_failFast failFast_commit hcommit
    have hcommit := failFast_commit.run_of_ok hcommit.of_noting
    rw [run_commit] at hcommit
    have hv : _ = v.1 := (Prod.mk.inj hcommit).2
    obtain ⟨-, rfl⟩ := executes_pure.1 hpure
    refine ⟨?_, ?_, hfailed, fun path hagrees ↦ ?_⟩
    · rw [← hv]
      exact ⟨rfl, rfl, rfl, rfl⟩
    · rw [← hv]
    · rw [← hv]
      exact hagrees
  have hbefore : s.1.SameProject s₂.1 ∧ s₂.2.failed = s.2.failed ∧
      ∀ path, s.1.Agrees path → s₂.1.Agrees path := by
    refine ⟨?_, hfailed₂.trans hfailed₁, fun path hagrees ↦ ?_⟩
    · rw [hnext, ← hsame]
      exact ⟨rfl, rfl, rfl, rfl⟩
    · rw [hnext, ← hsame]
      exact hagrees
  obtain ⟨hproject, hfailed, hagrees⟩ := hbefore
  simp only at hrest
  split at hrest
  · obtain ⟨_, _, hpure, hrest⟩ := executes_bind_ok.1 hrest
    obtain ⟨-, rfl⟩ := executes_pure.1 hpure
    have hend := hcommit hrest
    exact ⟨hproject.trans hend.project, hend.pending, hend.failed.trans hfailed, fun path h ↦
      hend.agrees path (hagrees path h)⟩
  · obtain ⟨_, s₃, hwrite, hrest⟩ := executes_bind_ok.1 hrest
    obtain ⟨hproject', hfailed', hwritten⟩ := executes_processAndIndexBatch hwrite
    have hend := hcommit hrest
    exact ⟨(hproject.trans hproject').trans hend.project, hend.pending,
      hend.failed.trans (hfailed'.trans hfailed), fun path h ↦
        hend.agrees path (hwritten path (hagrees path h))⟩

theorem executes_indexBatches {batches : List (List PathBuf)} (hpending : s.1.bm25.pending = [])
    (h : Executes (World.noted env) (batches.foldlM (indexBatch env) stats) s (.ok stats') t) :
    PassKeeps s t := by
  induction batches generalizing stats s with
  | nil =>
    obtain ⟨-, rfl⟩ := executes_pure.1 h
    exact ⟨.refl _, hpending, rfl, fun _ h ↦ h⟩
  | cons batch rest ih =>
    rw [List.foldlM_cons] at h
    obtain ⟨stats₁, u, hbatch, hrest⟩ := executes_bind_ok.1 h
    have hkeeps := executes_indexBatch hbatch
    exact hkeeps.trans (ih hkeeps.pending hrest)

/-- **A full pass, with failures**, ends well only if no write failed. -/
theorem executes_indexDirectoryParallel (hpending : s.1.bm25.pending = [])
    (h : Executes (World.noted env) (indexDirectoryParallel env) s (.ok stats) t) :
    PassKeeps s t := by
  obtain ⟨⟨files, walkErrors⟩, s₁, hwalk, hrest⟩ := executes_bind_ok.1 h
  have hfailed₁ : s₁.2.failed = s.2.failed := failed_of_failFast failFast_request hwalk
  have hrun : run (World.handle env) collectProjectRustFiles s.1 = _ :=
    failFast_request.run_of_ok hwalk.of_noting
  rw [run_collectProjectRustFiles] at hrun
  obtain ⟨hfound, hs₁⟩ := Prod.mk.inj hrun
  obtain ⟨rfl, rfl⟩ := Prod.mk.inj (Except.ok.inj hfound)
  simp only at hrest
  split at hrest
  · obtain ⟨-, rfl⟩ := executes_pure.1 hrest
    exact ⟨hs₁ ▸ .refl _, hs₁ ▸ hpending, hfailed₁, fun _ h ↦ hs₁ ▸ h⟩
  obtain ⟨size, s₂, hsize, hrest⟩ := executes_bind_ok.1 hrest
  have hreads : Only Call.Reads (calculateSafeBatchSize : Task D ℕ) :=
    reads_request (by trivial)
  obtain ⟨nextId, hnext⟩ := visits_of_reads hreads hsize.of_noting.visits
  have hfailed₂ := failed_of_untouching (untouching_of_reads hreads) hsize.visits
  have hs₂ : s₂.1 = { s.1 with nextId } := by rw [hnext, ← hs₁]
  obtain ⟨stats₁, s₃, hbatches, hrest⟩ := executes_bind_ok.1 hrest
  have hpass := executes_indexBatches (by rw [hs₂]; exact hpending) hbatches
  have hproject : s.1.SameProject s₃.1 := by
    have hproject := hpass.project
    rw [hs₂] at hproject
    exact ⟨hproject.tree, hproject.walkErrors, hproject.snapshot, hproject.opened⟩
  obtain ⟨dropped, s₄, hdrop, hpure⟩ := executes_bind_ok.1 hrest
  obtain ⟨-, rfl⟩ := executes_pure.1 hpure
  have hfailed₄ := failed_of_failFast failFast_dropFilesOutsideWalk hdrop
  have hdrop := failFast_dropFilesOutsideWalk.run_of_ok hdrop.of_noting
  obtain ⟨_, w₄, hrun, hproject₄, hpending₄, hgone, hkept⟩ :=
    @run_dropFilesOutsideWalk _ env s₃.1 s.1.tree.keys s.1.walkErrors hpass.pending
  rw [hdrop] at hrun
  obtain rfl : t.1 = w₄ := congrArg Prod.snd hrun
  refine ⟨hproject.trans hproject₄, hpending₄,
    hfailed₄.trans (hpass.failed.trans (hfailed₂.trans hfailed₁)), fun path h ↦ ?_⟩
  by_cases hpath : s.1.walkErrors = 0 ∧ s₃.1.Outside s.1.tree.keys path
  · have hentry := hgone path hpath.1 hpath.2
    have hrows : t.1.rowsAt path = [] := congrArg Entry.rows hentry
    have hdocuments : t.1.documentsAt path = [] := congrArg Entry.documents hentry
    rw [World.Agrees, hrows, hdocuments]
    exact fun id ↦ by simp
  · have hagrees : s₃.1.Agrees path := hpass.agrees path (by rw [hs₂]; exact h)
    exact hagrees.congr (hkept path hpath)

/-- **The strategy of a run, with failures.** -/
theorem executes_strategy {exclusion : ReaderExclusion} (hpending : s.1.bm25.pending = [])
    (h : Executes (World.noted env) (refillBeside s.1.oldMerkle >>= fun _ ↦
      strategy env exclusion s.1.oldMerkle (s.1.merkle env)) s (.ok stats) t) :
    Survived s t stats := by
  obtain ⟨_, s₁, hbeside, hstrategy⟩ := executes_bind_ok.1 h
  have hfailed₁ := failed_of_failFast failFast_refillBeside hbeside
  have hbeside := failFast_refillBeside.run_of_ok hbeside.of_noting
  -- Without a tree of an earlier run everything is indexed; with one, what changed.
  rcases hold : s.1.oldMerkle with - | old
  · rw [hold] at hbeside hstrategy
    have hs₁ : s₁.1 = s.1 := by
      simpa [refillBeside, run_bind, eq_comm] using hbeside
    obtain ⟨_, s₂, hexclude, hpass⟩ := executes_bind_ok.1 hstrategy
    obtain ⟨hnotes, readersOut, hout⟩ := executes_beforeWrite
      (show Executes (World.noted env) (beforeWrite exclusion false) _ _ _ from hexclude)
    obtain ⟨s₃, readersOut', hinner, hnotes', hout'⟩ := executes_admitAfter hpass
    obtain ⟨_, s₄, hensure, hparallel⟩ := executes_bind_ok.1 hinner
    have hfailed₄ := failed_of_failFast failFast_ensureIndexer hensure
    obtain ⟨hup, hkeyed⟩ := executes_ensureIndexer hensure.of_noting
    rw [hout, hs₁] at hup hkeyed
    obtain ⟨hproject, hpending', hfailed, hagrees⟩ :=
      executes_indexDirectoryParallel (by rw [hup]; exact World.pending_broughtUp hpending)
        hparallel
    rw [hup] at hproject hagrees
    have hsame : t.2.failed = s.2.failed := by
      rw [hnotes', hfailed, hfailed₄, hnotes, hfailed₁]
    refine ⟨?_, ?_, ?_, ?_, fun _ hpath ↦ .inl (hsame ▸ hpath), fun path _ h ↦ ?_⟩
    · rw [hout']
      exact hproject.tree.trans World.tree_broughtUp
    · rw [hout']
      exact hproject.walkErrors.trans World.walkErrors_broughtUp
    · rw [hout']
      exact hproject.snapshot.trans World.snapshot_broughtUp
    · rw [hout']
      exact hpending'
    · rw [hout']
      exact hagrees path (World.agrees_broughtUp hpending hkeyed h)
  · rw [hold] at hbeside hstrategy
    -- The refill beside the run goes through exactly if the rows have distinct ids.
    by_cases hkeyed : s.1.NeedsRefill → s.1.RowsKeyed
    · obtain ⟨bm25, hrun, hpending', -, -, hentry⟩ :=
        @run_refillBeside _ env s.1 old hpending hkeyed
      rw [hbeside] at hrun
      have hs₁ : s₁.1 = { s.1 with bm25 } := congrArg Prod.snd hrun
      have hmerkle : s.1.merkle env = s₁.1.merkle env := by rw [hs₁]; rfl
      rw [hmerkle] at hstrategy
      obtain ⟨htree, hwalkErrors, hsnapshot, hpending'', hlisted, hagrees⟩ :=
        executes_incrementalUpdate (by rw [hs₁]; exact hpending') hstrategy
      rw [hfailed₁] at hlisted
      rw [hs₁] at htree hwalkErrors hsnapshot hagrees
      exact ⟨htree, hwalkErrors, hsnapshot, hpending'', hlisted, fun path hpath h ↦
        hagrees path hpath
          ((World.agrees_broughtUp hpending hkeyed h).congr (hentry path))⟩
    · rw [Classical.not_imp] at hkeyed
      obtain ⟨e, w₂, herror⟩ := @run_refillBeside_error _ env s.1 old hkeyed.1 hkeyed.2
      rw [hbeside] at herror
      cases herror

/-- **A run with failures that ends well** has compared the trees as they are, kept the stores in
agreement on every path but those of writes that failed, and saved the snapshot it should. -/
theorem executes_indexWithChangeDetectionExcluding {exclusion : ReaderExclusion}
    (hpending : s.1.bm25.pending = [])
    (h : Executes (World.noted env) (indexWithChangeDetectionExcluding env exclusion) s
      (.ok stats) t) :
    ∃ u, Survived s u stats ∧ t.2.failed = u.2.failed ∧
      t.1 = { u.1 with snapshot := some (s.1.nextSnapshot env stats.retryFiles) } := by
  obtain ⟨_, s₁, hheadroom, hrest⟩ := executes_bind_ok.1 h
  have hs₁ := executes_ensureIndexDiskHeadroom hheadroom.of_noting
  have hfailed₁ := failed_of_failFast failFast_request hheadroom
  obtain ⟨stored, s₂, hload, hrest⟩ := executes_bind_ok.1 hrest
  have hfailed₂ := failed_of_failFast failFast_request hload
  have hload : run (World.handle env) loadSnapshot s₁.1 = _ :=
    failFast_request.run_of_ok hload.of_noting
  rw [run_loadSnapshot] at hload
  obtain ⟨hstored, hs₂⟩ := Prod.mk.inj hload
  obtain rfl := Except.ok.inj hstored
  obtain ⟨merkle, s₃, hmerkle, hrest⟩ := executes_bind_ok.1 hrest
  have hfailed₃ := failed_of_failFast failFast_fromDirectory hmerkle
  have hmerkle := failFast_fromDirectory.run_of_ok hmerkle.of_noting
  rw [run_fromDirectory] at hmerkle
  obtain ⟨hmerkle, hs₃⟩ := Prod.mk.inj hmerkle
  obtain rfl := Except.ok.inj hmerkle
  have hs : s₃.1 = s.1 := by rw [← hs₃, ← hs₂, ← hs₁]
  have hfailed : s₃.2.failed = s.2.failed := by rw [hfailed₃, hfailed₂, hfailed₁]
  obtain ⟨_, s₄, hbeside, hrest⟩ := executes_bind_ok.1 hrest
  obtain ⟨stats₁, s₅, hstrategy, hrest⟩ := executes_bind_ok.1 hrest
  obtain ⟨_, s₆, hsave, hpure⟩ := executes_bind_ok.1 hrest
  have hfailed₆ := failed_of_failFast failFast_request hsave
  have hsave := failFast_request.run_of_ok hsave.of_noting
  obtain ⟨hstats, rfl⟩ := executes_pure.1 hpure
  obtain rfl := Except.ok.inj hstats
  rw [hs₂, hs₃] at hbeside hstrategy
  have hsurvived : Survived s₃ s₅ stats :=
    executes_strategy (hs ▸ hpending) (executes_bind_ok.2 ⟨_, s₄, hbeside, hstrategy⟩)
  obtain ⟨htree, hwalkErrors, hsnapshot, hpending', hlisted, hagrees⟩ := hsurvived
  rw [hs] at htree hwalkErrors hsnapshot hagrees
  rw [hfailed] at hlisted
  refine ⟨s₅, ⟨htree, hwalkErrors, hsnapshot, hpending', hlisted, hagrees⟩, hfailed₆, ?_⟩
  rw [← hs₂, ← hs₁] at hsave
  exact (congrArg Prod.snd hsave).symm

end Failures

/-! ### Agreement after a run -/

/-- **Where the stores agree after a run that ended well**: whatever calls of the run failed, if the
committed BM25 index and the vector table held the same chunks of every file before it, they do
after it of every file but those of the writes that failed, all of which are to be retried; and they
hold the same identifiers if no write failed, as when nothing is to be retried. -/
theorem storesAgree_of_ok [DecidableEq D] {w w' : World D} {exclusion : ReaderExclusion}
    {stats : IndexStats} (hpending : w.bm25.pending = []) (hagree : ∀ path, w.StoresAgree path)
    (h : Executes (World.mayFail env) (indexWithChangeDetectionExcluding env exclusion) w
      (.ok stats) w') :
    (∀ path, path ∉ stats.retryFiles → w'.StoresAgree path) ∧
      (stats.retryFiles = [] → w'.SameIds) ∧
      (∃ notes, Executes (World.noted env) (indexWithChangeDetectionExcluding env exclusion)
        (w, {}) (.ok stats) (w', notes)) ∧
      ∀ notes, Executes (World.noted env) (indexWithChangeDetectionExcluding env exclusion)
          (w, {}) (.ok stats) (w', notes) →
        notes.failed ⊆ stats.retryFiles ∧ (∀ path, path ∉ notes.failed → w'.StoresAgree path) ∧
          (notes.failed = [] → w'.SameIds) := by
  have hnoted : ∀ notes, Executes (World.noted env)
      (indexWithChangeDetectionExcluding env exclusion) (w, {}) (.ok stats) (w', notes) →
      notes.failed ⊆ stats.retryFiles ∧ ∀ path, path ∉ notes.failed → w'.StoresAgree path := by
    intro notes hexec
    obtain ⟨u, hsurvived, hfailed, hw'⟩ := executes_indexWithChangeDetectionExcluding hpending hexec
    obtain rfl : w' = _ := hw'
    rw [show notes.failed = u.2.failed from hfailed]
    refine ⟨fun path hpath ↦ ?_, fun path hpath ↦ ?_⟩
    · exact (hsurvived.listed path hpath).resolve_left List.not_mem_nil
    · exact (World.storesAgree_iff hsurvived.pending).2
        (hsurvived.agrees path hpath ((World.storesAgree_iff hpending).1 (hagree path)))
  obtain ⟨notes, hexec⟩ := executes_noted.1 h
  obtain ⟨hlisted, hstores⟩ := hnoted _ hexec
  have hretry : ∀ path, path ∉ stats.retryFiles → w'.StoresAgree path := fun path hpath ↦
    hstores path fun hin ↦ hpath (hlisted hin)
  refine ⟨hretry, fun hnone ↦ World.sameIds_of_storesAgree fun path ↦
    hretry path (by simp [hnone]), ⟨notes, hexec⟩, fun notes hexec ↦ ?_⟩
  obtain ⟨hlisted, hstores⟩ := hnoted notes hexec
  exact ⟨hlisted, hstores, fun hnone ↦ World.sameIds_of_storesAgree fun path ↦
    hstores path (by simp [hnone])⟩

namespace World

/-- The appends to the vector table. -/
def refusesRows : Call ByteArray → Bool
  | .insertRows _ => true
  | _ => false

/-- The table refuses rows: the disk is full. -/
def refusingRows : Handler String (@Call.Ret ByteArray) (World ByteArray) :=
  Handler.failing (handle Env.sample) refusesRows "No space left on device"

/-- A file has been indexed and then changed. -/
def changed : World ByteArray :=
  { (run (handle Env.sample) (indexWithChangeDetection Env.sample)
      (.fresh (oneFile ["a.rs"] "fn f() {}" 0))).2 with
    tree := oneFile ["a.rs"] "fn g() { }" 0 }

theorem storesAgree_changed : ∀ path, changed.StoresAgree path :=
  fun _ ↦ storesAgree_of_map_eq (by decide +kernel)

/-- A run over it in which the rows are refused ends well and asks to retry the file. -/
theorem exists_run_refused : ∃ stats, run refusingRows (indexWithChangeDetection Env.sample)
    changed = (.ok stats, (run refusingRows (indexWithChangeDetection Env.sample) changed).2) ∧
    stats.retryFiles = [["a.rs"]] := by
  have hretry : (run refusingRows (indexWithChangeDetection Env.sample) changed).1.toOption.map
      IndexStats.retryFiles = some [["a.rs"]] := by decide +kernel
  rcases hrun : run refusingRows (indexWithChangeDetection Env.sample) changed with ⟨e | stats, w'⟩
  · rw [hrun] at hretry
    cases hretry
  · rw [hrun] at hretry
    exact ⟨stats, rfl, Option.some.inj hretry⟩

/-- It leaves the stores apart on that file at most. -/
theorem storesAgree_of_ok_refused : ∃ stats w',
    run refusingRows (indexWithChangeDetection Env.sample) changed = (.ok stats, w') ∧
      (∀ path, path ∉ stats.retryFiles → w'.StoresAgree path) ∧
      (stats.retryFiles = [] → w'.SameIds) ∧
      ∃ notes, Executes (noted Env.sample) (indexWithChangeDetection Env.sample) (changed, {})
          (.ok stats) (w', notes) ∧
        notes.failed ⊆ stats.retryFiles ∧ (∀ path, path ∉ notes.failed → w'.StoresAgree path) ∧
          (notes.failed = [] → w'.SameIds) := by
  obtain ⟨stats, hrun, -⟩ := exists_run_refused
  obtain ⟨hretry, hsame, ⟨notes, hexec⟩, hnoted⟩ :=
    storesAgree_of_ok rfl storesAgree_changed (executes_failing hrun)
  exact ⟨stats, _, hrun, hretry, hsame, notes, hexec, hnoted notes hexec⟩

/-- **A refused append leaves the stores apart**: what was queued for BM25 is committed all the
same. -/
theorem not_sameIds_refused :
    ¬ ∀ (w : World ByteArray) (exclusion : ReaderExclusion) (stats : IndexStats)
      (w' : World ByteArray), w.SameIds →
      Executes (mayFail Env.sample) (indexWithChangeDetectionExcluding Env.sample exclusion) w
        (.ok stats) w' → w'.SameIds := by
  intro h
  obtain ⟨stats, hrun, -⟩ := exists_run_refused
  have hsame := h _ _ _ _ (sameIds_of_storesAgree storesAgree_changed) (executes_failing hrun) ⟨1⟩
  have hcommitted : (run refusingRows (indexWithChangeDetection Env.sample)
      changed).2.bm25.committed.map Document.chunkId = [⟨1⟩] := by decide +kernel
  have hvectors : (run refusingRows (indexWithChangeDetection Env.sample)
      changed).2.vectors.map Row.id = [] := by decide +kernel
  obtain ⟨row, hrow, -⟩ := hsame.1 (List.mem_map.1 (hcommitted ▸ List.mem_singleton_self _))
  rw [List.map_eq_nil_iff.1 hvectors] at hrow
  cases hrow

end World

end RustCodeMcp
