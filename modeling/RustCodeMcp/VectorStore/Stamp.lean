import RustCodeMcp.VectorStore.Directory

/-!
# The embedder stamp

Whatever opens a directory, with whichever identities, and however often it is cut off: the rows
came through backends of the identity that `metadata.json` records, and so did every backend there
is. What has no stamp yet has no rows, so it can be stamped by whoever comes.

The stamp is written before there are rows, and no program writes it twice: that is one side. The
other is that a backend is made by an opening that has read or written the stamp, so its identity is
the stamp's, and what it inserts is too.

The results:

* `Stamped.call`: an allowed call keeps the stamp true of the rows and the backends, done or cut
  off;
* `Reached.stamp`: so it is true of every directory that can be reached;
* `isOk_run_new`: who comes with the identity that is recorded can open a directory, or anybody if
  none is.
-/

namespace RustCodeMcp.LanceDb

open Effect

variable {Byte Chunk : Type} {format : MetadataFormat Byte} {path : String} {vectorDim : ℕ}
  {embedderIdentity : String} {now : Option ℕ}

namespace Directory

variable (format) (d : Directory Byte Chunk)

/-- What `metadata.json` says, if it can be read. -/
def recorded : Option VectorStoreMetadata :=
  d.metadata.bind fun bytes ↦ (format.read bytes).toOption

/-- `metadata.json` is there and cannot be read: a write of it was cut off. -/
def Torn : Prop := d.metadata.isSome = true ∧ d.recorded format = none

/-- The rows of a directory. -/
def rows : List (Row Chunk) := d.table.toList.flatMap Table.rows

/-- A directory in which nothing was opened yet. -/
def untouched (isDir : Bool) : Directory Byte Chunk :=
  { isDir, metadata := none, listed := false, table := none }

variable {format d}

/-- What was written is read back. -/
theorem recorded_of_written {metadata : VectorStoreMetadata}
    (h : d.metadata = some (format.write metadata)) : d.recorded format = some metadata := by
  rw [recorded, h, Option.bind_some, format.read_write]
  rfl

/-- What can be read is what is recorded. -/
theorem recorded_of_read {bytes : List Byte} {metadata : VectorStoreMetadata}
    (h : d.metadata = some bytes)
    (hread : format.read bytes = .ok metadata) : d.recorded format = some metadata := by
  rw [recorded, h, Option.bind_some, hread]
  rfl

end Directory

/-! ### Histories -/

/-- The directories that calls, one after another, may leave, with the backends that were returned.
A call that fails or is cut off leaves a state it visits. -/
inductive Reached (format : MetadataFormat Byte) (path : String) :
    Directory Byte Chunk → List Backend → Prop
  | untouched (isDir : Bool) : Reached format path (.untouched isDir) []
  | new {d d' : Directory Byte Chunk} {backends : List Backend} {vectorDim : ℕ}
    {embedderIdentity : String}
      {now : Option ℕ} {backend : Backend} (h : Reached format path d backends)
      (hopen : Executes outcomes (new format path vectorDim embedderIdentity now) d
      (.ok backend) d') : Reached format path d' (backend :: backends)
  | newCut {d d' : Directory Byte Chunk} {backends : List Backend} {vectorDim : ℕ}
    {embedderIdentity : String}
      {now : Option ℕ} (h : Reached format path d backends)
      (hcut : Visits outcomes (LanceDb.new format path vectorDim embedderIdentity now) d d') :
      Reached format path d' backends
  | openExisting {d d' : Directory Byte Chunk} {backends : List Backend} {vectorDim : ℕ}
      {embedderIdentity : String} {backend : Backend} (h : Reached format path d backends)
      (hopen : Executes outcomes (openExisting format path vectorDim embedderIdentity) d
      (.ok backend) d') : Reached format path d' (backend :: backends)
  | openCut {d d' : Directory Byte Chunk} {backends : List Backend} {vectorDim : ℕ}
      {embedderIdentity : String} (h : Reached format path d backends)
      (hcut : Visits outcomes (LanceDb.openExisting format path vectorDim embedderIdentity) d d') :
      Reached format path d' backends
  | insert {d d' : Directory Byte Chunk} {backends : List Backend} {backend : Backend}
      {chunks : List (List Float32 × Chunk)} (h : Reached format path d backends)
      (hmem : backend ∈ backends) (hinsert : Visits outcomes (backend.insertChunks chunks) d d') :
      Reached format path d' backends

/-- The stamp is that of the rows and of the backends. -/
structure Stamped (format : MetadataFormat Byte) (backends : List Backend)
    (d : Directory Byte Chunk) : Prop where
  listed : d.table.isSome = true → d.listed = true
  rows : ∀ row ∈ d.rows, ∃ metadata, d.recorded format = some metadata ∧
    metadata.embedderVersion = row.through
  backends : ∀ backend ∈ backends, ∃ metadata, d.recorded format = some metadata ∧
    metadata.embedderVersion = backend.embedderIdentity

/-! ### Calls -/

/-- The calls that keep the stamp, in the states in which they do: nothing is stamped twice, and
rows come through the backends. -/
def Allowed (backends : List Backend) : Call Byte Chunk → Directory Byte Chunk → Prop
  | .writeMetadata _, d => d.metadata = none
  | .add _ rows, _ => ∃ backend ∈ backends, ∀ row ∈ rows, row.through = backend.embedderIdentity
  | _, _ => True

section Calls

variable {backends : List Backend} {d d' : Directory Byte Chunk}

/-- Rows and stamp are what they were. -/
theorem Stamped.congr (h : Stamped format backends d)
    (hlisted : d'.table.isSome = true → d'.listed = true)
    (hmetadata : d'.metadata = d.metadata) (hrows : d'.rows = d.rows) :
    Stamped format backends d' := by
  have hrecorded : d'.recorded format = d.recorded format := by
    rw [Directory.recorded, Directory.recorded, hmetadata]
  exact ⟨hlisted, fun row hrow ↦ hrecorded ▸ h.rows row (hrows ▸ hrow), fun b hb ↦
    hrecorded ▸ h.backends b hb⟩

/-- What was never stamped has no rows and no backends. -/
theorem Stamped.of_unrecorded (h : Stamped format backends d) (hnone : d.recorded format = none) :
    d.rows = [] ∧ backends = [] := by
  constructor
  · refine List.eq_nil_iff_forall_not_mem.2 fun row hrow ↦ ?_
    obtain ⟨metadata, hsome, -⟩ := h.rows row hrow
    rw [hnone] at hsome
    cases hsome
  · refine List.eq_nil_iff_forall_not_mem.2 fun backend hmem ↦ ?_
    obtain ⟨metadata, hsome, -⟩ := h.backends backend hmem
    rw [hnone] at hsome
    cases hsome

/-- Whatever is put where there was no stamp. -/
theorem Stamped.write (h : Stamped format backends d) (hnone : d.metadata = none)
    (bytes : List Byte) : Stamped format backends { d with metadata := some bytes } := by
  have hunrecorded : d.recorded format = none := by rw [Directory.recorded, hnone, Option.bind_none]
  obtain ⟨hrows, rfl⟩ := h.of_unrecorded hunrecorded
  refine ⟨h.listed, fun row hrow ↦ ?_, nofun⟩
  rw [show Directory.rows { d with metadata := some bytes } = d.rows from rfl, hrows] at hrow
  exact absurd hrow List.not_mem_nil

/-- **Every allowed call keeps the stamp**, done or cut off. -/
theorem Stamped.call {o : Call Byte Chunk} {r : Except VectorStoreError o.Ret}
    (hallowed : Allowed backends o d)
    (hstep : outcomes o d r d') (h : Stamped format backends d) : Stamped format backends d' := by
  rcases hstep with hstep | ⟨-, hcut⟩
  · have hd' : (answer o d).2 = d' := congrArg Prod.snd hstep
    subst hd'
    cases o with
    | createDirAll => exact h.congr h.listed rfl rfl
    | isDir => exact h
    | connect => exact h
    | tableNames => exact h
    | metadataExists => exact h
    | createTable vectorDim =>
      rw [answer]
      split_ifs with hlisted
      · exact h
      -- A table that was not listed had no rows, and the new one has none.
      · refine h.congr (fun _ ↦ rfl) rfl ?_
        have hnone : d.table = none := by
          rw [← Option.not_isSome_iff_eq_none]
          exact fun hsome ↦ hlisted (h.listed hsome)
        rw [Directory.rows, Directory.rows, hnone]
        rfl
    | createIndex column =>
      rcases htable : d.table with - | table
      · simp only [answer, htable]
        exact h
      · simp only [answer, htable]
        refine h.congr (fun _ ↦ h.listed (by rw [htable]; rfl)) rfl ?_
        rw [Directory.rows, Directory.rows, htable]
        rfl
    | openTable =>
      rw [answer]
      split_ifs <;> exact h
    | add vectorDim rows =>
      rcases htable : d.table with - | table
      · simp only [answer, htable]
        exact h
      · simp only [answer, htable]
        split_ifs with hdim
        · obtain ⟨backend, hmem, hthrough⟩ := hallowed
          refine ⟨fun _ ↦ h.listed (by rw [htable]; rfl), fun row hrow ↦ ?_, h.backends⟩
          -- A new row comes through a backend whose record is on the disk.
          have hsplit : row ∈ d.rows ∨ row ∈ rows := by
            simp only [Directory.rows, htable, Option.toList_some,
              List.flatMap_cons, List.flatMap_nil, List.append_nil] at hrow ⊢
            exact List.mem_append.1 hrow
          rcases hsplit with hold | hnew
          · exact h.rows row hold
          · obtain ⟨metadata, hrecorded, hversion⟩ := h.backends backend hmem
            exact ⟨metadata, hrecorded, hversion.trans (hthrough row hnew).symm⟩
        · exact h
    | readMetadata =>
      rcases hmetadata : d.metadata with - | bytes <;> simp only [answer, hmetadata] <;> exact h
    | writeMetadata bytes => exact h.write hallowed bytes
  · cases hcut with
    -- A call that is cut off leaves nothing, part of the metadata, or the directory.
    | nothing => exact h
    | written bytes beginning _ hle => exact h.write hallowed beginning
    | created => exact h.congr (fun _ ↦ rfl) rfl rfl

end Calls

/-! ### Programs -/

section Programs

variable {backends : List Backend} {d d' : Directory Byte Chunk} {error : String → VectorStoreError}
  {backend : Backend} {what : String}

/-- A call is allowed if the call is. -/
@[simp] theorem guarded_attempting {P : Call Byte Chunk → Directory Byte Chunk → Prop}
    {o : Call Byte Chunk} :
    Guarded outcomes P (attempting o error what) d ↔ P o d := by
  rw [attempting, guarded_mapError, guarded_perform]

/-- A call that only looks answers what is there. -/
theorem executes_metadataExists {b : Bool}
    (h : Executes outcomes (Effect.Prog.perform (Call.metadataExists : Call Byte Chunk)) d
    (.ok b) d') : d' = d ∧ b = d.metadata.isSome := by
  rw [executes_perform] at h
  rcases h with h | ⟨⟨e, he⟩, -⟩
  · obtain ⟨hb, rfl⟩ := Prod.mk.inj h
    exact ⟨rfl, (Except.ok.inj hb).symm⟩
  · cases he

theorem executes_attempting {o : Call Byte Chunk}
    {a : o.Ret} (h : Executes outcomes (attempting o error what) d (.ok a) d') :
    answer o d = (.ok a, d') := by
  rw [attempting, executes_mapError] at h
  obtain ⟨r, hr, h⟩ := h
  rw [executes_perform] at h
  rcases r with e | b
  · cases hr
  · obtain rfl := Except.ok.inj hr
    rcases h with h | ⟨⟨e, he⟩, -⟩
    · exact h
    · cases he

/-- Reading the stamp changes nothing, and finds what is recorded. -/
theorem executes_readMetadata {found : Option VectorStoreMetadata}
    (h : Executes outcomes (readMetadata format path) d (.ok found) d') :
    d' = d ∧ d.recorded format = found ∧ (found = none → d.metadata = none) := by
  obtain ⟨b, u, hexists, h⟩ := executes_bind_ok.1 h
  obtain ⟨rfl, rfl⟩ := executes_metadataExists hexists
  rcases hmetadata : u.metadata with - | bytes
  · rw [hmetadata] at h
    obtain ⟨hfound, rfl⟩ := h
    obtain rfl := Except.ok.inj hfound
    exact ⟨rfl, by rw [Directory.recorded, hmetadata, Option.bind_none], fun _ ↦ rfl⟩
  · rw [hmetadata] at h
    obtain ⟨bytes', u', hread, h⟩ := executes_bind_ok.1 h
    have hanswer := executes_attempting hread
    simp only [answer, hmetadata] at hanswer
    obtain ⟨hbytes, rfl⟩ := Prod.mk.inj hanswer
    obtain rfl := Except.ok.inj hbytes
    rcases hparse : format.read bytes with e | parsed
    · rw [hparse] at h
      cases h.1
    · rw [hparse] at h
      obtain ⟨hfound, rfl⟩ := h
      obtain rfl := Except.ok.inj hfound
      exact ⟨rfl, Directory.recorded_of_read hmetadata hparse, nofun⟩

/-- Where there was no stamp, there is one afterwards. -/
theorem executes_writeMetadataIfMissing {u : Unit} (hnone : d.metadata = none)
    (h : Executes outcomes (writeMetadataIfMissing format path embedderIdentity now) d (.ok u) d') :
    ∃ metadata, d'.recorded format = some metadata ∧
    metadata.embedderVersion = embedderIdentity := by
  obtain ⟨b, v, hexists, h⟩ := executes_bind_ok.1 h
  obtain ⟨rfl, rfl⟩ := executes_metadataExists hexists
  rw [hnone] at h
  obtain ⟨-, rfl⟩ := Prod.mk.inj (executes_attempting h)
  exact ⟨_, Directory.recorded_of_written rfl, rfl⟩

/-- A stamp is written only where there is none. -/
theorem guarded_writeMetadataIfMissing :
    Guarded outcomes (Allowed backends)
    (writeMetadataIfMissing format path embedderIdentity now) d := by
  refine Guarded.bind (guarded_perform.2 trivial) fun b u hexec ↦ ?_
  obtain ⟨rfl, rfl⟩ := executes_metadataExists hexec
  split_ifs with hsome
  · trivial
  · exact guarded_attempting.2 (Option.not_isSome_iff_eq_none.1 hsome)

theorem guarded_readMetadata :
    Guarded outcomes (Allowed backends) (readMetadata format path) d := by
  refine Guarded.bind (guarded_perform.2 trivial) fun b u _ ↦ ?_
  split_ifs
  · refine Guarded.bind (guarded_attempting.2 trivial) fun bytes v _ ↦ ?_
    split <;> trivial
  · trivial

theorem guarded_ensureTableExists :
    Guarded outcomes (Allowed backends) (ensureTableExists vectorDim) d := by
  refine Guarded.bind (guarded_attempting.2 trivial) fun tables u _ ↦ ?_
  split_ifs
  · trivial
  · refine Guarded.bind (guarded_attempting.2 trivial) fun _ v _ ↦ ?_
    refine Guarded.bind (guarded_attempting.2 trivial) fun _ w _ ↦ ?_
    exact Guarded.bind (guarded_attempting.2 trivial) fun _ _ _ ↦ trivial

/-- Opening a directory makes allowed calls only. -/
theorem guarded_new :
    Guarded outcomes (Allowed backends) (new format path vectorDim embedderIdentity now) d := by
  refine Guarded.bind (guarded_attempting.2 trivial) fun _ u _ ↦ ?_
  refine Guarded.bind (guarded_attempting.2 trivial) fun _ v _ ↦ ?_
  refine Guarded.bind guarded_ensureTableExists fun _ w _ ↦ ?_
  refine Guarded.bind guarded_readMetadata fun found _ _ ↦ ?_
  rcases found with - | metadata
  · exact Guarded.bind guarded_writeMetadataIfMissing fun _ _ _ ↦ trivial
  · dsimp only
    split_ifs <;> trivial

theorem guarded_openExisting :
    Guarded outcomes (Allowed backends)
    (openExisting format path vectorDim embedderIdentity) d := by
  refine Guarded.bind (guarded_perform.2 trivial) fun b u _ ↦ ?_
  split_ifs
  · refine Guarded.bind guarded_readMetadata fun found _ _ ↦ ?_
    rcases found with - | metadata
    · trivial
    · dsimp only
      split_ifs
      · trivial
      · refine Guarded.bind (guarded_attempting.2 trivial) fun _ _ _ ↦ ?_
        refine Guarded.bind (guarded_attempting.2 trivial) fun tables _ _ ↦ ?_
        split_ifs
        · exact Guarded.bind (guarded_attempting.2 trivial) fun _ _ _ ↦ trivial
        · trivial
  · trivial

/-- The rows of a batch come through the backend that made it. -/
theorem through_of_chunksToBatch {chunks : List (List Float32 × Chunk)}
    {batch : List (Row Chunk)} (h : backend.chunksToBatch chunks = .ok batch) :
    ∀ row ∈ batch, row.through = backend.embedderIdentity := by
  rw [Backend.chunksToBatch] at h
  rcases hvectors : Rows.vectorColumn Rows.fixedSizeList (Rows.asI32 backend.vectorDim)
    (chunks.map Prod.fst) with e | vectors
  · rw [hvectors] at h
    cases h
  · rw [hvectors] at h
    change (if vectors.length = chunks.length then _ else _) = _ at h
    split_ifs at h
    obtain rfl := Except.ok.inj h
    intro row hrow
    obtain ⟨x, -, rfl⟩ := List.mem_map.1 hrow
    rfl

/-- So does inserting through a backend that was opened. -/
theorem guarded_insertChunks (hmem : backend ∈ backends) (chunks : List (List Float32 × Chunk)) :
    Guarded outcomes (Allowed backends) (backend.insertChunks chunks) d := by
  rw [Backend.insertChunks]
  split_ifs
  · trivial
  · refine Guarded.bind (guarded_attempting.2 trivial) fun _ _ _ ↦ ?_
    rcases hbatch : backend.chunksToBatch chunks with e | batch
    · trivial
    · refine guarded_attempting.2 ⟨backend, hmem, fun row hrow ↦ ?_⟩
      exact through_of_chunksToBatch hbatch row hrow

/-! ### Opens -/

/-- A backend has the identity that is recorded. -/
theorem recorded_of_new
    (h : Executes outcomes (new format path vectorDim embedderIdentity now) d (.ok backend) d') :
    backend.embedderIdentity = embedderIdentity ∧
      ∃ metadata, d'.recorded format = some metadata ∧
      metadata.embedderVersion = embedderIdentity := by
  obtain ⟨-, u₁, -, h⟩ := executes_bind_ok.1 h
  obtain ⟨-, u₂, -, h⟩ := executes_bind_ok.1 h
  obtain ⟨-, u₃, -, h⟩ := executes_bind_ok.1 h
  obtain ⟨found, u₄, hread, h⟩ := executes_bind_ok.1 h
  obtain ⟨rfl, hrecorded, hmissing⟩ := executes_readMetadata hread
  rcases found with - | metadata
  · obtain ⟨_, u₅, hwrite, hret⟩ := executes_bind_ok.1 h
    obtain ⟨hbackend, rfl⟩ := hret
    obtain rfl := Except.ok.inj hbackend
    exact ⟨rfl, executes_writeMetadataIfMissing (hmissing rfl) hwrite⟩
  · dsimp only at h
    split_ifs at h with hne
    · cases h.1
    · obtain ⟨hbackend, rfl⟩ := h
      obtain rfl := Except.ok.inj hbackend
      exact ⟨rfl, metadata, hrecorded, not_not.1 hne⟩

theorem recorded_of_openExisting
    (h : Executes outcomes (openExisting format path vectorDim embedderIdentity) d
    (.ok backend) d') : backend.embedderIdentity = embedderIdentity ∧
      ∃ metadata, d'.recorded format = some metadata ∧
      metadata.embedderVersion = embedderIdentity := by
  obtain ⟨b, u₁, -, h⟩ := executes_bind_ok.1 h
  split_ifs at h
  · obtain ⟨found, u₂, hread, h⟩ := executes_bind_ok.1 h
    obtain ⟨rfl, hrecorded, -⟩ := executes_readMetadata hread
    rcases found with - | metadata
    · cases h.1
    · dsimp only at h
      split_ifs at h with hne
      · cases h.1
      · obtain ⟨_, u₃, hconnect, h⟩ := executes_bind_ok.1 h
        obtain ⟨-, rfl⟩ := Prod.mk.inj (executes_attempting hconnect)
        obtain ⟨tables, u₄, htables, h⟩ := executes_bind_ok.1 h
        obtain ⟨-, rfl⟩ := Prod.mk.inj (executes_attempting htables)
        split_ifs at h
        · obtain ⟨_, u₅, hopen, hbackend, rfl⟩ := executes_bind_ok.1 h
          have hanswer := executes_attempting hopen
          rw [answer] at hanswer
          split_ifs at hanswer
          · obtain ⟨-, rfl⟩ := Prod.mk.inj hanswer
            obtain rfl := Except.ok.inj hbackend
            exact ⟨rfl, metadata, hrecorded, not_not.1 hne⟩
          · cases (Prod.mk.inj hanswer).1
        · cases h.1
  · cases h.1

/-! ### Opening again -/

theorem run_attempting {o : Call Byte Chunk} {a : o.Ret}
    (h : answer o d = (.ok a, d')) : run answer (attempting o error what) d = (.ok a, d') := by
  rw [attempting, run_mapError, run_perform, h]
  rfl

theorem run_createIndex {table : Table Chunk} (column : String) (h : d.table = some table) :
    run answer (attempting (.createIndex column) error what) d =
      (.ok (), { d with table := some { table with indices := table.indices ++ [column] } }) :=
  run_attempting (by rw [answer, h])

/-- The table is made, and the stamp is left alone. -/
theorem run_ensureTableExists :
    ∃ d', run answer (ensureTableExists vectorDim) d = (.ok (), d') ∧ d'.metadata = d.metadata := by
  have htables : run answer (attempting .tableNames .backend "Failed to list tables: ") d =
      (.ok (if d.listed then [TABLE_NAME] else []), d) := run_attempting rfl
  rcases hlisted : d.listed with - | -
  · refine ⟨{ d with listed := true, table := some ⟨vectorDim, [], SCALAR_INDEX_COLUMNS⟩ }, ?_, rfl⟩
    rw [hlisted] at htables
    rw [ensureTableExists, run_bind_ok htables]
    show run answer
      (attempting (.createTable vectorDim) .backend "Failed to create table: " >>= _) d = _
    have hcreate : run answer
      (attempting (.createTable vectorDim) .backend "Failed to create table: ") d =
        (.ok (), { d with listed := true, table := some ⟨vectorDim, [], []⟩ }) :=
      run_attempting (by rw [answer, hlisted]; rfl)
    rw [run_bind_ok hcreate, SCALAR_INDEX_COLUMNS, Prog.forEach_cons,
      run_bind_ok (run_createIndex "id" rfl),
      Prog.forEach_cons, run_bind_ok (run_createIndex "file_path" rfl), Prog.forEach_nil]
    rfl
  · refine ⟨d, ?_, rfl⟩
    rw [hlisted] at htables
    rw [ensureTableExists, run_bind_ok htables]
    rfl

theorem run_readMetadata_of_missing (h : d.metadata = none) :
    run answer (readMetadata format path) d = (.ok none, d) := by
  have hexists : run answer (Effect.Prog.perform (Call.metadataExists : Call Byte Chunk)) d =
      (.ok false, d) := by rw [run_perform, answer, h]; rfl
  rw [readMetadata, run_bind_ok hexists]
  rfl

theorem run_readMetadata_of_recorded {metadata : VectorStoreMetadata}
    (h : d.recorded format = some metadata) :
    run answer (readMetadata format path) d = (.ok (some metadata), d) := by
  obtain ⟨bytes, hbytes, hread⟩ := Option.bind_eq_some_iff.1 h
  have hexists : run answer (Effect.Prog.perform (Call.metadataExists : Call Byte Chunk)) d =
      (.ok true, d) := by rw [run_perform, answer, hbytes]; rfl
  have hok : format.read bytes = .ok metadata := by
    rcases hparse : format.read bytes with e | parsed
    · rw [hparse] at hread
      cases hread
    · rw [hparse] at hread
      exact congrArg Except.ok (Option.some.inj hread)
  rw [readMetadata, run_bind_ok hexists]
  show run answer (attempting .readMetadata _ _ >>= _) d = _
  rw [run_bind_ok (run_attempting (by rw [answer, hbytes]) : run answer _ d = (.ok bytes, d)), hok]
  rfl

/-- The stamp is written. -/
theorem run_writeMetadataIfMissing (h : d.metadata = none) :
    ∃ d', run answer (writeMetadataIfMissing format path embedderIdentity now)
    d = (.ok (), d') := by
  have hexists : run answer (Effect.Prog.perform (Call.metadataExists : Call Byte Chunk)) d =
      (.ok false, d) := by rw [run_perform, answer, h]; rfl
  exact ⟨_, (run_bind_ok hexists).trans (run_attempting rfl)⟩

/-- **Who can open a directory**: who comes with the identity that is recorded, or anybody if none
is. -/
theorem isOk_run_new (h : ¬d.Torn format) :
    (run answer (new format path vectorDim embedderIdentity now) d).1.isOk = true ↔
      ∀ metadata, d.recorded format = some metadata →
      metadata.embedderVersion = embedderIdentity := by
  obtain ⟨d₁, htable, hmetadata⟩ :
      ∃ d₁, run answer (ensureTableExists vectorDim) { d with isDir := true } = (.ok (), d₁) ∧
        d₁.metadata = d.metadata := run_ensureTableExists
  have hrecorded : d₁.recorded format = d.recorded format := by
    rw [Directory.recorded, Directory.recorded, hmetadata]
  rw [new, run_bind_ok (run_attempting rfl), run_bind_ok (run_attempting rfl), run_bind_ok htable]
  rcases hd : d.recorded format with - | metadata
  · have hnone : d.metadata = none := Option.not_isSome_iff_eq_none.1 fun hsome ↦ h ⟨hsome, hd⟩
    rw [run_bind_ok (run_readMetadata_of_missing (hmetadata.trans hnone))]
    obtain ⟨d₂, hwrite⟩ :
        ∃ d₂, run answer (writeMetadataIfMissing format path embedderIdentity now)
          d₁ = (.ok (), d₂) :=
      run_writeMetadataIfMissing (hmetadata.trans hnone)
    dsimp only
    rw [run_bind_ok hwrite]
    exact ⟨fun _ ↦ nofun, fun _ ↦ rfl⟩
  · rw [run_bind_ok (run_readMetadata_of_recorded (hrecorded.trans hd))]
    dsimp only
    split_ifs with hne
    · exact ⟨nofun, fun hall ↦ absurd (hall metadata rfl) hne⟩
    · refine ⟨fun _ metadata' heq ↦ ?_, fun _ ↦ rfl⟩
      rw [← Option.some.inj heq]
      exact not_not.1 hne

end Programs

/-! ### Histories, seen as a whole -/

section Histories

variable {backends : List Backend} {d : Directory Byte Chunk}

/-- **Every directory that is reached is stamped.** -/
theorem Reached.stamped (h : Reached format path d backends) : Stamped format backends d := by
  have hkeep : ∀ (bs : List Backend) o (s : Directory Byte Chunk) r t, Allowed bs o s →
      outcomes o s r t → Stamped format bs s → Stamped format bs t :=
    fun _ _ _ _ _ hallowed hstep ↦ Stamped.call hallowed hstep
  induction h with
  | untouched isDir => exact ⟨nofun, nofun, nofun⟩
  | new _ hopen ih =>
    have hstamped := guarded_new.visits _ (hkeep _) ih hopen.visits
    obtain ⟨hidentity, hrecorded⟩ := recorded_of_new hopen
    refine ⟨hstamped.listed, hstamped.rows, fun b hb ↦ ?_⟩
    rcases List.mem_cons.1 hb with rfl | hb
    · rw [hidentity]
      exact hrecorded
    · exact hstamped.backends b hb
  | newCut _ hcut ih => exact guarded_new.visits _ (hkeep _) ih hcut
  | openExisting _ hopen ih =>
    have hstamped := guarded_openExisting.visits _ (hkeep _) ih hopen.visits
    obtain ⟨hidentity, hrecorded⟩ := recorded_of_openExisting hopen
    refine ⟨hstamped.listed, hstamped.rows, fun b hb ↦ ?_⟩
    rcases List.mem_cons.1 hb with rfl | hb
    · rw [hidentity]
      exact hrecorded
    · exact hstamped.backends b hb
  | openCut _ hcut ih => exact guarded_openExisting.visits _ (hkeep _) ih hcut
  | insert _ hmem hinsert ih => exact (guarded_insertChunks hmem _).visits _ (hkeep _) ih hinsert

/-- **The stamp can be trusted**: rows and backends are of the identity that is recorded. And unless
the stamp itself was cut off, a directory opens for that identity, or for every one if none is
recorded. -/
theorem Reached.stamp (h : Reached format path d backends) :
    (∀ row ∈ d.rows, ∃ metadata, d.recorded format = some metadata ∧
      metadata.embedderVersion = row.through) ∧
    (∀ backend ∈ backends, ∃ metadata, d.recorded format = some metadata ∧
      metadata.embedderVersion = backend.embedderIdentity) ∧
    (¬d.Torn format → ∀ vectorDim embedderIdentity now,
      (run answer (LanceDb.new format path vectorDim embedderIdentity now) d).1.isOk = true ↔
        ∀ metadata, d.recorded format = some metadata →
        metadata.embedderVersion = embedderIdentity) :=
  ⟨h.stamped.rows, h.stamped.backends, fun htorn _ _ _ ↦ isOk_run_new htorn⟩

end Histories

/-! ### A directory without rows -/

theorem outcomes_answer (o : Call Byte Chunk) (d : Directory Byte Chunk) :
    outcomes o d (answer o d).1 (answer o d).2 :=
  .inl rfl

/-- A directory as the first `new` leaves it. -/
def opened (embedderIdentity : String) : Directory Char Unit :=
  (run answer (new metadataJson "/db" 2 embedderIdentity (some 0)) (.untouched false)).2

theorem reached_opened : Reached metadataJson "/db" (opened "A") [⟨2, "A"⟩] := by
  have hrun : run answer (new metadataJson "/db" 2 "A" (some 0)) (.untouched false) =
      (.ok ⟨2, "A"⟩, opened "A") := rfl
  exact .new (.untouched false) (.of_run outcomes_answer hrun)

/-- The first identity is recorded before there are rows, and no other is let in: here its next open
is cut off at its first step. -/
theorem refused_without_rows : ∃ (d : Directory Char Unit) (backends : List Backend),
    Reached metadataJson "/db" d backends ∧
      Visits outcomes (openExisting metadataJson "/db" 2 "A") (opened "A") d ∧ d.rows = [] ∧
      (run answer (new metadataJson "/db" 2 "B" (some 1)) d).1 = .error
      (.versionMismatch "A" "B") := by
  have hcut : Visits outcomes (openExisting metadataJson "/db" 2 "A") (opened "A") (opened "A") :=
    visits_refl _ _
  exact ⟨opened "A", _, reached_opened.openCut hcut, hcut, rfl, rfl⟩

/-- A directory with a row. -/
def inserted : Directory Char Unit :=
  (run answer ((⟨2, "A"⟩ : Backend).insertChunks [([0, 1], ())]) (opened "A")).2

theorem stamp_inserted : inserted.rows ≠ [] ∧
    (∀ row ∈ inserted.rows, ∃ metadata, inserted.recorded metadataJson = some metadata ∧
      metadata.embedderVersion = row.through) ∧
    ((run answer (new metadataJson "/db" 2 "A" (some 1)) inserted).1.isOk = true ↔
      ∀ metadata, inserted.recorded metadataJson = some metadata →
      metadata.embedderVersion = "A") := by
  have hinsert : Visits outcomes ((⟨2, "A"⟩ : Backend).insertChunks [([0, 1], ())]) (opened "A")
      inserted := (Executes.of_run outcomes_answer rfl).visits
  have hstamp := (reached_opened.insert List.mem_cons_self hinsert).stamp
  refine ⟨nofun, hstamp.1, hstamp.2.2 ?_ 2 "A" (some 1)⟩
  rintro ⟨-, hnone⟩
  cases hnone

end RustCodeMcp.LanceDb
