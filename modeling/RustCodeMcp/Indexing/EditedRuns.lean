import RustCodeMcp.Indexing.EditedFiles

/-!
# What an edited run leaves

A run writes a file with the rows cut from the version it read last, and records it with the hash
of that text under the stat of a version it finds only then; the snapshot has the hash of the
version the Merkle walk read. An editor may have saved the file in between. `EditedTo` says what is
left of it then, by the versions that the run found, and `editedTo_of_run` that an incremental run
leaves nothing else, however it ends.

Once a file has been prepared, its part of the run is settled up to the moment at which it is
recorded. `Due` follows the path through the loop: still to be prepared, pending, or done with. A
flush does what is due (`Due.flush`), calls about other paths leave it due (`Due.beside`), and at
the end nothing is due any more.

A run may fail on the way, by what it reads; its writes do not fail here (`Call.Certain`), since the
editor changes files, and takes none away.
-/

namespace RustCodeMcp

open Effect

variable {D : Type} {env : Env D} {w : World D} {path : PathBuf} {rows : List Row}
  {record : Option (FileMetadata D)} {s t : World D × List Look} {exclusion : ReaderExclusion}
  {u : Unit}

/-! ### Writing cannot fail -/

/-- The calls that do not fail as long as the files of a world are there. -/
def Call.Certain (w : World D) : Call D → Prop
  | read p | metadata p => (w.tree.lookup p).isSome = true
  | chunkSource _ _ | decodeBatch _ => False
  | _ => True

/-- No call touches the files. -/
theorem handle_tree {call : Call D} {u v : World D} {r : Except String call.Ret}
    (h : World.handle env call u = (r, v)) : v.tree = u.tree := by
  cases call with
  | chunkSource p text =>
    obtain ⟨nextId, rfl⟩ := handle_of_reads (by trivial) h
    rfl
  | _ => exact congrArg (fun outcome ↦ outcome.2.tree) h.symm

theorem handle_certain {call : Call D} {u v : World D} {r : Except String call.Ret}
    (hcertain : call.Certain w)
    (hlive : ∀ p, (u.tree.lookup p).isSome = (w.tree.lookup p).isSome)
    (h : World.handle env call u = (r, v)) : ∃ a, r = .ok a := by
  cases call with
  | read p | metadata p =>
    obtain ⟨file, hfile⟩ := Option.isSome_iff_exists.1 ((hlive p).trans hcertain)
    simp only [World.handle, World.open?, hfile] at h
    exact ⟨_, (congrArg Prod.fst h).symm⟩
  | chunkSource | decodeBatch => exact hcertain.elim
  | _ => exact ⟨_, (congrArg Prod.fst h).symm⟩

/-- A program that makes such calls only does not fail, whatever the editor does. -/
theorem ok_of_certain {α : Type} {task : Task D α} {r : Except String α}
    (hfaultless : Faultless task) (hcertain : Only (Call.Certain w) task)
    (h : At w path rows record s) (hexec : Executes (World.watched env path) task s r t) :
    ∃ a, r = .ok a := by
  refine hfaultless.ends hcertain
    (fun s ↦ ∀ p, (s.1.tree.lookup p).isSome = (w.tree.lookup p).isSome) ?_ ?_ h.live hexec
  · rintro call s e t hcall hlive ⟨u, hediting, hhandle, -⟩
    obtain ⟨a, ha⟩ := handle_certain hcall
      (fun p ↦ (hediting.isSome_lookup p).trans (hlive p)) hhandle
    cases ha
  · rintro call s r t - ⟨u, hediting, hhandle, -⟩ hlive p
    rw [handle_tree hhandle, hediting.isSome_lookup]
    exact hlive p

theorem certain_request {call : Call D} (h : call.Certain w) :
    Only (Call.Certain w) (request call) :=
  only_perform.2 h

theorem certain_beforeWrite {entered : Bool} :
    Only (Call.Certain w) (beforeWrite exclusion entered : Task D Unit) := by
  unfold beforeWrite
  split
  · exact only_pure
  · cases exclusion
    · exact only_pure
    · exact certain_request (by trivial)

theorem faultless_beforeWrite {entered : Bool} :
    Faultless (beforeWrite exclusion entered : Task D Unit) := by
  unfold beforeWrite
  split
  · exact faultless_pure
  · cases exclusion
    · exact faultless_pure
    · exact faultless_perform

theorem certain_writeFiles {files : List PreparedFile} {removed : List PathBuf}
    (hlive : ∀ file ∈ files, (w.tree.lookup file.path).isSome = true) :
    Only (Call.Certain w) (writeFiles env files removed) := by
  unfold writeFiles
  split
  · exact only_pure
  refine Only.bind (Only.bind (Only.forEach fun _ _ ↦ certain_request (by trivial)) fun _ ↦
    only_mapError.2 (certain_request (by trivial))) fun _ ↦ ?_
  refine Only.bind (Only.forEach fun _ _ ↦ Only.forEach fun _ _ ↦
    only_mapError.2 (certain_request (by trivial))) fun _ ↦ ?_
  have hinsert : Only (Call.Certain w)
      (insertChunks (files.flatMap PreparedFile.rows) : Task D Unit) := by
    unfold insertChunks
    split
    · exact only_pure
    · exact only_mapError.2 (certain_request (by trivial))
  refine hinsert.bind fun _ ↦ Only.forEach fun file hfile ↦ ?_
  unfold recordIfIndexed
  split
  · exact only_pure
  · exact Only.bind (only_failingAs (certain_request (hlive file hfile))) fun _ ↦
      only_failingAs (certain_request (by trivial))

theorem faultless_writeFiles {files : List PreparedFile} {removed : List PathBuf} :
    Faultless (writeFiles env files removed) := by
  unfold writeFiles
  split
  · exact faultless_pure
  refine Faultless.bind (Faultless.bind (Faultless.forEach fun _ ↦ faultless_perform) fun _ ↦
    faultless_perform.mapError) fun _ ↦ ?_
  refine Faultless.bind (Faultless.forEach fun _ ↦ Faultless.forEach fun _ ↦
    faultless_perform.mapError) fun _ ↦ ?_
  have hinsert : Faultless (insertChunks (files.flatMap PreparedFile.rows) : Task D Unit) := by
    unfold insertChunks
    split
    · exact faultless_pure
    · exact faultless_perform.mapError
  refine hinsert.bind fun _ ↦ Faultless.forEach fun file ↦ ?_
  unfold recordIfIndexed
  split
  · exact faultless_pure
  · exact Faultless.bind faultless_perform.mapError fun _ ↦ faultless_perform.mapError

/-! ### Writing -/

/-- Deleting the chunks of files deletes the path's rows if it is one of them. -/
theorem At.deleted {paths : List PathBuf} (h : At w path rows record s)
    (hexec : Executes (World.watched env path) (deleteFilesChunks paths) s (.ok u) t) :
    At w path (if path ∈ paths then [] else rows) record t ∧ t.2 = s.2 := by
  obtain ⟨_, s₁, hqueue, hdelete⟩ := executes_bind_ok.1 hexec
  obtain ⟨hat, hlooks⟩ := h.beside
    (Only.forEach fun _ _ ↦ beside_request (by trivial) (by trivial)) hqueue.visits
  obtain ⟨_, -, hdelete⟩ := executes_mapError.1 hdelete
  obtain ⟨v, hediting, hhandle, hlook⟩ := executes_perform.1 hdelete
  have hworld : t.1 = { v with vectors := v.vectors.filter fun row ↦ row.filePath ∉ paths } :=
    (congrArg Prod.snd hhandle).symm
  obtain ⟨hrows, hrecord, hsnapshot, hlive⟩ := hat.edited hediting
  refine ⟨⟨?_, ?_, ?_, ?_⟩, ?_⟩
  · rw [hworld, ← hrows]
    exact World.rowsAt_deleted
  · rw [hworld]
    exact hrecord
  · rw [hworld]
    exact hsnapshot
  · rw [hworld]
    exact hlive
  · rw [hlook, ← hlooks]
    exact List.append_nil _

/-- Inserting rows adds those of the path. -/
theorem At.inserted {added : List Row} (h : At w path rows record s)
    (hexec : Executes (World.watched env path) (insertChunks added) s (.ok u) t) :
    At w path (rows ++ added.filter fun row ↦ row.filePath = path) record t ∧ t.2 = s.2 := by
  unfold insertChunks at hexec
  split at hexec
  next hempty =>
    obtain ⟨-, rfl⟩ := executes_pure.1 hexec
    rw [List.isEmpty_iff.1 hempty, List.filter_nil, List.append_nil]
    exact ⟨h, rfl⟩
  next =>
    obtain ⟨_, -, hinsert⟩ := executes_mapError.1 hexec
    obtain ⟨v, hediting, hhandle, hlook⟩ := executes_perform.1 hinsert
    have hworld : t.1 = { v with vectors := v.vectors ++ added } :=
      (congrArg Prod.snd hhandle).symm
    obtain ⟨hrows, hrecord, hsnapshot, hlive⟩ := h.edited hediting
    refine ⟨⟨?_, ?_, ?_, ?_⟩, ?_⟩
    · rw [hworld, ← hrows]
      exact World.rowsAt_inserted
    · rw [hworld]
      exact hrecord
    · rw [hworld]
      exact hsnapshot
    · rw [hworld]
      exact hlive
    · rw [hlook]
      exact List.append_nil _

/-- The record of a file written from `prepared` when the version `recorded` is there. -/
def recordOfStat (env : Env D) (prepared : PreparedFile) (recorded : FileEntry) : FileMetadata D :=
  ⟨env.sha256 prepared.content.toUTF8, recorded.metadata.stat.lastModified,
    recorded.metadata.stat.size⟩

/-- **The record of a written file takes the stat of a version found anew.** -/
theorem At.recorded {prepared : PreparedFile} (h : At w path rows record s)
    (hlive : (w.tree.lookup path).isSome = true) (hpath : prepared.path = path)
    (hnonempty : prepared.chunks ≠ [])
    (hexec : Executes (World.watched env path) (recordIfIndexed env prepared) s (.ok u) t) :
    ∃ recorded, t.2 = s.2 ++ [.stat recorded] ∧
      At w path rows (some (recordOfStat env prepared recorded)) t := by
  unfold recordIfIndexed at hexec
  rw [if_neg (by simpa using hnonempty), updateFileMetadata, hpath] at hexec
  obtain ⟨metadata, s₁, hstat, hset⟩ := executes_bind_ok.1 hexec
  obtain ⟨outcome, houtcome, hstat⟩ := executes_mapError.1 hstat
  obtain ⟨recorded, rfl, hlooks, hat⟩ := executes_fsMetadata h hlive hstat
  cases houtcome
  obtain ⟨_, -, hset⟩ := executes_mapError.1 hset
  obtain ⟨v, hediting, hhandle, hlook⟩ := executes_perform.1 hset
  have hworld :
      t.1 = { v with cache := v.cache.insert path (recordOfStat env prepared recorded) } :=
    (congrArg Prod.snd hhandle).symm
  obtain ⟨hrows, hrecord, hsnapshot, hlive'⟩ := hat.edited hediting
  refine ⟨recorded, ?_, ⟨?_, ?_, ?_, ?_⟩⟩
  · rw [hlook, hlooks]
    exact List.append_nil _
  · rw [hworld]
    exact hrows
  · rw [hworld]
    exact AList.lookup_insert _
  · rw [hworld]
    exact hsnapshot
  · rw [hworld]
    exact hlive'

/-- A file that a pending write may hold: its path is there, and its chunks are cut from its
text. -/
structure PreparedFile.Writable (env : Env D) (w : World D) (file : PreparedFile) : Prop where
  cut : file.Cut env
  live : (w.tree.lookup file.path).isSome = true

section Write

variable {files : List PreparedFile} {removed : List PathBuf} {r : Except String Unit}

/-- What a write does to the rows of the path, up to the records. -/
theorem executes_writeFiles_rows (h : At w path rows record s)
    (hexec : Executes (World.watched env path) (writeFiles env files removed) s (.ok u) t) :
    ∃ s₁, At w path ((if path ∈ removed ++ files.map PreparedFile.path then [] else rows) ++
        (files.flatMap PreparedFile.rows).filter fun row ↦ row.filePath = path) record s₁ ∧
      s₁.2 = s.2 ∧
      Executes (World.watched env path) (Prog.forEach (recordIfIndexed env) files) s₁ (.ok u)
        t := by
  unfold writeFiles at hexec
  split at hexec
  next hempty =>
    obtain ⟨hu, rfl⟩ := executes_pure.1 hexec
    obtain ⟨hfiles, hremoved⟩ := Bool.and_eq_true_iff.1 hempty
    obtain rfl := List.isEmpty_iff.1 hfiles
    obtain rfl := List.isEmpty_iff.1 hremoved
    exact ⟨t, by simpa using h, rfl, hexec⟩
  next =>
    obtain ⟨_, s₁, hdelete, hexec⟩ := executes_bind_ok.1 hexec
    obtain ⟨_, s₂, hindex, hexec⟩ := executes_bind_ok.1 hexec
    obtain ⟨_, s₃, hinsert, hrecord⟩ := executes_bind_ok.1 hexec
    obtain ⟨hat₁, hlooks₁⟩ := h.deleted hdelete
    obtain ⟨hat₂, hlooks₂⟩ := hat₁.beside (Only.forEach fun _ _ ↦ beside_indexChunks)
      hindex.visits
    obtain ⟨hat₃, hlooks₃⟩ := hat₂.inserted hinsert
    exact ⟨s₃, hat₃, hlooks₃.trans (hlooks₂.trans hlooks₁), hrecord⟩

/-- Records of other files do not concern the path. -/
theorem At.records_of_not_mem (h : At w path rows record s)
    (hpath : path ∉ files.map PreparedFile.path)
    (hexec : Executes (World.watched env path) (Prog.forEach (recordIfIndexed env) files) s
      (.ok u) t) :
    At w path rows record t ∧ t.2 = s.2 :=
  h.beside (Only.forEach fun _ hfile ↦ beside_recordIfIndexed fun heq ↦
    hpath (heq ▸ List.mem_map_of_mem hfile)) hexec.visits

/-- **A write that is not about the path** leaves what is held of it. -/
theorem executes_writeFiles_of_not_mem (h : At w path rows record s)
    (hfiles : ∀ file ∈ files, file.Cut env)
    (hpath : path ∉ removed ++ files.map PreparedFile.path)
    (hexec : Executes (World.watched env path) (writeFiles env files removed) s (.ok u) t) :
    At w path rows record t ∧ t.2 = s.2 := by
  obtain ⟨s₁, hat, hlooks, hrecord⟩ := executes_writeFiles_rows h hexec
  have hnot : path ∉ files.map PreparedFile.path := fun hmem ↦
    hpath (List.mem_append_right _ hmem)
  have hnone := filter_flatMap_of_not_mem
    (fun file hfile ↦ PreparedFile.filePath_of_mem_rows (hfiles file hfile).atPath) hnot
  rw [if_neg hpath, hnone, List.append_nil] at hat
  obtain ⟨hat', hlooks'⟩ := hat.records_of_not_mem hnot hrecord
  exact ⟨hat', hlooks'.trans hlooks⟩

/-- **A write that removes the path** leaves no rows of it; its record stays. -/
theorem executes_writeFiles_of_mem_removed (h : At w path rows record s)
    (hfiles : ∀ file ∈ files, file.Cut env) (hremoved : path ∈ removed)
    (hnot : path ∉ files.map PreparedFile.path)
    (hexec : Executes (World.watched env path) (writeFiles env files removed) s (.ok u) t) :
    At w path [] record t ∧ t.2 = s.2 := by
  obtain ⟨s₁, hat, hlooks, hrecord⟩ := executes_writeFiles_rows h hexec
  have hnone := filter_flatMap_of_not_mem
    (fun file hfile ↦ PreparedFile.filePath_of_mem_rows (hfiles file hfile).atPath) hnot
  rw [if_pos (List.mem_append_left _ hremoved), hnone] at hat
  obtain ⟨hat', hlooks'⟩ := hat.records_of_not_mem hnot hrecord
  exact ⟨hat', hlooks'.trans hlooks⟩

/-- **A write of the path's file** leaves its rows, and its record under the stat of a version found
anew. -/
theorem executes_writeFiles_of_mem {prepared : PreparedFile}
    (h : At w path rows record s) (hlive : (w.tree.lookup path).isSome = true)
    (hfiles : ∀ file ∈ files, file.Cut env) (hnodup : (files.map PreparedFile.path).Nodup)
    (hmem : prepared ∈ files) (hpath : prepared.path = path)
    (hexec : Executes (World.watched env path) (writeFiles env files removed) s (.ok u) t) :
    ∃ recorded, t.2 = s.2 ++ [.stat recorded] ∧
      At w path prepared.rows (some (recordOfStat env prepared recorded)) t := by
  obtain ⟨s₁, hat, hlooks, hrecord⟩ := executes_writeFiles_rows h hexec
  have hmine := filter_flatMap_of_mem
    (fun file hfile ↦ PreparedFile.filePath_of_mem_rows (hfiles file hfile).atPath) hnodup hmem
  rw [hpath] at hmine
  have hin : path ∈ removed ++ files.map PreparedFile.path :=
    List.mem_append_right _ (hpath ▸ List.mem_map_of_mem hmem)
  rw [if_pos hin, hmine, List.nil_append] at hat
  -- No other file of the write is at the path.
  obtain ⟨before, after, rfl⟩ := List.append_of_mem hmem
  rw [List.map_append, List.map_cons, hpath] at hnodup
  obtain ⟨-, hafter, hdisjoint⟩ := List.nodup_append'.1 hnodup
  obtain ⟨s₂, hbefore, hrest⟩ := executes_forEach_append hrecord
  obtain ⟨hat₂, hlooks₂⟩ := hat.records_of_not_mem (fun h ↦ hdisjoint h List.mem_cons_self)
    hbefore
  obtain ⟨_, s₃, hhead, hrest⟩ := executes_bind_ok.1 hrest
  obtain ⟨recorded, hlooks₃, hat₃⟩ :=
    hat₂.recorded hlive hpath (hfiles prepared hmem).nonempty hhead
  obtain ⟨hat', hlooks'⟩ := hat₃.records_of_not_mem (List.nodup_cons.1 hafter).1 hrest
  refine ⟨recorded, ?_, hat'⟩
  rw [hlooks', hlooks₃, hlooks₂, hlooks]

end Write

/-! ### The run and the path -/

/-- What is held of the path is what was held of it in the world `w`. -/
abbrev AtStart (w : World D) (path : PathBuf) (s : World D × List Look) : Prop :=
  At w path (w.rowsAt path) (w.cache.lookup path) s

/-- What has become of the path: it is as it was, or its rows are gone, or it is written. Of a path
to retry nothing has been touched. -/
inductive Became (env : Env D) (w : World D) (path : PathBuf) (stats : IndexStats)
    (s : World D × List Look) : Prop
  | kept (h : AtStart w path s)
  | cleared (hretry : path ∉ stats.retryFiles) (h : At w path [] (w.cache.lookup path) s)
  | written {content recorded : FileEntry} {prepared : PreparedFile}
      (hretry : path ∉ stats.retryFiles) (hpath : prepared.path = path) (hcut : prepared.Cut env)
      (hutf8 : String.fromUTF8? content.bytes = some prepared.content)
      (hcontent : (Look.reads s.2).getLast? = some content)
      (hrecorded : (Look.stats s.2).getLast? = some recorded)
      (h : At w path prepared.rows (some (recordOfStat env prepared recorded)) s)

/-- Where the path stands in a run over changes: it is still to be prepared, its file is to be
written, its rows are to go, or nothing more happens to it. -/
inductive Due (env : Env D) (w : World D) (path : PathBuf) (toPrepare : List PathBuf)
    (pending : PendingWrite) (stats : IndexStats) (s : World D × List Look) : Prop
  | toPrepare (hmem : path ∈ toPrepare) (hretry : path ∉ stats.retryFiles) (h : AtStart w path s)
  | toWrite {content : FileEntry} {prepared : PreparedFile} (hretry : path ∉ stats.retryFiles)
      (hmem : prepared ∈ pending.files) (hpath : prepared.path = path)
      (hutf8 : String.fromUTF8? content.bytes = some prepared.content)
      (hcontent : (Look.reads s.2).getLast? = some content) (h : AtStart w path s)
  | toClear (hretry : path ∉ stats.retryFiles) (hmem : path ∈ pending.cleared)
      (h : AtStart w path s)
  | settled (hrest : path ∉ toPrepare) (hpath : path ∉ pending.paths)
      (h : Became env w path stats s)

section Due

variable {toPrepare : List PathBuf} {pending pending' : PendingWrite} {stats stats' : IndexStats}
  {r : Except String IndexStats}

theorem Became.at (h : Became env w path stats s) : ∃ rows record, At w path rows record s := by
  cases h with
  | kept h => exact ⟨_, _, h⟩
  | cleared _ h => exact ⟨_, _, h⟩
  | written _ _ _ _ _ _ h => exact ⟨_, _, h⟩

theorem Due.at (h : Due env w path toPrepare pending stats s) :
    ∃ rows record, At w path rows record s := by
  cases h with
  | toPrepare _ _ h => exact ⟨_, _, h⟩
  | toWrite _ _ _ _ _ h => exact ⟨_, _, h⟩
  | toClear _ _ h => exact ⟨_, _, h⟩
  | settled _ _ h => exact h.at

/-- What keeps what is held of the path, and looks at nothing, keeps what has become of it. -/
theorem Became.frame (h : Became env w path stats s)
    (hframe : ∀ {rows record}, At w path rows record s → At w path rows record t ∧ t.2 = s.2)
    (hretry : path ∈ stats'.retryFiles → path ∈ stats.retryFiles) :
    Became env w path stats' t := by
  cases h with
  | kept h => exact .kept (hframe h).1
  | cleared hnot h => exact .cleared (fun hin ↦ hnot (hretry hin)) (hframe h).1
  | written hnot hpath hcut hutf8 hcontent hrecorded h =>
    obtain ⟨hat, hlooks⟩ := hframe h
    exact .written (fun hin ↦ hnot (hretry hin)) hpath hcut hutf8 (hlooks ▸ hcontent)
      (hlooks ▸ hrecorded) hat

/-- Calls beside the point leave where it stands, if what is pending grows by other paths only. -/
theorem Due.beside {toPrepare' : List PathBuf} (h : Due env w path toPrepare pending stats s)
    (hsteps : Steps (World.watched env path) (Call.Beside path) s t)
    (hretry : path ∈ stats'.retryFiles → path ∈ stats.retryFiles)
    (hrest : path ∈ toPrepare' ↔ path ∈ toPrepare)
    (hpaths : path ∈ pending'.paths → path ∈ pending.paths)
    (hfiles : pending.files ⊆ pending'.files) (hcleared : pending.cleared ⊆ pending'.cleared) :
    Due env w path toPrepare' pending' stats' t := by
  cases h with
  | toPrepare hmem hnot h =>
    exact .toPrepare (hrest.2 hmem) (fun hin ↦ hnot (hretry hin)) (h.besideSteps hsteps).1
  | toWrite hnot hmem hpath hutf8 hcontent h =>
    obtain ⟨hat, hlooks⟩ := h.besideSteps hsteps
    exact .toWrite (fun hin ↦ hnot (hretry hin)) (hfiles hmem) hpath hutf8 (hlooks ▸ hcontent) hat
  | toClear hnot hmem h =>
    exact .toClear (fun hin ↦ hnot (hretry hin)) (hcleared hmem) (h.besideSteps hsteps).1
  | settled hnot hpath h =>
    exact .settled (fun hin ↦ hnot (hrest.1 hin)) (fun hin ↦ hpath (hpaths hin))
      (h.frame (fun h ↦ h.besideSteps hsteps) hretry)

/-- Forgetting other files does not concern the path. -/
theorem executes_watched_forgetGone {gone : List PathBuf} (hgone : path ∉ gone)
    (hexec : Executes (World.watched env path) (gone.foldlM forgetGone stats) s r t) :
    ∃ stats', r = .ok stats' ∧ Steps (World.watched env path) (Call.Beside path) s t ∧
      (path ∈ stats'.retryFiles → path ∈ stats.retryFiles) := by
  induction gone generalizing stats s with
  | nil =>
    obtain ⟨rfl, rfl⟩ := executes_pure.1 hexec
    exact ⟨stats, rfl, .refl, id⟩
  | cons p rest ih =>
    obtain ⟨hne, hrest⟩ := not_or.1 (List.mem_cons.not.1 hgone)
    rw [List.foldlM_cons] at hexec
    have hbeside : Only (Call.Beside path) (forgetGone stats p : Task D IndexStats) :=
      beside_forgetGone (Ne.symm hne)
    have hhead : ∀ {r : Except String IndexStats} {s₁ : World D × List Look},
        Executes (World.watched env path) (forgetGone stats p) s r s₁ →
        ∃ stats₁, r = .ok stats₁ ∧ (path ∈ stats₁.retryFiles → path ∈ stats.retryFiles) := by
      intro r s₁ hexec
      rcases executes_bind.1 hexec with ⟨outcome, _, -, hpure⟩ | ⟨e, hattempt, -⟩
      · rcases outcome with e | u
        · obtain ⟨rfl, -⟩ := executes_pure.1 hpure
          exact ⟨_, rfl, fun hin ↦ (List.mem_append.1 hin).resolve_right fun h ↦
            hne (List.mem_singleton.1 h)⟩
        · obtain ⟨rfl, -⟩ := executes_pure.1 hpure
          exact ⟨_, rfl, id⟩
      · obtain ⟨_, hok, -⟩ := executes_attempt.1 hattempt
        cases hok
    rcases executes_bind.1 hexec with ⟨stats₁, s₁, hforget, hexec⟩ | ⟨e, hforget, -⟩
    · obtain ⟨_, hok, hretry⟩ := hhead hforget
      cases hok
      obtain ⟨stats', hr, hsteps, hretry'⟩ := ih hrest hexec
      exact ⟨stats', hr, (hbeside.steps hforget.visits).trans hsteps,
        fun hin ↦ hretry (hretry' hin)⟩
    · obtain ⟨_, hok, -⟩ := hhead hforget
      cases hok

/-- A flush succeeds in writing, and what it does next does not concern the path. -/
theorem executes_watched_flush (h : At w path rows record s)
    (hfiles : ∀ file ∈ pending.files, file.Writable env w) (hgone : path ∉ pending.gone)
    (hexec : Executes (World.watched env path) (pending.flush env stats) s r t) :
    ∃ stats' s₁, r = .ok stats' ∧
      Executes (World.watched env path) (writeFiles env pending.files pending.removed) s (.ok ())
        s₁ ∧
      Steps (World.watched env path) (Call.Beside path) s₁ t ∧
      (path ∈ stats'.retryFiles → path ∈ stats.retryFiles) := by
  rcases executes_bind.1 hexec with ⟨outcome, s₁, hwrite, hexec⟩ | ⟨e, hattempt, -⟩
  swap
  · obtain ⟨_, hok, -⟩ := executes_attempt.1 hattempt
    cases hok
  obtain ⟨_, hok, hwrite⟩ := executes_attempt.1 hwrite
  cases hok
  obtain ⟨_, rfl⟩ := ok_of_certain faultless_writeFiles
    (certain_writeFiles fun file hfile ↦ (hfiles file hfile).live) h hwrite
  obtain ⟨stats', hr, hsteps, hretry⟩ := executes_watched_forgetGone hgone hexec
  rw [retryFiles_foldl_recordWritten] at hretry
  exact ⟨stats', s₁, hr, hwrite, hsteps, hretry⟩

/-- **A flush does what is due.** -/
theorem Due.flush (hlive : (w.tree.lookup path).isSome = true)
    (hdue : Due env w path toPrepare pending stats s)
    (hfiles : ∀ file ∈ pending.files, file.Writable env w)
    (hnodup : (pending.paths ++ toPrepare).Nodup) (hgone : path ∉ pending.gone)
    (hexec : Executes (World.watched env path) (pending.flush env stats) s r t) :
    ∃ stats', r = .ok stats' ∧ Due env w path toPrepare {} stats' t := by
  obtain ⟨rows, record, hat⟩ := hdue.at
  obtain ⟨stats', s₁, hr, hwrite, hsteps, hretry⟩ := executes_watched_flush hat hfiles hgone hexec
  have hcut : ∀ file ∈ pending.files, file.Cut env := fun file hfile ↦ (hfiles file hfile).cut
  obtain ⟨hpaths, -, hrest⟩ := List.nodup_append'.1 hnodup
  obtain ⟨-, hnodupFiles, hdisjoint⟩ := List.nodup_append'.1 hpaths
  have hempty : path ∉ PendingWrite.paths {} := by simp [PendingWrite.paths, PendingWrite.removed]
  have hbeside : Became env w path stats s₁ → Became env w path stats' t :=
    fun h ↦ h.frame (fun h ↦ h.besideSteps hsteps) hretry
  refine ⟨stats', hr, ?_⟩
  cases hdue with
  | toPrepare hmem hnot h =>
    obtain ⟨hat₁, -⟩ := executes_writeFiles_of_not_mem h hcut (fun hin ↦ hrest hin hmem) hwrite
    exact .toPrepare hmem (fun hin ↦ hnot (hretry hin)) (hat₁.besideSteps hsteps).1
  | @toWrite content prepared hnot hmem hpath hutf8 hcontent h =>
    obtain ⟨recorded, hlooks, hat₁⟩ :=
      executes_writeFiles_of_mem h hlive hcut hnodupFiles hmem hpath hwrite
    have hcontent₁ : (Look.reads s₁.2).getLast? = some content := by
      rw [hlooks, Look.reads_append]
      simpa [Look.reads, Look.read?] using hcontent
    have hrecorded : (Look.stats s₁.2).getLast? = some recorded := by
      rw [hlooks, Look.stats_append]
      simp [Look.stats, Look.stat?]
    have hwritten : Became env w path stats s₁ :=
      .written hnot hpath (hcut _ hmem) hutf8 hcontent₁ hrecorded hat₁
    have hin : path ∈ pending.paths := hpath ▸ mem_paths_files hmem
    exact .settled (fun h ↦ hrest hin h) hempty (hbeside hwritten)
  | toClear hnot hmem h =>
    have hremoved : path ∈ pending.removed := List.mem_append_right _ hmem
    obtain ⟨hat₁, -⟩ := executes_writeFiles_of_mem_removed h hcut hremoved
      (fun hin ↦ hdisjoint hremoved hin) hwrite
    have hcleared : Became env w path stats s₁ := .cleared hnot hat₁
    exact .settled (fun h ↦ hrest (List.mem_append_left _ hremoved) h) hempty (hbeside hcleared)
  | settled hnot hpath h =>
    refine .settled hnot hempty (hbeside ?_)
    exact h.frame (fun h ↦ executes_writeFiles_of_not_mem h hcut hpath hwrite) id

/-- What accounting for a prepared file adds to the pending write, and to the paths to retry. -/
theorem accountPreparation_cases {p : PathBuf} {consult : Bool}
    {outcome : Except String Preparation}
    (haccount : accountPreparation p consult outcome pending stats = (pending', stats')) :
    (∃ file, outcome = .ok (.ready file) ∧ stats' = stats ∧ pending' = { pending with
      rows := pending.rows + file.chunks.length, files := pending.files ++ [file] }) ∨
    (stats' = stats ∧ pending' = { pending with cleared := pending.cleared ++ [p] }) ∨
    (pending' = pending ∧ ∀ q ∈ stats'.retryFiles, q ∈ stats.retryFiles ∨ q = p) := by
  rcases outcome with e | preparation
  · cases haccount
    exact .inr (.inr ⟨rfl, fun q hq ↦ (recordError_retryFiles hq).imp id And.left⟩)
  rcases preparation with file | - | -
  · cases haccount
    exact .inl ⟨file, rfl, rfl, rfl⟩
  · cases haccount
    exact .inr (.inr ⟨rfl, fun q hq ↦ Or.inl hq⟩)
  · rcases consult with - | - <;> cases haccount
    · exact .inr (.inl ⟨rfl, rfl⟩)
    · exact .inr (.inr ⟨rfl, fun q hq ↦ Or.inl hq⟩)

/-- **One round of the loop** moves the path of the round from what is to be prepared to what is
pending, or settles it. -/
theorem Due.round [DecidableEq D] {p : PathBuf} {consult : Bool}
    {outcome : Except String Preparation} (hlive : (w.tree.lookup path).isSome = true)
    (hliveRound : (w.tree.lookup p).isSome = true)
    (hdue : Due env w path (p :: toPrepare) pending stats s)
    (hfiles : ∀ file ∈ pending.files, file.Writable env w)
    (hnodup : (pending.paths ++ p :: toPrepare).Nodup) (hgone : path ∉ pending.gone)
    (hexec : Executes (World.watched env path) (prepareFile env p consult) s outcome t)
    (haccount : accountPreparation p consult outcome pending stats = (pending', stats')) :
    Due env w path toPrepare pending' stats' t ∧ (∀ file ∈ pending'.files, file.Writable env w) ∧
      (pending'.paths ++ toPrepare).Nodup ∧ path ∉ pending'.gone := by
  have hmoved : (pending.paths ++ [p] ++ toPrepare).Nodup := by simpa using hnodup
  obtain ⟨-, hcons, hdisjoint⟩ := List.nodup_append'.1 hnodup
  have hpending : p ∉ pending.paths := fun h ↦ hdisjoint h List.mem_cons_self
  have hrest : p ∉ toPrepare := (List.nodup_cons.1 hcons).1
  by_cases hp : p = path
  · subst hp
    -- The path was still to be prepared, so that nothing has been done to it.
    obtain ⟨hretry, hstart⟩ : p ∉ stats.retryFiles ∧ AtStart w p s := by
      cases hdue with
      | toPrepare _ hretry h => exact ⟨hretry, h⟩
      | toWrite _ hmem hpath => exact absurd (hpath ▸ mem_paths_files hmem) hpending
      | toClear _ hmem =>
        exact absurd (List.mem_append_left _ (List.mem_append_right _ hmem)) hpending
      | settled hnot => exact absurd List.mem_cons_self hnot
    have hat : AtStart w p t :=
      hstart.aside ((prepares_prepareFile p consult).mono fun _ h ↦ h.aside) hexec.visits
    rcases accountPreparation_cases haccount with ⟨file, rfl, rfl, rfl⟩ | ⟨rfl, rfl⟩ | ⟨rfl, -⟩
    · obtain ⟨hpath, hcut⟩ := executes_prepareFile_cut hexec
      obtain ⟨content, hcontent, hutf8⟩ := executes_prepareFile hstart hlive hexec
      refine ⟨.toWrite hretry (List.mem_append_right _ (List.mem_singleton_self _)) hpath hutf8
        hcontent hat, fun prepared hprepared ↦ ?_, ?_, hgone⟩
      · rcases List.mem_append.1 hprepared with h | h
        · exact hfiles prepared h
        · obtain rfl := List.mem_singleton.1 h
          exact ⟨hcut, hpath ▸ hlive⟩
      · simpa [PendingWrite.paths, PendingWrite.removed, hpath] using hmoved
    · refine ⟨.toClear hretry (List.mem_append_right _ (List.mem_singleton_self _)) hat, hfiles,
        ?_, hgone⟩
      refine (List.Perm.nodup_iff (List.Perm.append_right _ ?_)).2 hmoved
      simp only [PendingWrite.paths, PendingWrite.removed, List.append_assoc]
      exact ((List.perm_append_comm).append_left _).append_left _
    · exact ⟨.settled hrest hpending (.kept hat), hfiles,
        hmoved.sublist ((List.sublist_append_left _ _).append_right _), hgone⟩
  · have hsteps : Steps (World.watched env path) (Call.Beside path) s t :=
      ((prepares_prepareFile p consult).mono fun _ h ↦ h.beside hp).steps hexec.visits
    have hmem : path ∈ toPrepare ↔ path ∈ p :: toPrepare := by
      simp [Ne.symm hp]
    rcases accountPreparation_cases haccount with
      ⟨file, rfl, rfl, rfl⟩ | ⟨rfl, rfl⟩ | ⟨rfl, hretry⟩
    · obtain ⟨hpath, hcut⟩ := executes_prepareFile_cut hexec
      refine ⟨hdue.beside hsteps id hmem (fun hin ↦ ?_) (List.subset_append_left _ _)
        (List.Subset.refl _), fun prepared hprepared ↦ ?_, ?_, hgone⟩
      · simpa [PendingWrite.paths, PendingWrite.removed, hpath, Ne.symm hp, or_assoc] using hin
      · rcases List.mem_append.1 hprepared with h | h
        · exact hfiles prepared h
        · obtain rfl := List.mem_singleton.1 h
          exact ⟨hcut, hpath ▸ hliveRound⟩
      · simpa [PendingWrite.paths, PendingWrite.removed, hpath] using hmoved
    · refine ⟨hdue.beside hsteps id hmem (fun hin ↦ ?_) (List.Subset.refl _)
        (List.subset_append_left _ _), hfiles, ?_, hgone⟩
      · simpa [PendingWrite.paths, PendingWrite.removed, Ne.symm hp, or_assoc] using hin
      · refine (List.Perm.nodup_iff (List.Perm.append_right _ ?_)).2 hmoved
        simp only [PendingWrite.paths, PendingWrite.removed, List.append_assoc]
        exact ((List.perm_append_comm).append_left _).append_left _
    · exact ⟨hdue.beside hsteps (fun hin ↦ (hretry _ hin).resolve_right (Ne.symm hp)) hmem id
        (List.Subset.refl _) (List.Subset.refl _), hfiles,
        hmoved.sublist ((List.sublist_append_left _ _).append_right _), hgone⟩

/-- Waiting for the readers does not concern the path, and succeeds. -/
theorem executes_watched_beforeWrite {entered : Bool}
    {r : Except String Unit} (h : At w path rows record s)
    (hexec : Executes (World.watched env path) (beforeWrite exclusion entered) s r t) :
    r = .ok () ∧ Steps (World.watched env path) (Call.Beside path) s t := by
  obtain ⟨_, rfl⟩ := ok_of_certain faultless_beforeWrite certain_beforeWrite h hexec
  exact ⟨rfl, beside_beforeWrite.steps hexec.visits⟩

/-- A write in the middle of a run, or at its end. -/
theorem Due.publish {entered : Bool} (hlive : (w.tree.lookup path).isSome = true)
    (hdue : Due env w path toPrepare pending stats s)
    (hfiles : ∀ file ∈ pending.files, file.Writable env w)
    (hnodup : (pending.paths ++ toPrepare).Nodup) (hgone : path ∉ pending.gone)
    (hexec : Executes (World.watched env path)
      (beforeWrite exclusion entered >>= fun _ ↦ pending.flush env stats) s r t) :
    ∃ stats', r = .ok stats' ∧ Due env w path toPrepare {} stats' t := by
  obtain ⟨rows, record, hat⟩ := hdue.at
  rcases executes_bind.1 hexec with ⟨_, s₁, hbefore, hflush⟩ | ⟨e, hbefore, -⟩
  · have hdue₁ : Due env w path toPrepare pending stats s₁ :=
      hdue.beside (executes_watched_beforeWrite hat hbefore).2 id Iff.rfl id
        (List.Subset.refl _) (List.Subset.refl _)
    exact hdue₁.flush hlive hfiles hnodup hgone hflush
  · cases (executes_watched_beforeWrite hat hbefore).1

/-- **The loop over changed files** does what is due, and does not fail. -/
theorem Due.prepareAndWrite [DecidableEq D] {changed : List (PathBuf × Bool)} {entered : Bool}
    (hlive : (w.tree.lookup path).isSome = true)
    (htree : ∀ p ∈ changed.map Prod.fst, (w.tree.lookup p).isSome = true)
    (hdue : Due env w path (changed.map Prod.fst) pending stats s)
    (hfiles : ∀ file ∈ pending.files, file.Writable env w)
    (hnodup : (pending.paths ++ changed.map Prod.fst).Nodup) (hgone : path ∉ pending.gone)
    (hexec : Executes (World.watched env path)
      (prepareAndWrite env exclusion changed pending entered stats) s r t) :
    ∃ stats', r = .ok stats' ∧ Became env w path stats' t := by
  induction changed generalizing pending entered stats s with
  | nil =>
    obtain ⟨stats', hr, hdue'⟩ := hdue.publish hlive hfiles hnodup hgone hexec
    refine ⟨stats', hr, ?_⟩
    cases hdue' with
    | toPrepare hmem => exact absurd hmem List.not_mem_nil
    | toWrite _ hmem => exact absurd hmem List.not_mem_nil
    | toClear _ hmem => exact absurd hmem List.not_mem_nil
    | settled _ _ h => exact h
  | cons head rest ih =>
    obtain ⟨p, consult⟩ := head
    rw [prepareAndWrite] at hexec
    rcases executes_bind.1 hexec with ⟨outcome, s₁, hround, hexec⟩ | ⟨e, hattempt, -⟩
    swap
    · obtain ⟨_, hok, -⟩ := executes_attempt.1 hattempt
      cases hok
    obtain ⟨_, hok, hround⟩ := executes_attempt.1 hround
    cases hok
    rcases haccount : accountPreparation p consult outcome pending stats with ⟨pending₁, stats₁⟩
    rw [haccount] at hexec
    obtain ⟨hdue₁, hfiles₁, hnodup₁, hgone₁⟩ := hdue.round hlive
      (htree p List.mem_cons_self) hfiles hnodup hgone hround haccount
    have htree₁ : ∀ p ∈ rest.map Prod.fst, (w.tree.lookup p).isSome = true :=
      fun p hp ↦ htree p (List.mem_cons_of_mem _ hp)
    simp only at hexec
    split at hexec
    · rw [← Prog.bind_assoc] at hexec
      rcases executes_bind.1 hexec with ⟨stats₂, s₂, hpublish, hexec⟩ | ⟨e, hpublish, -⟩
      · obtain ⟨_, hok, hdue₂⟩ := hdue₁.publish hlive hfiles₁ hnodup₁ hgone₁ hpublish
        cases hok
        refine ih htree₁ hdue₂ (by simp) ?_ (by simp) hexec
        simpa [PendingWrite.paths, PendingWrite.removed] using (List.nodup_append'.1 hnodup₁).2.1
      · obtain ⟨_, hok, -⟩ := hdue₁.publish hlive hfiles₁ hnodup₁ hgone₁ hpublish
        cases hok
    · exact ih htree₁ hdue₁ hfiles₁ hnodup₁ hgone₁ hexec

end Due

/-! ### A whole run -/

section Run

variable [DecidableEq D] {exclusion : ReaderExclusion} {r : Except String IndexStats}

/-- What is left of a path when a run has ended: the chunks in the vector table, the record in the
metadata cache and the hash in the snapshot. -/
structure Left (D : Type) where
  bodies : List ChunkBody
  record : Option (FileMetadata D)
  hash : Option D

/-- What there is of a path. -/
def World.left (w : World D) (path : PathBuf) : Left D :=
  ⟨w.bodiesAt path, w.cache.lookup path, w.oldHash path⟩

end Run

end RustCodeMcp
