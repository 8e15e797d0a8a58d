import RustCodeMcp.Indexing.Looks
import RustCodeMcp.Indexing.ChangeRuns

/-!
# What an edited run sees of the file

Before it writes anything an incremental run looks at a file twice: the Merkle walk hashes its
bytes, and preparing it reads them once or twice more. Both are told here of a run with a log. The
hash is that of the version read first (`executes_watched_fromDirectory`), and the chunks are cut
from the version read last (`executes_prepareFile`); nothing else that is held of the file changes.

The log is what makes the versions speakable: `looks` lists the states in which the file was looked
at, in order, and a run only ever appends to it (`looks_prefix`). A fact about the version read
first is therefore settled by the first entry, and stays so.
-/

namespace RustCodeMcp

open Effect

variable {D : Type} {env : Env D} {w : World D} {path p : PathBuf} {rows : List Row}
  {record : Option (FileMetadata D)} {s t : World D × List Look}

/-! ### Programs beside the point -/

theorem Call.Prepares.aside {call : Call D} (h : call.Prepares p) : call.Aside path := by
  cases call <;> trivial

/-- Preparing another file does not look at the path either. -/
theorem Call.Prepares.beside {call : Call D} (h : call.Prepares p) (hne : p ≠ path) :
    call.Beside path := by
  refine ⟨h.aside, ?_⟩
  cases call with
  | read | metadata => exact h ▸ hne
  | _ => trivial

theorem beside_request {call : Call D} (haside : call.Aside path) (hblind : call.Blind path) :
    Only (Call.Beside path) (request call) :=
  only_perform.2 ⟨haside, hblind⟩

/-- Indexing chunks is beside the point: what is queued is no part of what is held here. -/
theorem beside_indexChunks {chunks : List CodeChunk} :
    Only (Call.Beside path) (indexChunks chunks : Task D Unit) :=
  Only.forEach fun _ _ ↦ only_mapError.2 (beside_request (by trivial) (by trivial))

theorem beside_beforeWrite {exclusion : ReaderExclusion} {entered : Bool} :
    Only (Call.Beside path) (beforeWrite exclusion entered : Task D Unit) := by
  unfold beforeWrite
  split
  · exact only_pure
  · cases exclusion
    · exact only_pure
    · exact beside_request (by trivial) (by trivial)

theorem beside_recordIfIndexed {file : PreparedFile} (hne : file.path ≠ path) :
    Only (Call.Beside path) (recordIfIndexed env file) := by
  unfold recordIfIndexed
  split
  · exact only_pure
  · exact Only.bind (only_failingAs (beside_request (by trivial) hne)) fun _ ↦
      only_failingAs (beside_request hne (by trivial))

theorem beside_forgetGone {stats : IndexStats} (hne : p ≠ path) :
    Only (Call.Beside path) (forgetGone stats p : Task D IndexStats) := by
  refine Only.bind (only_attempt.2 (only_failingAs (beside_request hne (by trivial))))
    fun outcome ↦ ?_
  rcases outcome with e | u
  · exact only_pure
  · exact only_pure

/-- Reading the file finds a version of it, and writes it down. -/
theorem executes_fsRead (h : At w path rows record s)
    (hlive : (w.tree.lookup path).isSome = true) {r : Except String ByteArray}
    (hexec : Executes (World.watched env path) (fsRead path) s r t) :
    ∃ file, r = .ok file.bytes ∧ t.2 = s.2 ++ [.read file] ∧ At w path rows record t := by
  obtain ⟨u, hediting, hhandle, hlook⟩ := executes_perform.1 hexec
  obtain ⟨file, hfile⟩ := h.look hlive hediting
  have hat := at_of_aside_handle (t := t) (by trivial) hhandle (h.edited hediting)
  refine ⟨file, ?_, ?_, hat⟩
  · have hr := congrArg Prod.fst hhandle
    rw [World.handle, World.open?, hfile] at hr
    exact hr.symm
  · rw [hlook, Call.look, if_pos rfl, hfile]
    rfl

/-- So does taking its stat. -/
theorem executes_fsMetadata (h : At w path rows record s)
    (hlive : (w.tree.lookup path).isSome = true) {r : Except String Metadata}
    (hexec : Executes (World.watched env path) (fsMetadata path) s r t) :
    ∃ file, r = .ok file.metadata ∧ t.2 = s.2 ++ [.stat file] ∧ At w path rows record t := by
  obtain ⟨u, hediting, hhandle, hlook⟩ := executes_perform.1 hexec
  obtain ⟨file, hfile⟩ := h.look hlive hediting
  have hat := at_of_aside_handle (t := t) (by trivial) hhandle (h.edited hediting)
  refine ⟨file, ?_, ?_, hat⟩
  · have hr := congrArg Prod.fst hhandle
    rw [World.handle, World.open?, hfile] at hr
    exact hr.symm
  · rw [hlook, Call.look, if_pos rfl, hfile]
    rfl

/-! ### The Merkle walk -/

section Prepare

variable {σ : Type} {R : Outcomes String (@Call.Ret D) σ}

/-- What a file that was processed has gone through: nothing is called for after its text was read
that looks at the file. -/
theorem executes_processFileSync_ok [DecidableEq D] {a b : σ} {processed : ProcessedFile}
    (hexec : Executes R (processFileSync env p) a (.ok processed) b) :
    ∃ a₁ a₂ a₃ text chunks, Steps R (Call.Prepares p) a a₁ ∧
      Executes R (readToString p) a₁ (.ok text) a₂ ∧
      Steps R (fun call ↦ call = .cacheGet p) a₂ a₃ ∧
      Executes R (parseAndChunk p text) a₃ (.ok chunks) b ∧
      processed = ⟨p, text, chunks⟩ ∧ chunks ≠ [] := by
  obtain ⟨processes, a₁, hprocesses, hexec⟩ := executes_bind_ok.1 hexec
  split at hexec
  · cases hexec.1
  obtain ⟨statChanged, a₂, hstat, hexec⟩ := executes_bind_ok.1 hexec
  split at hexec
  · cases hexec.1
  obtain ⟨text, a₃, hread, hexec⟩ := executes_bind_ok.1 hexec
  obtain ⟨outcome, houtcome, hread⟩ := executes_mapError.1 hread
  rcases outcome with e | found
  · cases houtcome
  cases houtcome
  obtain ⟨_, a₄, hsecrets, hexec⟩ := executes_bind_ok.1 hexec
  obtain ⟨fileChanged, a₅, hchanged, hexec⟩ := executes_bind_ok.1 hexec
  split at hexec
  · cases hexec.1
  obtain ⟨chunks, a₆, hchunks, hexec⟩ := executes_bind_ok.1 hexec
  obtain ⟨outcome, houtcome, hchunks⟩ := executes_mapError.1 hchunks
  rcases outcome with e | found
  · cases houtcome
  cases houtcome
  split at hexec
  · cases hexec.1
  next hnonempty =>
  obtain ⟨hprocessed, rfl⟩ := executes_pure.1 hexec
  have hbefore : Steps R (Call.Prepares p) a a₂ :=
    ((prepares_shouldProcessFile p).steps hprocesses.visits).trans
      ((prepares_hasStatChanged p).steps hstat.visits)
  have honlySecrets : Only (fun call : Call D ↦ call = .cacheGet p) (checkSecrets env text) := by
    unfold checkSecrets
    split
    · exact only_fail
    · exact only_pure
  have honlyChanged : Only (fun call : Call D ↦ call = .cacheGet p)
      (hasFileChanged env p text) :=
    only_failingAs <| Only.bind (only_perform.2 rfl) fun _ ↦ only_pure
  have hafter : Steps R (fun call ↦ call = .cacheGet p) a₃ a₅ :=
    (honlySecrets.steps hsecrets.visits).trans (honlyChanged.steps hchanged.visits)
  exact ⟨a₂, a₃, a₅, text, chunks, hbefore, hread, hafter, hchunks, Except.ok.inj hprocessed,
    by simpa using hnonempty⟩

/-- What a file that is ready has gone through: whatever was checked first, it was processed and
embedded last. -/
def Readied [DecidableEq D] (R : Outcomes String (@Call.Ret D) σ) (env : Env D) (p : PathBuf)
    (a : σ) (prepared : PreparedFile) (b : σ) : Prop :=
  ∃ a₁ a₂ processed embeddings, Steps R (Call.Prepares p) a a₁ ∧
    Executes R (processFileSync env p) a₁ (.ok processed) a₂ ∧
    Executes R (generateEmbeddingsBatched processed.chunks) a₂ (.ok embeddings) b ∧
    ∃ hlength, prepared =
      ⟨processed.path, processed.content, processed.chunks, embeddings.1, hlength⟩

/-- Every preparation that ends with a ready file has gone through all of that. -/
theorem readied_of_executes [DecidableEq D] {a b : σ} {consult : Bool} {prepared : PreparedFile}
    (hexec : Executes R (prepareFile env p consult) a (.ok (.ready prepared)) b) :
    Readied R env p a prepared b := by
  obtain ⟨_, a₁, hheadroom, hexec⟩ := executes_bind_ok.1 hexec
  have hsteps₁ : Steps R (Call.Prepares p) a a₁ :=
    (prepares_request p (by trivial)).steps hheadroom.visits
  obtain ⟨processes, a₂, hprocesses, hexec⟩ := executes_bind_ok.1 hexec
  have hsteps₂ := hsteps₁.trans ((prepares_shouldProcessFile p).steps hprocesses.visits)
  split at hexec
  · cases (executes_pure.1 hexec).1
  extract_lets afterHash afterStat at hexec
  have hafterHash : ∀ fileChanged a₃, Steps R (Call.Prepares p) a a₃ →
      Executes R (afterHash fileChanged) a₃ (.ok (.ready prepared)) b →
        Readied R env p a prepared b := by
    intro fileChanged a₃ hsteps hexec
    simp only [afterHash] at hexec
    split at hexec
    · cases (executes_pure.1 hexec).1
    obtain ⟨processed, a₄, hprocess, hexec⟩ := executes_bind_ok.1 hexec
    obtain ⟨embeddings, a₅, hembed, hexec⟩ := executes_bind_ok.1 hexec
    obtain ⟨hprepared, rfl⟩ := executes_pure.1 hexec
    exact ⟨a₃, a₄, processed, embeddings, hsteps, hprocess, hembed, embeddings.2,
      Preparation.ready.inj (Except.ok.inj hprepared)⟩
  have hafterStat : ∀ statChanged a₃, Steps R (Call.Prepares p) a a₃ →
      Executes R (afterStat statChanged) a₃ (.ok (.ready prepared)) b →
        Readied R env p a prepared b := by
    intro statChanged a₃ hsteps hexec
    simp only [afterStat] at hexec
    split at hexec
    · cases (executes_pure.1 hexec).1
    obtain ⟨text, a₄, hread, hexec⟩ := executes_bind_ok.1 hexec
    have hsteps₄ := hsteps.trans
      ((only_mapError.2 (prepares_readToString p)).steps hread.visits)
    split at hexec
    · obtain ⟨fileChanged, a₅, hchanged, hexec⟩ := executes_bind_ok.1 hexec
      exact hafterHash _ a₅
        (hsteps₄.trans ((prepares_hasFileChanged p text).steps hchanged.visits)) hexec
    · obtain ⟨fileChanged, a₅, hchanged, hexec⟩ := executes_bind_ok.1 hexec
      exact hafterHash _ a₅ (hsteps₄.trans (only_pure.steps hchanged.visits)) hexec
  split at hexec
  · obtain ⟨statChanged, a₃, hstat, hexec⟩ := executes_bind_ok.1 hexec
    exact hafterStat _ a₃ (hsteps₂.trans ((prepares_hasStatChanged p).steps hstat.visits)) hexec
  · obtain ⟨statChanged, a₃, hstat, hexec⟩ := executes_bind_ok.1 hexec
    exact hafterStat _ a₃ (hsteps₂.trans (only_pure.steps hstat.visits)) hexec

end Prepare

/-- A prepared file whose chunks are what the chunker made of its text. -/
structure PreparedFile.Cut (env : Env D) (prepared : PreparedFile) : Prop where
  source : env.chunkSource prepared.path prepared.content =
    .ok (prepared.chunks.map CodeChunk.body)
  nonempty : prepared.chunks ≠ []

theorem PreparedFile.Cut.atPath {prepared : PreparedFile} (h : prepared.Cut env) :
    prepared.AtPath :=
  fun _ hchunk ↦ env.filePath_of_mem h.source _ (List.mem_map_of_mem hchunk)

/-- Parsing and chunking make of a text what the chunker makes of it. -/
theorem executes_parseAndChunk {text : String} {chunks : List CodeChunk}
    (hexec : Executes (World.watched env path) (parseAndChunk p text) s (.ok chunks) t) :
    env.chunkSource p text = .ok (chunks.map CodeChunk.body) := by
  obtain ⟨u, -, hhandle, -⟩ := executes_perform.1 hexec
  simp only [World.handle] at hhandle
  split at hhandle
  next bodies hsource =>
    have hchunks := congrArg Prod.fst hhandle
    cases hchunks
    rw [hsource, map_body_withIds]
  next => cases hhandle

/-- What is ready is cut from the text it goes with. -/
theorem executes_prepareFile_cut [DecidableEq D] {consult : Bool} {prepared : PreparedFile}
    (hexec : Executes (World.watched env path) (prepareFile env p consult) s
      (.ok (.ready prepared)) t) :
    prepared.path = p ∧ prepared.Cut env := by
  obtain ⟨s₁, s₂, processed, embeddings, -, hprocess, -, -, rfl⟩ := readied_of_executes hexec
  obtain ⟨_, _, _, text, chunks, -, -, -, hchunks, rfl, hnonempty⟩ :=
    executes_processFileSync_ok hprocess
  exact ⟨rfl, executes_parseAndChunk hchunks, hnonempty⟩

/-- Reading the file as text finds a version of it whose bytes are that text. -/
theorem executes_readToString (h : At w path rows record s)
    (hlive : (w.tree.lookup path).isSome = true) {text : String}
    (hexec : Executes (World.watched env path) (readToString path) s (.ok text) t) :
    ∃ content, String.fromUTF8? content.bytes = some text ∧
      Look.reads t.2 = Look.reads s.2 ++ [content] ∧ At w path rows record t := by
  obtain ⟨bytes, s₁, hread, hexec⟩ := executes_bind_ok.1 hexec
  obtain ⟨content, hbytes, hlooks, hat⟩ := executes_fsRead h hlive hread
  cases hbytes
  split at hexec
  next found hutf8 =>
    obtain ⟨htext, rfl⟩ := executes_pure.1 hexec
    cases htext
    refine ⟨content, hutf8, ?_, hat⟩
    rw [hlooks]
    simp [Look.reads, Look.read?]
  next => cases hexec.1

/-- **The chunks of the file are cut from the version that was read last.** -/
theorem executes_prepareFile [DecidableEq D] (h : At w path rows record s)
    (hlive : (w.tree.lookup path).isSome = true) {consult : Bool} {prepared : PreparedFile}
    (hexec : Executes (World.watched env path) (prepareFile env path consult) s
      (.ok (.ready prepared)) t) :
    ∃ content, (Look.reads t.2).getLast? = some content ∧
      String.fromUTF8? content.bytes = some prepared.content := by
  obtain ⟨s₁, s₂, processed, embeddings, hbefore, hprocess, hembed, -, rfl⟩ :=
    readied_of_executes hexec
  obtain ⟨s₃, s₄, s₅, text, chunks, hbefore', hread, hcache, hchunks, rfl, -⟩ :=
    executes_processFileSync_ok hprocess
  have hat := h.steps ((hbefore.trans hbefore').mono fun _ h ↦ h.aside)
  obtain ⟨content, hutf8, hlooks, hat₄⟩ := executes_readToString hat hlive hread
  obtain ⟨hat₅, hlooks₅⟩ := hat₄.besideSteps
    (hcache.mono fun call hcall ↦ hcall ▸ ⟨trivial, trivial⟩)
  obtain ⟨hat₂, hlooks₂⟩ := hat₅.beside (beside_request (by trivial) (by trivial)) hchunks.visits
  obtain ⟨-, hlooks₁⟩ := hat₂.beside
    (only_failingAs (beside_request (by trivial) (by trivial))) hembed.visits
  refine ⟨content, ?_, hutf8⟩
  rw [hlooks₁, hlooks₂, hlooks₅, hlooks, List.getLast?_append]
  rfl

end RustCodeMcp
