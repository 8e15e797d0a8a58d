import Mathlib.Logic.Relation
import RustCodeMcp.Indexing.Footprints

/-!
# A file that is edited between the calls of a run

An editor may save a file between any two calls of a run. What the run makes of it depends on the
versions it happens to find, so the calls are told here with a log of them: `World.watched` carries
out a call as `World.handle` does, after any number of saves, and writes down the version that the
call finds if it looks at the file. Nothing is left out by that: every run amid saves is one with a
log (`executes_watched`).

A call that looks at other files only, and changes nothing that is held of this one, is beside the
point (`Call.Beside`): whatever the editor does meanwhile, what the stores and the cache hold of the
path stays as it is, and nothing is written down (`At.beside`).

An editor saves a file under another stat than the one it replaces (`Saves`), and neither adds nor
removes files. These are the only assumptions on it. The log has one entry for every call that looks
at the path, with the version that it found; what a run makes of the edits is a function of that
log.
-/

namespace RustCodeMcp

open Effect

variable {D : Type} {env : Env D}

namespace World

/-- The editor saves a file under another stat. -/
inductive Saves (path : PathBuf) (w : World D) : World D → Prop
  | save {file : FileEntry} (file' : FileEntry) (hfile : w.tree.lookup path = some file)
      (hstat : file.metadata.stat ≠ file'.metadata.stat) :
    Saves path w { w with tree := w.tree.insert path file' }

/-- The editor saves a file, any number of times. -/
def Editing (path : PathBuf) : World D → World D → Prop :=
  Relation.ReflTransGen (Saves path)

variable {w v : World D} {path : PathBuf}

/-- An editor changes files only. -/
theorem Editing.eq_with_tree (h : Editing path w v) : v = { w with tree := v.tree } := by
  induction h with
  | refl => rfl
  | tail _ hsave ih =>
    cases hsave
    rw [ih]

/-- It neither adds files nor removes them. -/
theorem Editing.isSome_lookup (h : Editing path w v) (p : PathBuf) :
    (v.tree.lookup p).isSome = (w.tree.lookup p).isSome := by
  induction h with
  | refl => rfl
  | tail _ hsave ih =>
    rw [← ih]
    cases hsave with
    | save file' hfile hstat =>
      by_cases hp : p = path
      · subst hp
        rw [AList.lookup_insert, hfile]
        rfl
      · rw [AList.lookup_insert_ne hp]

/-- Saving a file at once, if its stat is another one. -/
def save (path : PathBuf) (file' : FileEntry) (w : World D) : World D :=
  match w.tree.lookup path with
  | some file =>
    if file.metadata.stat = file'.metadata.stat then w
    else { w with tree := w.tree.insert path file' }
  | none => w

end World

/-! ### The log -/

/-- A look at a file, with the version that it found. -/
inductive Look
  /-- Its bytes were read. -/
  | read (file : FileEntry)
  /-- Its stat was taken. -/
  | stat (file : FileEntry)

namespace Look

/-- The version whose bytes a look has read. -/
def read? : Look → Option FileEntry
  | read file => some file
  | stat _ => none

/-- The version whose stat a look has taken. -/
def stat? : Look → Option FileEntry
  | read _ => none
  | stat file => some file

/-- The versions of which the bytes were read, in order. -/
def reads (looks : List Look) : List FileEntry := looks.filterMap read?

/-- The versions of which the stat was taken, in order. -/
def stats (looks : List Look) : List FileEntry := looks.filterMap stat?

@[simp] theorem reads_append (l l' : List Look) : reads (l ++ l') = reads l ++ reads l' :=
  List.filterMap_append

@[simp] theorem stats_append (l l' : List Look) : stats (l ++ l') = stats l ++ stats l' :=
  List.filterMap_append

end Look

/-- What a call finds when it looks at a path. -/
def Call.look (path : PathBuf) (w : World D) : Call D → List Look
  | read p => if p = path then ((w.tree.lookup path).map .read).toList else []
  | metadata p => if p = path then ((w.tree.lookup path).map .stat).toList else []
  | _ => []

/-- The calls of a run during which a file is edited, with a log of the versions that they find. -/
def World.watched (env : Env D) (path : PathBuf) :
    Outcomes String (@Call.Ret D) (World D × List Look) :=
  fun call s r t ↦ ∃ u, World.Editing path s.1 u ∧ World.handle env call u = (r, t.1) ∧
    t.2 = s.2 ++ call.look path u

/-- Calls before each of which a given edit is made, with their log. -/
def World.watch (env : Env D) (path : PathBuf) (edit : Call D → World D → World D) :
    Handler String (@Call.Ret D) (World D × List Look) := fun call s ↦
  let u := edit call s.1
  let (r, w) := World.handle env call u
  (r, w, s.2 ++ call.look path u)

/-- What is held of a path: these rows, and this record. The snapshot and the files there are are
those of the world `w`. -/
structure At (w : World D) (path : PathBuf) (rows : List Row) (record : Option (FileMetadata D))
    (s : World D × List Look) : Prop where
  rows : s.1.rowsAt path = rows
  record : s.1.cache.lookup path = record
  snapshot : s.1.snapshot = w.snapshot
  live : ∀ p, (s.1.tree.lookup p).isSome = (w.tree.lookup p).isSome

/-- The calls that change nothing that is held of a path. -/
def Call.Aside (path : PathBuf) : Call D → Prop
  | deleteByFilePaths paths => path ∉ paths
  | insertRows rows => ∀ row ∈ rows, row.filePath ≠ path
  | cacheInsert p _ | cacheRemove p => p ≠ path
  | saveSnapshot _ | removeSnapshot => False
  | _ => True

/-- The calls that do not look at a path. -/
def Call.Blind (path : PathBuf) : Call D → Prop
  | read p | metadata p => p ≠ path
  | _ => True

/-- The calls that have nothing to do with a path. -/
def Call.Beside (path : PathBuf) (call : Call D) : Prop :=
  call.Aside path ∧ call.Blind path

theorem Call.look_of_blind {path : PathBuf} {call : Call D} (h : call.Blind path) (w : World D) :
    call.look path w = [] := by
  cases call with
  | read p => exact if_neg h
  | metadata p => exact if_neg h
  | _ => rfl

theorem World.rowsAt_deleted {w : World D} {path : PathBuf} {paths : List PathBuf} :
    World.rowsAt { w with vectors := w.vectors.filter fun row ↦ row.filePath ∉ paths } path =
      if path ∈ paths then [] else w.rowsAt path := by
  rw [World.rowsAt, List.filter_filter]
  split
  next hmem =>
    refine List.filter_eq_nil_iff.2 fun row _ h ↦ ?_
    rw [Bool.and_eq_true, decide_eq_true_iff, decide_eq_true_iff] at h
    exact h.2 (h.1 ▸ hmem)
  next hmem =>
    refine List.filter_congr fun row _ ↦ ?_
    by_cases heq : row.filePath = path
    · simp [heq, hmem]
    · simp [heq]

theorem World.rowsAt_inserted {w : World D} {path : PathBuf} {rows : List Row} :
    World.rowsAt { w with vectors := w.vectors ++ rows } path =
      w.rowsAt path ++ rows.filter fun row ↦ row.filePath = path :=
  List.filter_append _ _

section At

variable {w w₁ : World D} {path : PathBuf} {rows : List Row} {record : Option (FileMetadata D)}
  {s t : World D × List Look}

/-- Edits leave everything but the files as it is. -/
theorem At.edited (h : At w path rows record s) (hediting : World.Editing path s.1 w₁) :
    At w path rows record (w₁, s.2) where
  rows := by
    rw [hediting.eq_with_tree]
    exact h.rows
  record := by
    rw [hediting.eq_with_tree]
    exact h.record
  snapshot := by
    rw [hediting.eq_with_tree]
    exact h.snapshot
  live p := (hediting.isSome_lookup p).trans (h.live p)

/-- A call that changes nothing held of the path, carried out. -/
theorem at_of_aside_handle {call : Call D} {r : Except String call.Ret} (haside : call.Aside path)
    (hhandle : World.handle env call w₁ = (r, t.1)) (h : At w path rows record (w₁, s.2)) :
    At w path rows record t := by
  obtain ⟨hrows, hrecord, hsnapshot, hlive⟩ := h
  have hkeeps : ∀ {t' : World D}, t.1 = t' → At w path rows record (t', t.2) →
      At w path rows record t := by
    rintro t' rfl h
    exact h
  cases call with
  | deleteByFilePaths paths =>
    refine hkeeps (congrArg Prod.snd hhandle).symm ⟨?_, hrecord, hsnapshot, hlive⟩
    exact World.rowsAt_deleted.trans ((if_neg haside).trans hrows)
  | insertRows inserted =>
    refine hkeeps (congrArg Prod.snd hhandle).symm ⟨?_, hrecord, hsnapshot, hlive⟩
    have hnone : inserted.filter (fun row ↦ row.filePath = path) = [] :=
      List.filter_eq_nil_iff.2 fun row hrow heq ↦ haside row hrow (of_decide_eq_true heq)
    exact World.rowsAt_inserted.trans (by rw [hnone, List.append_nil]; exact hrows)
  | cacheInsert p metadata =>
    refine hkeeps (congrArg Prod.snd hhandle).symm ⟨hrows, ?_, hsnapshot, hlive⟩
    exact (AList.lookup_insert_ne (Ne.symm haside)).trans hrecord
  | cacheRemove p =>
    refine hkeeps (congrArg Prod.snd hhandle).symm ⟨hrows, ?_, hsnapshot, hlive⟩
    exact (AList.lookup_erase_ne (Ne.symm haside)).trans hrecord
  | saveSnapshot => exact haside.elim
  | removeSnapshot => exact haside.elim
  | chunkSource p text =>
    obtain ⟨nextId, ht⟩ := handle_of_reads (by trivial) hhandle
    exact hkeeps ht ⟨hrows, hrecord, hsnapshot, hlive⟩
  | _ => exact hkeeps (congrArg Prod.snd hhandle).symm ⟨hrows, hrecord, hsnapshot, hlive⟩

/-- **Calls that change nothing held of a path** leave that as it is, whatever the editor does
meanwhile. -/
theorem At.steps (h : At w path rows record s)
    (hsteps : Steps (World.watched env path) (Call.Aside path) s t) :
    At w path rows record t :=
  hsteps.preserves (At w path rows record) (fun _ _ _ _ hcall ⟨_, hediting, hhandle, _⟩ hs ↦
    at_of_aside_handle hcall hhandle (hs.edited hediting)) h

/-- So does a program that makes no others. -/
theorem At.aside {α : Type} {task : Task D α} (haside : Only (Call.Aside path) task)
    (h : At w path rows record s) (hvisits : Visits (World.watched env path) task s t) :
    At w path rows record t :=
  h.steps (haside.steps hvisits)

/-- **Calls that have nothing to do with a path** write nothing down either. -/
theorem At.besideSteps (h : At w path rows record s)
    (hsteps : Steps (World.watched env path) (Call.Beside path) s t) :
    At w path rows record t ∧ t.2 = s.2 := by
  refine ⟨h.steps (hsteps.mono fun _ h ↦ h.1), ?_⟩
  refine hsteps.preserves (fun t ↦ t.2 = s.2) (fun call u r t hcall ⟨v, _, _, hlook⟩ hs ↦ ?_) rfl
  rw [hlook, Call.look_of_blind hcall.2, List.append_nil, hs]

theorem At.beside {α : Type} {task : Task D α} (hbeside : Only (Call.Beside path) task)
    (h : At w path rows record s) (hvisits : Visits (World.watched env path) task s t) :
    At w path rows record t ∧ t.2 = s.2 :=
  h.besideSteps (hbeside.steps hvisits)

/-- A call finds the version that is there. -/
theorem At.look (h : At w path rows record s) (hlive : (w.tree.lookup path).isSome = true)
    (hediting : World.Editing path s.1 w₁) : ∃ file, w₁.tree.lookup path = some file := by
  rw [← Option.isSome_iff_exists, hediting.isSome_lookup, h.live]
  exact hlive

end At

end RustCodeMcp
