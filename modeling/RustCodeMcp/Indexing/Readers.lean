import RustCodeMcp.Indexing.Agreement
import RustCodeMcp.Indexing.Refill
import Mathlib.Logic.Relation

/-!
# Readers beside a run

A reader holds the workspace's operation lock for read through a whole query; a run that publishes
on its own takes the lock for write before its first write to a store and lets go of it after the
BM25 commit. What the readers see in between is decided by which calls the run makes while they are
inside: none that changes the vector table, and only one that commits, the refill of an empty BM25
index.

A session interleaves the steps of one run with readers that come and go. A step of the run is a
call, whose outcome may be a failure; a step of the readers is one that comes in, which needs the
lock, or goes out. No assumption is made on when any of them happens.

Two things are proved. `seen_of_visits` follows the run alone: at each of its states the stores look
as they did before it, or as a refill left them, or as they do at its end, or else the readers are
out. `seen_of_session` adds the readers, and `Inv.maybeRefilled` says what one of them can see
change while it stays inside.
-/

namespace RustCodeMcp

open Effect

variable {D : Type} {env : Env D}

/-! ### The lock -/

/-- A run going on, and the readers that are inside. -/
structure Session (D : Type) where
  /-- What is left of the run. -/
  task : Task D IndexStats
  /-- The state it has come to. -/
  world : World D
  /-- The readers that hold the lock. -/
  inside : Set ℕ

namespace Session

/-- One step of a session: the run makes its next call, and waits for the readers inside if it takes
the lock; or a reader takes the lock, or lets go of it. -/
inductive Step (env : Env D) : Session D → Session D → Prop
  | call {call : Call D} {k : Except String call.Ret → Task D IndexStats} {w w' : World D}
      {r : Except String call.Ret} {inside : Set ℕ}
      (hwaits : call = .excludeReaders → inside = ∅)
      (hcall : World.handle env call w = (r, w')) :
    Step env ⟨.call call k, w, inside⟩ ⟨k r, w', inside⟩
  | enter {task : Task D IndexStats} {w : World D} {inside : Set ℕ} (reader : ℕ)
      (hadmitted : w.readersOut = false) :
    Step env ⟨task, w, inside⟩ ⟨task, w, insert reader inside⟩
  | leave {task : Task D IndexStats} {w : World D} {inside : Set ℕ} (reader : ℕ) :
    Step env ⟨task, w, inside⟩ ⟨task, w, inside \ {reader}⟩

/-- A session goes on while a reader stays inside. -/
def Holding (env : Env D) (reader : ℕ) : Session D → Session D → Prop :=
  Relation.ReflTransGen fun s s' ↦ s.Step env s' ∧ reader ∈ s.inside ∧ reader ∈ s'.inside

end Session

/-- The calls that leave the lock alone. -/
def Call.KeepsLock : Call D → Prop
  | excludeReaders | admitReaders => False
  | _ => True

/-- A call that leaves the lock alone leaves it as it was. -/
theorem readersOut_of_keepsLock {call : Call D} {w t : World D} {r : Except String call.Ret}
    (hkeeps : call.KeepsLock) (h : World.handle env call w = (r, t)) :
    t.readersOut = w.readersOut := by
  cases call with
  | chunkSource path text =>
    obtain ⟨nextId, rfl⟩ := handle_of_reads (by trivial) h
    rfl
  | excludeReaders => exact hkeeps.elim
  | admitReaders => exact hkeeps.elim
  | _ =>
    cases h
    rfl

/-- **Readers and writer shut each other out.** -/
theorem Session.inside_eq_empty {s s' : Session D} (h : s.Step env s')
    (hs : s.world.readersOut = true → s.inside = ∅) : s'.world.readersOut = true →
    s'.inside = ∅ := by
  cases h with
  | @call call k w w' r inside hwaits hcall =>
    intro hout
    cases call with
    | excludeReaders => exact hwaits rfl
    | admitReaders =>
      cases hcall
      cases hout
    | _ => exact hs ((readersOut_of_keepsLock (by trivial) hcall).symm.trans hout)
  | enter reader hadmitted => exact fun hout ↦ by simp [hadmitted] at hout
  | leave reader =>
    intro hout
    have hempty : _ = ∅ := hs hout
    simp only at hempty
    simp [hempty]

/-! ### Before the run publishes -/

section Before

variable {α : Type} {task : Task D α} {w t : World D}

theorem keepsLock_of_refills (h : Only Call.Refills task) : Only Call.KeepsLock task :=
  h.mono fun call hrefills ↦ by
    cases call <;> trivial

theorem keepsLock_of_writes (h : Only Call.Writes task) : Only Call.KeepsLock task :=
  h.mono fun call hwrites ↦ by
    cases call <;> trivial

theorem keepsLock_request {call : Call D} (h : call.KeepsLock) :
    Only Call.KeepsLock (request call) :=
  only_perform.2 h

/-- A program that leaves the lock alone does so wherever it is cut off. -/
theorem visits_of_keepsLock (hkeeps : Only Call.KeepsLock task)
    (h : Visits (World.mayFail env) task w t) : t.readersOut = w.readersOut :=
  hkeeps.visits (fun t ↦ t.readersOut = w.readersOut)
    (fun _ _ _ _ hcall hstep hs ↦ Handler.orFails.preserves (fun t ↦ t.readersOut = w.readersOut)
      hstep hs fun h ↦ (readersOut_of_keepsLock hcall h).trans hs) rfl h

/-- A run beside the readers may refill BM25. -/
theorem visits_refillBeside {old : Option (FileSystemMerkle D)}
    (h : Visits (World.mayFail env) (refillBeside old) w t) : w.MaybeRefilled env t := by
  rcases visits_bind.1 h with h | ⟨opened, w₁, hcheck, h⟩
  · rw [visits_of_looks (looks_request (by trivial)) h]
    exact .refl w
  obtain ⟨rfl, rfl⟩ := executes_isOpened hcheck
  split at h
  · rcases visits_bind.1 h with h | ⟨docs, w₂, hdocs, hrest⟩
    · rw [visits_of_looks (looks_request (by trivial)) h]
      exact .refl w
    obtain rfl := visits_of_looks (looks_request (by trivial)) hdocs.visits
    split at hrest
    · rcases visits_bind.1 hrest with hrest | ⟨indexed, w₃, hrebuild, hrest⟩
      · exact visits_rebuildBm25FromExistingStore hrest
      · rw [visits_pure.1 hrest]
        exact visits_rebuildBm25FromExistingStore hrebuild.visits
    · rw [visits_pure.1 hrest]
      exact .refl _
  · rw [visits_pure.1 h]
    exact .refl w

/-- Between two commits nothing more is committed, and readers shut out stay out. -/
theorem visits_of_loops (hloops : Only Call.Loops task) (h : Visits (World.mayFail env) task w t) :
    t.bm25.committed = w.bm25.committed ∧ (w.readersOut = true → t.readersOut = true) := by
  refine hloops.visits (fun t ↦ t.bm25.committed = w.bm25.committed ∧
    (w.readersOut = true → t.readersOut = true)) (fun call s r t hcall hstep hs ↦ ?_)
    ⟨rfl, id⟩ h
  refine Handler.orFails.preserves (fun t ↦ t.bm25.committed = w.bm25.committed ∧
    (w.readersOut = true → t.readersOut = true)) hstep hs fun h ↦ ?_
  have hwrites : call.Writes → t.bm25.committed = w.bm25.committed ∧
      (w.readersOut = true → t.readersOut = true) := by
    intro hwrites
    have hsame := sameBut_of_within hwrites h
    exact ⟨hsame.committed.trans hs.1, fun hout ↦ hsame.readersOut.trans (hs.2 hout)⟩
  cases call with
  | excludeReaders =>
    cases h
    exact ⟨hs.1, fun _ ↦ rfl⟩
  | _ => exact hwrites hcall

/-- The readers are shut out once a run has entered. -/
theorem executes_beforeWrite_aroundPublish {entered : Bool} {u : Unit}
    (hentered : entered = true → w.readersOut = true)
    (h : Executes (World.mayFail env) (beforeWrite .aroundPublish entered) w (.ok u) t) :
    t.readersOut = true := by
  unfold beforeWrite at h
  split at h
  next hin =>
    obtain ⟨-, rfl⟩ := executes_pure.1 h
    exact hentered hin
  next =>
    have hrun : run (World.handle env) excludeReaders w = _ := failFast_request.run_of_ok h
    rw [run_excludeReaders] at hrun
    cases hrun
    rfl

/-- Sending the readers out does not touch the vector table. -/
theorem vectors_of_beforeWrite {exclusion : ReaderExclusion} {entered : Bool}
    (h : Visits (World.mayFail env) (beforeWrite exclusion entered) w t) :
    t.vectors = w.vectors := by
  refine (visits_of_keepsStores ?_ h).1
  unfold beforeWrite
  split
  · exact only_pure
  · cases exclusion
    · exact only_pure
    · exact only_perform.2 trivial

variable [DecidableEq D]

/-- **The loop over the changed files leaves the vector table alone until the readers are out.** -/
theorem visits_prepareAndWrite {toPrepare : List (PathBuf × Bool)} {pending : PendingWrite}
    {entered : Bool} {stats : IndexStats} (hentered : entered = true → w.readersOut = true)
    (h : Visits (World.mayFail env)
      (prepareAndWrite env .aroundPublish toPrepare pending entered stats) w t) :
    t.readersOut = true ∨ t.vectors = w.vectors := by
  induction toPrepare generalizing pending entered stats w with
  | nil =>
    rcases visits_bind.1 h with h | ⟨_, w₁, hbefore, h⟩
    · exact Or.inr (vectors_of_beforeWrite h)
    · have hout := executes_beforeWrite_aroundPublish hentered hbefore
      exact Or.inl ((visits_of_loops (loops_of_writes writes_flush) h).2 hout)
  | cons head rest ih =>
    obtain ⟨path, consult⟩ := head
    rw [prepareAndWrite] at h
    have hreads : Only Call.Reads (prepareFile env path consult).attempt :=
      only_attempt.2 (reads_prepareFile path consult)
    rcases visits_bind.1 h with h | ⟨outcome, w₁, hprepare, h⟩
    · obtain ⟨nextId, rfl⟩ := visits_of_reads hreads h
      exact Or.inr rfl
    obtain ⟨nextId, rfl⟩ := visits_of_reads hreads hprepare.visits
    simp only at h
    split at h
    · rcases visits_bind.1 h with h | ⟨_, w₂, hbefore, h⟩
      · have hvectors := vectors_of_beforeWrite h
        exact Or.inr hvectors
      have hout := executes_beforeWrite_aroundPublish (by exact hentered) hbefore
      rcases visits_bind.1 h with h | ⟨stats₁, w₃, hflush, h⟩
      · exact Or.inl ((visits_of_loops (loops_of_writes writes_flush) h).2 hout)
      · have hout₃ := (visits_of_loops (loops_of_writes writes_flush) hflush.visits).2 hout
        exact Or.inl ((visits_of_loops loops_prepareAndWrite h).2 hout₃)
    · exact ih (w := { w with nextId }) hentered h

/-- At its end the readers are out. -/
theorem readersOut_of_prepareAndWrite {toPrepare : List (PathBuf × Bool)} {pending : PendingWrite}
    {entered : Bool} {stats stats' : IndexStats} (hentered : entered = true → w.readersOut = true)
    (h : Executes (World.mayFail env)
      (prepareAndWrite env .aroundPublish toPrepare pending entered stats) w (.ok stats') t) :
    t.readersOut = true := by
  induction toPrepare generalizing pending entered stats w with
  | nil =>
    obtain ⟨_, w₁, hbefore, h⟩ := executes_bind_ok.1 h
    have hout := executes_beforeWrite_aroundPublish hentered hbefore
    exact (visits_of_loops (loops_of_writes writes_flush) h.visits).2 hout
  | cons head rest ih =>
    obtain ⟨path, consult⟩ := head
    rw [prepareAndWrite] at h
    have hreads : Only Call.Reads (prepareFile env path consult).attempt :=
      only_attempt.2 (reads_prepareFile path consult)
    obtain ⟨outcome, w₁, hprepare, h⟩ := executes_bind_ok.1 h
    obtain ⟨nextId, rfl⟩ := visits_of_reads hreads hprepare.visits
    simp only at h
    split at h
    · obtain ⟨_, w₂, hbefore, h⟩ := executes_bind_ok.1 h
      have hout := executes_beforeWrite_aroundPublish (by exact hentered) hbefore
      obtain ⟨stats₁, w₃, hflush, h⟩ := executes_bind_ok.1 h
      exact ih (fun _ ↦ (visits_of_loops (loops_of_writes writes_flush) hflush.visits).2 hout) h
    · exact ih (w := { w with nextId }) hentered h

end Before

/-! ### Once the readers are out -/

section Out

variable {α : Type} {task : Task D α} {w t : World D}

/-- **A run that lets the readers back in has then ended what it kept them out for.** -/
theorem visits_admitAfter (hkeeps : Only Call.KeepsLock task) (hout : w.readersOut = true)
    (h : Visits (World.noneFails env) (ReaderExclusion.aroundPublish.admitAfter task) w t) :
    t.readersOut = true ∨ ∃ r, run (World.handle env)
      (ReaderExclusion.aroundPublish.admitAfter task) w = (r, t) := by
  rcases visits_bind_outcomes h with h | ⟨outcome, w₁, htask, h⟩
  · exact Or.inl ((visits_of_keepsLock hkeeps (visits_attempt.1 h).orFails).trans hout)
  have hout₁ : w₁.readersOut = true :=
    (visits_of_keepsLock hkeeps (visits_attempt.1 (executes_of_run htask).visits)).trans hout
  rw [ReaderExclusion.admitAfter, run_bind_ok htask, ReaderExclusion.admit,
    run_bind_ok run_admitReaders]
  rcases visits_bind_outcomes h with h | ⟨_, w₂, hadmit, h⟩
  · rcases visits_perform.1 h with rfl | ⟨r, hadmit⟩
    · exact Or.inl hout₁
    · cases hadmit
      refine Or.inr ?_
      rcases outcome with e | a
      · exact ⟨.error e, rfl⟩
      · exact ⟨.ok a, rfl⟩
  · rw [ ReaderExclusion.admit, run_admitReaders] at hadmit
    cases hadmit
    refine Or.inr ?_
    rcases outcome with e | a
    · exact ⟨.error e, by rw [visits_fail.1 h]; rfl⟩
    · exact ⟨.ok a, by rw [visits_pure.1 h]; rfl⟩

theorem keepsLock_commit : Only Call.KeepsLock (commit : Task D Unit) :=
  only_mapError.2 (keepsLock_request (by trivial))

variable [DecidableEq D]

theorem keepsLock_indexBatch {stats : IndexStats} {batch : List PathBuf} :
    Only Call.KeepsLock (indexBatch env stats batch) := by
  have hparse : Only Call.Writes (parallelParseBatch env batch stats) :=
    within_of_reads <| Only.foldlM fun _ path _ ↦
      (only_attempt.2 (reads_processFileSync path)).bind fun _ ↦ only_pure
  refine Only.bind (keepsLock_request (by trivial)) fun _ ↦
    (keepsLock_of_writes hparse).bind fun parsed ↦ ?_
  obtain ⟨processed, stats⟩ := parsed
  simp only
  split
  · exact only_pure.bind fun _ ↦ keepsLock_commit.bind fun _ ↦ only_pure
  · refine Only.bind (Only.bind (only_failingAs (keepsLock_request (by trivial))) fun _ ↦
      (keepsLock_of_writes writes_writeFiles).bind fun _ ↦ only_pure) fun _ ↦
      keepsLock_commit.bind fun _ ↦ only_pure

/-- A full pass leaves the lock alone. -/
theorem keepsLock_indexDirectoryParallel : Only Call.KeepsLock (indexDirectoryParallel env) := by
  refine Only.bind (keepsLock_request (by trivial)) fun walked ↦ ?_
  obtain ⟨files, walkErrors⟩ := walked
  simp only
  split
  · exact only_pure
  refine Only.bind (keepsLock_request (by trivial)) fun _ ↦
    (Only.foldlM fun _ _ _ ↦ keepsLock_indexBatch).bind fun _ ↦ Only.bind ?_ fun _ ↦ only_pure
  unfold dropFilesOutsideWalk
  split
  · exact only_pure
  refine Only.bind (Only.bind (only_mapError.2 (keepsLock_request (by trivial))) fun indexed ↦ ?_)
    fun _ ↦ only_pure
  extract_lets gone
  split
  · exact only_pure
  · exact (keepsLock_of_writes (within_deleteFilesChunks fun _ _ ↦ trivial)).bind fun _ ↦
      keepsLock_commit.bind fun _ ↦
      (Only.forEach fun _ _ ↦ only_failingAs (keepsLock_request (by trivial))).bind
        fun _ ↦ only_pure

end Out

/-! ### What can be seen -/

/-- What readers of a run from `w` to `w'` may see: the stores as they were, perhaps with an empty
BM25 index refilled, or as they are at its end. -/
def World.Seen (env : Env D) (w w' t : World D) : Prop :=
  w.MaybeRefilled env t ∨ t.vectors = w'.vectors ∧ t.bm25.committed = w'.bm25.committed

section Seen

variable [DecidableEq D] {w w' t : World D} {stats : IndexStats}

/-- **What shows of processing changes**: perhaps a refill, until the readers are out, and then the
end. -/
theorem visits_processChanges {changes : ChangeSet}
    (hrun : run (World.handle env) (processChanges env .aroundPublish changes) w = (.ok stats, w'))
    (h : Visits (World.noneFails env) (processChanges env .aroundPublish changes) w t) :
    t.readersOut = true ∨ w.MaybeRefilled env t ∨ t = w' := by
  rcases visits_bind_outcomes h with h | ⟨_, w₁, hensure, h⟩
  · exact Or.inr (Or.inl (visits_ensureIndexer h.orFails))
  rw [processChanges, run_bind_ok hensure] at hrun
  have hw₁ := visits_ensureIndexer (executes_of_run hensure).visits
  rcases visits_bind_outcomes h with h | ⟨_, w₂, hheadroom, h⟩
  · rw [visits_of_looks (looks_request (by trivial)) h.orFails]
    exact Or.inr (Or.inl hw₁)
  rw [run_ensureIndexDiskHeadroom] at hheadroom
  cases hheadroom
  rw [run_bind_ok run_ensureIndexDiskHeadroom] at hrun
  rcases visits_bind_outcomes h with h | ⟨stats₁, w₃, hloop, h⟩
  · rcases visits_prepareAndWrite (by simp) h.orFails with hout | hvectors
    · exact Or.inl hout
    · exact Or.inr (Or.inl
        (hw₁.congr hvectors (visits_of_loops loops_prepareAndWrite h.orFails).1))
  rw [run_bind_ok hloop] at hrun
  have hout := readersOut_of_prepareAndWrite (by simp) (executes_of_run hloop)
  obtain ⟨_, w₄, hpublish, hpure⟩ := run_bind_eq_ok hrun
  cases hpure
  rcases visits_bind_outcomes h with h | ⟨_, w₅, hpublish', h⟩
  · rcases visits_admitAfter keepsLock_commit hout h with hout | ⟨r, hend⟩
    · exact Or.inl hout
    · rw [hpublish] at hend
      cases hend
      exact Or.inr (Or.inr rfl)
  · rw [hpublish] at hpublish'
    cases hpublish'
    exact Or.inr (Or.inr (visits_pure.1 h))

/-- What shows of an incremental update. -/
theorem visits_incrementalUpdate {old merkle : FileSystemMerkle D}
    (hrun : run (World.handle env) (incrementalUpdate env .aroundPublish old merkle) w =
      (.ok stats, w'))
    (h : Visits (World.noneFails env) (incrementalUpdate env .aroundPublish old merkle) w t) :
    t.readersOut = true ∨ w.MaybeRefilled env t ∨ t = w' := by
  unfold incrementalUpdate at h hrun
  extract_lets at h hrun
  split at h
  · rw [visits_pure.1 h]
    exact Or.inr (Or.inl (.refl w))
  next hchanged =>
  rw [if_neg hchanged] at hrun
  split at h
  · rw [visits_pure.1 h]
    exact Or.inr (Or.inl (.refl w))
  next hchanges =>
  rw [if_neg hchanges] at hrun
  obtain ⟨stats₁, w₁, hprocess, hpure⟩ := run_bind_eq_ok hrun
  cases hpure
  rcases visits_bind_outcomes h with h | ⟨stats₂, w₂, hprocess', h⟩
  · exact visits_processChanges hprocess h
  · rw [hprocess] at hprocess'
    cases hprocess'
    exact Or.inr (Or.inr (visits_pure.1 h))

/-- Of a full pass only its end shows. -/
theorem visits_fullPass
    (hrun : run (World.handle env) (fullPass env .aroundPublish) w = (.ok stats, w'))
    (h : Visits (World.noneFails env) (fullPass env .aroundPublish) w t) :
    t.readersOut = true ∨ w.MaybeRefilled env t ∨ t = w' := by
  rcases visits_bind_outcomes h with h | ⟨_, w₁, hexclude, h⟩
  · have hbm25 := visits_of_keepsStores (only_perform.2 (by trivial)) h.orFails
    exact Or.inr (Or.inl (.same hbm25.1 (by rw [hbm25.2])))
  rw [fullPass, run_bind_ok hexclude] at hrun
  rw [ReaderExclusion.exclude, run_excludeReaders] at hexclude
  cases hexclude
  have hkeeps : Only Call.KeepsLock (ensureIndexer >>= fun _ ↦ indexDirectoryParallel env) :=
    (keepsLock_of_refills refills_ensureIndexer).bind fun _ ↦ keepsLock_indexDirectoryParallel
  rcases visits_admitAfter hkeeps rfl h with hout | ⟨r, hend⟩
  · exact Or.inl hout
  · rw [hrun] at hend
    cases hend
    exact Or.inr (Or.inr rfl)

theorem visits_strategy {old : Option (FileSystemMerkle D)} {merkle : FileSystemMerkle D}
    (hrun : run (World.handle env) (strategy env .aroundPublish old merkle) w = (.ok stats, w'))
    (h : Visits (World.noneFails env) (strategy env .aroundPublish old merkle) w t) :
    t.readersOut = true ∨ w.MaybeRefilled env t ∨ t = w' := by
  rcases old with - | old
  · exact visits_fullPass hrun h
  · exact visits_incrementalUpdate hrun h

/-- **Every state of a run is one the readers may see, or they are out.** -/
theorem seen_of_visits
    (hrun : run (World.handle env) (indexWithChangeDetectionExcluding env .aroundPublish) w =
      (.ok stats, w'))
    (h : Visits (World.noneFails env) (indexWithChangeDetectionExcluding env .aroundPublish) w t) :
    t.readersOut = true ∨ World.Seen env w w' t := by
  have hbefore : t = w → t.readersOut = true ∨ World.Seen env w w' t := by
    rintro rfl
    exact Or.inr (Or.inl (.refl _))
  rcases visits_bind_outcomes h with h | ⟨_, w₁, hheadroom, h⟩
  · exact hbefore (visits_of_looks (looks_request (by trivial)) h.orFails)
  rw [run_ensureIndexDiskHeadroom] at hheadroom
  cases hheadroom
  rcases visits_bind_outcomes h with h | ⟨stored, w₂, hload, h⟩
  · exact hbefore (visits_of_looks (looks_request (by trivial)) h.orFails)
  rw [run_loadSnapshot] at hload
  cases hload
  rcases visits_bind_outcomes h with h | ⟨merkle, w₃, hmerkle, h⟩
  · exact hbefore (visits_of_looks looks_fromDirectory h.orFails)
  rw [indexWithChangeDetectionExcluding, run_bind_ok run_ensureIndexDiskHeadroom,
    run_bind_ok run_loadSnapshot, run_bind_ok hmerkle] at hrun
  rw [run_fromDirectory] at hmerkle
  cases hmerkle
  rcases visits_bind_outcomes h with h | ⟨_, w₄, hbeside, h⟩
  · exact Or.inr (Or.inl (visits_refillBeside h.orFails))
  rw [run_bind_ok hbeside] at hrun
  have hw₄ := visits_refillBeside (executes_of_run hbeside).visits
  obtain ⟨stats₁, w₅, hstrategy, hsave⟩ := run_bind_eq_ok hrun
  rw [run_bind_ok (run_saveSnapshot _)] at hsave
  cases hsave
  rcases visits_bind_outcomes h with h | ⟨stats₂, w₆, hstrategy', h⟩
  · rcases visits_strategy hstrategy h with hout | hrefilled | rfl
    · exact Or.inl hout
    · exact Or.inr (Or.inl (hw₄.trans hrefilled))
    · exact Or.inr (Or.inr ⟨rfl, rfl⟩)
  · rw [hstrategy] at hstrategy'
    cases hstrategy'
    have hkeeps : ∀ snapshot : MerkleSnapshot D, Only Call.KeepsStores
        (saveSnapshot snapshot >>= fun _ ↦ (pure stats : Task D IndexStats)) :=
      fun snapshot ↦ Only.bind (only_perform.2 (by trivial)) fun _ ↦ only_pure
    obtain ⟨hvectors, hbm25⟩ := visits_of_keepsStores (hkeeps _) h.orFails
    exact Or.inr (Or.inr ⟨hvectors, by rw [hbm25]⟩)

end Seen

/-! ### What changes under a reader -/

/-- A call leaves the vector table alone unless the readers are out, and commits only if they are,
or if it is the refill of an empty BM25 index. -/
def Call.Allowed (env : Env D) : Call D → World D → Prop
  | deleteByFilePaths _, w | insertRows _, w => w.readersOut = true
  | commit, w => w.readersOut = true ∨
    w.bm25.committed = [] ∧ w.RowsKeyed ∧ w.bm25.current = w.scannedDocuments env
  | _, _ => True

/-- The calls that are always allowed. -/
def Call.Quiet : Call D → Prop
  | deleteByFilePaths _ | insertRows _ | commit => False
  | _ => True

/-- An allowed call made while the readers are in shows at most a refill. -/
theorem maybeRefilled_of_allowed {call : Call D} {w t : World D} {r : Except String call.Ret}
    (hallowed : call.Allowed env w) (hin : w.readersOut = false)
    (h : World.handle env call w = (r, t)) : w.MaybeRefilled env t := by
  have hnot : ¬ w.readersOut = true := by simp [hin]
  cases call with
  | deleteByFilePaths => exact absurd hallowed hnot
  | insertRows => exact absurd hallowed hnot
  | commit =>
    obtain ⟨hcommitted, hkeyed, hcurrent⟩ := hallowed.resolve_left hnot
    cases h
    refine ⟨rfl, Or.inr ⟨?_, fun _ ↦ hkeyed⟩⟩
    rw [World.refilled, if_pos hcommitted]
    exact hcurrent
  | chunkSource path text =>
    obtain ⟨nextId, rfl⟩ := handle_of_reads (by trivial) h
    exact .same rfl rfl
  | _ =>
    cases h
    exact .same rfl rfl

section Guarded

variable {α : Type} {task : Task D α} {w : World D}

/-- In every execution of a task each call is allowed in the state it is made in. -/
abbrev Guards (env : Env D) (task : Task D α) (w : World D) : Prop :=
  Guarded (World.noneFails env) (Call.Allowed env) task w

theorem guards_of_quiet (h : Only Call.Quiet task) : Guards env task w :=
  h.guarded (fun _ ↦ True) (fun call s hquiet _ ↦ by cases call <;> trivial)
    (fun _ _ _ _ _ _ _ ↦ trivial) trivial

theorem guards_of_looks (h : Only Call.Looks task) : Guards env task w :=
  guards_of_quiet <| h.mono fun call hlooks ↦ by
    cases call <;> trivial

theorem guards_request {call : Call D} (h : call.Quiet) :
    Guards env (request call) w :=
  guards_of_quiet (only_perform.2 h)

/-- While the readers are out everything is allowed. -/
theorem guards_of_readersOut (hkeeps : Only Call.KeepsLock task) (hout : w.readersOut = true) :
    Guards env task w :=
  hkeeps.guarded (fun w ↦ w.readersOut = true)
    (fun call s _ hs ↦ by cases call <;> first | trivial | exact hs | exact Or.inl hs)
    (fun _ _ _ _ hcall h hs ↦ (readersOut_of_keepsLock hcall h).trans hs) hout

/-- What a scan that got through all rows has queued on an empty index. -/
theorem queued_of_scan {w₁ : World D} {indexed : ℕ} (hpending : w.bm25.pending = [])
    (hcommitted : w.bm25.committed = [])
    (hrun : run (World.handle env) (scanBatches >>= fun batches ↦ scanChunks batches 0) w =
      (.ok indexed, w₁)) :
    w₁.bm25.committed = [] ∧ w₁.RowsKeyed ∧ w₁.bm25.current = w₁.scannedDocuments env := by
  rw [run_bind_ok run_scanBatches] at hrun
  by_cases hkeyed : w.RowsKeyed
  · obtain ⟨indexed', hscan⟩ := @run_scanChunks_of_keyed _ env w (env.recordBatches w.vectors) 0
      fun row hrow ↦ hkeyed row ((env.flatten_recordBatches _).mem_iff.1 hrow)
    rw [hrun] at hscan
    cases hscan
    refine ⟨hcommitted, hkeyed, ?_⟩
    simp only [TantivyIndex.current, hcommitted, hpending, List.nil_append,
      WriterOp.foldl_apply_addDocument, World.scannedDocuments]
  · simp only [World.RowsKeyed, not_forall] at hkeyed
    obtain ⟨row, hrow, hkeyed⟩ := hkeyed
    obtain ⟨e, w', herror⟩ := @run_scanChunks_of_not_keyed _ env w
      (env.recordBatches w.vectors) 0 row
      ((env.flatten_recordBatches _).mem_iff.2 hrow) hkeyed
    rw [hrun] at herror
    cases herror

/-- A refill commits all documents at once. -/
theorem guards_rebuildBm25IfEmpty (hpending : w.bm25.pending = []) :
    Guards env (rebuildBm25IfEmpty : Task D (Option ℕ)) w := by
  refine Guarded.bind (guards_request (by trivial)) fun docs w₁ hdocs ↦ ?_
  cases executes_outcomes.1 hdocs
  split
  · trivial
  next hempty =>
  have hcommitted : w.bm25.committed = [] :=
    List.length_eq_zero_iff.1 (Nat.eq_zero_of_not_pos hempty)
  refine Guarded.bind (guarded_mapError.2 (guards_request (by trivial))) fun stored w₁ hstored ↦ ?_
  cases executes_outcomes.1 hstored
  split
  · trivial
  have hquiet : Only Call.Quiet (scanBatches >>= fun batches ↦ scanChunks batches 0 : Task D ℕ) :=
    (Only.bind (queues_request (by trivial)) fun _ ↦ queues_scanChunks).mono fun call hqueues ↦ by
      cases call <;> trivial
  refine Guarded.bind (guarded_mapError.2 (guards_of_quiet hquiet)) fun indexed w₁ hscan ↦ ?_
  obtain ⟨result, hresult, hscan⟩ := executes_mapError.1 hscan
  rcases result with e | indexed
  · cases hresult
  exact Guarded.bind (guarded_mapError.2 (guarded_perform.2
    (Or.inr (queued_of_scan hpending hcommitted (executes_outcomes.1 hscan))))) fun _ _ _ ↦ trivial

theorem guards_rebuildBm25FromExistingStore :
    Guards env (rebuildBm25FromExistingStore : Task D (Option ℕ)) w := by
  refine Guarded.bind (guards_request (by trivial)) fun _ w₁ hopen ↦ ?_
  cases executes_outcomes.1 hopen
  exact guards_rebuildBm25IfEmpty rfl

theorem guards_ensureIndexer : Guards env (ensureIndexer : Task D Unit) w := by
  rw [ensureIndexer_eq]
  refine Guarded.bind (guards_request (by trivial)) fun opened _ _ ↦ ?_
  split
  · trivial
  · exact guards_rebuildBm25FromExistingStore.bind fun _ _ _ ↦ guards_request (by trivial)

theorem guards_refillBeside {old : Option (FileSystemMerkle D)} :
    Guards env (refillBeside old) w := by
  refine Guarded.bind (guards_request (by trivial)) fun opened _ _ ↦ ?_
  split
  · refine Guarded.bind (guards_request (by trivial)) fun docs _ _ ↦ ?_
    split
    · exact guards_rebuildBm25FromExistingStore.bind fun _ _ _ ↦ trivial
    · trivial
  · trivial

theorem guards_beforeWrite {exclusion : ReaderExclusion} {entered : Bool} :
    Guards env (beforeWrite exclusion entered : Task D Unit) w := by
  unfold beforeWrite
  split
  · trivial
  · cases exclusion
    · trivial
    · exact guards_request (by trivial)

/-- What the run keeps the readers out for is allowed. -/
theorem guards_admitAfter (hkeeps : Only Call.KeepsLock task) (hout : w.readersOut = true) :
    Guards env (ReaderExclusion.aroundPublish.admitAfter task) w := by
  refine Guarded.bind (guarded_attempt.2 (guards_of_readersOut hkeeps hout)) fun outcome _ _ ↦ ?_
  refine Guarded.bind (guards_request (by trivial)) fun _ _ _ ↦ ?_
  rcases outcome with e | a <;> trivial

variable [DecidableEq D]

/-- The loop over the changed files writes only once the readers are out. -/
theorem guards_prepareAndWrite {toPrepare : List (PathBuf × Bool)} {pending : PendingWrite}
    {entered : Bool} {stats : IndexStats} (hentered : entered = true → w.readersOut = true) :
    Guards env (prepareAndWrite env .aroundPublish toPrepare pending entered stats) w := by
  have hflush : ∀ {w w₁ : World D} {pending : PendingWrite} {entered : Bool} {stats : IndexStats}
      {u : Unit}, (entered = true → w.readersOut = true) →
      Executes (World.noneFails env) (beforeWrite .aroundPublish entered) w (.ok u) w₁ →
      w₁.readersOut = true ∧ Guards env (pending.flush env stats) w₁ := by
    intro w w₁ pending entered stats u hentered hbefore
    have hout := executes_beforeWrite_aroundPublish hentered
      (executes_of_run (executes_outcomes.1 hbefore))
    exact ⟨hout, guards_of_readersOut (keepsLock_of_writes writes_flush) hout⟩
  induction toPrepare generalizing pending stats w entered with
  | nil => exact guards_beforeWrite.bind fun _ _ hbefore ↦ (hflush hentered hbefore).2
  | cons head rest ih =>
    obtain ⟨path, consult⟩ := head
    have hreads : Only Call.Reads (prepareFile env path consult).attempt :=
      only_attempt.2 (reads_prepareFile path consult)
    have hquiet : Only Call.Quiet (prepareFile env path consult).attempt :=
      hreads.mono fun call hcall ↦ by
        cases call <;> trivial
    rw [prepareAndWrite]
    refine (guards_of_quiet hquiet).bind fun outcome w₁ hprepare ↦ ?_
    obtain ⟨nextId, rfl⟩ := visits_of_reads hreads hprepare.visits.orFails
    simp only
    split
    · refine guards_beforeWrite.bind fun _ w₂ hbefore ↦ ?_
      obtain ⟨hout, hguards⟩ := hflush (by exact hentered) hbefore
      exact hguards.bind fun stats₁ w₃ hexec ↦ ih fun _ ↦
        (visits_of_loops (loops_of_writes writes_flush) hexec.visits.orFails).2 hout
    · exact ih (w := { w with nextId }) hentered

/-- **Every call of a run is allowed.** -/
theorem guards_indexWithChangeDetectionExcluding :
    Guards env (indexWithChangeDetectionExcluding env .aroundPublish) w := by
  refine Guarded.bind (guards_request (by trivial)) fun _ _ _ ↦
    Guarded.bind (guards_request (by trivial)) fun _ _ _ ↦
    (guards_of_looks looks_fromDirectory).bind fun _ _ _ ↦ guards_refillBeside.bind fun _ _ _ ↦
    Guarded.bind ?_ fun _ _ _ ↦ Guarded.bind (guards_request (by trivial)) fun _ _ _ ↦ trivial
  unfold strategy
  split
  · unfold incrementalUpdate
    extract_lets
    split
    · trivial
    split
    · trivial
    refine Guarded.bind ?_ fun _ _ _ ↦ trivial
    refine guards_ensureIndexer.bind fun _ _ _ ↦
      Guarded.bind (guards_request (by trivial)) fun _ _ _ ↦
      (guards_prepareAndWrite (by simp)).bind fun _ _ hloop ↦ Guarded.bind ?_ fun _ _ _ ↦ trivial
    exact guards_admitAfter keepsLock_commit
      (readersOut_of_prepareAndWrite (by simp) (executes_of_run (executes_outcomes.1 hloop)))
  · refine Guarded.bind (guards_request (by trivial)) fun _ w₁ hexclude ↦ guards_admitAfter ?_ ?_
    · exact (keepsLock_of_refills refills_ensureIndexer).bind fun _ ↦
        keepsLock_indexDirectoryParallel
    · cases executes_outcomes.1 hexclude
      rfl

end Guarded

/-! ### What readers see -/

namespace Session

variable [DecidableEq D] {w w' : World D} {stats : IndexStats} {s s' : Session D}

/-- What holds of a session of a run from `w` to `w'`. -/
structure Inv (env : Env D) (w w' : World D) (s : Session D) : Prop where
  lock : s.world.readersOut = true → s.inside = ∅
  seen : ∀ t, Visits (World.noneFails env) s.task s.world t →
    t.readersOut = true ∨ World.Seen env w w' t
  guards : Guards env s.task s.world

omit [DecidableEq D] in
/-- **Each step of a session keeps that.** -/
theorem Inv.step (h : s.Inv env w w') (hstep : s.Step env s') : s'.Inv env w w' := by
  refine ⟨inside_eq_empty hstep h.lock, ?_, ?_⟩
  · cases hstep with
    | call hwaits hcall => exact fun t ht ↦ h.seen t (Or.inr ⟨_, _, hcall, ht⟩)
    | enter => exact h.seen
    | leave => exact h.seen
  · cases hstep with
    | call hwaits hcall => exact h.guards.2 _ _ hcall
    | enter => exact h.guards
    | leave => exact h.guards

omit [DecidableEq D] in
/-- While a reader stays inside, at most a refill changes what it sees. -/
theorem Inv.maybeRefilled (h : s.Inv env w w') (hstep : s.Step env s') {reader : ℕ}
    (hreader : reader ∈ s.inside) : s.world.MaybeRefilled env s'.world := by
  cases hstep with
  | call hwaits hcall =>
    refine maybeRefilled_of_allowed h.guards.1 ?_ hcall
    by_contra hout
    rw [h.lock (by simpa using hout)] at hreader
    exact hreader
  | enter => exact .refl _
  | leave => exact .refl _

end Session

/-- **What readers see of a run.** Any readers come and go while a run that publishes on its own
goes on and completes. Whenever one is inside, the vector table and the committed BM25 index are
both as the run found them, save that a refill may have filled an empty BM25 index, or both as the
run leaves them. For as long as it stays inside, what it sees stays the same, but for such a refill.
-/
theorem seen_of_session [DecidableEq D] {w w' : World D} {stats : IndexStats} {inside : Set ℕ}
    (hin : w.readersOut = false)
    (hrun : run (World.handle env) (indexWithChangeDetectionExcluding env .aroundPublish) w =
      (.ok stats, w')) {s : Session D}
    (hs : Relation.ReflTransGen (Session.Step env)
      ⟨indexWithChangeDetectionExcluding env .aroundPublish, w, inside⟩ s)
    {reader : ℕ} (hreader : reader ∈ s.inside) :
    World.Seen env w w' s.world ∧
      ∀ s', Session.Holding env reader s s' → s.world.MaybeRefilled env s'.world := by
  have hinv : s.Inv env w w' := by
    clear hreader
    induction hs with
    | refl =>
      exact ⟨fun hout ↦ by simp [hin] at hout, fun t ↦ seen_of_visits hrun,
        guards_indexWithChangeDetectionExcluding⟩
    | tail _ hstep ih => exact ih.step hstep
  refine ⟨(hinv.seen s.world (visits_refl _ _)).resolve_left fun hout ↦ ?_, fun s' hholding ↦ ?_⟩
  · rw [hinv.lock hout] at hreader
    exact hreader
  · suffices hheld : s'.Inv env w w' ∧ s.world.MaybeRefilled env s'.world from hheld.2
    induction hholding with
    | refl => exact ⟨hinv, .refl _⟩
    | tail _ hstep ih =>
      obtain ⟨hstep, hinside, -⟩ := hstep
      exact ⟨ih.1.step hstep, ih.2.trans (ih.1.maybeRefilled hstep hinside)⟩

namespace Session

/-- A part of a run that does not take the lock goes on beside the readers. -/
theorem steps_of_run {α : Type} {task : Task D α} {next : α → Task D IndexStats} {w w' : World D}
    {inside : Set ℕ} {a : α} (hkeeps : Only Call.KeepsLock task)
    (hrun : run (World.handle env) task w = (.ok a, w')) :
    Relation.ReflTransGen (Step env) ⟨task >>= next, w, inside⟩ ⟨next a, w', inside⟩ := by
  induction task generalizing w with
  | ret b =>
    cases hrun
    exact .refl
  | fail e => cases hrun
  | call o k ih =>
    refine .head (.call (fun ho ↦ ?_) rfl) (ih _ (hkeeps.2 _) hrun)
    have ho' := hkeeps.1
    rw [ho] at ho'
    exact ho'.elim

end Session

namespace World

/-- A file has been indexed and then changed, and the BM25 index is a new one. -/
def unfilled : World ByteArray :=
  { changed with bm25 := ⟨[], []⟩, opened := false }

/-- The state in which a run over it has refilled the index. -/
def refilledBeside : World ByteArray :=
  (run (handle Env.sample) (refillBeside unfilled.oldMerkle) unfilled).2

theorem exists_run_unfilled : ∃ stats, run (handle Env.sample)
    (indexWithChangeDetectionExcluding Env.sample .aroundPublish) unfilled = (.ok stats,
      (run (handle Env.sample) (indexWithChangeDetectionExcluding Env.sample .aroundPublish)
        unfilled).2) :=
  exists_run_eq_ok (by decide +kernel)

/-- A reader can be inside then. -/
theorem exists_session_refilledBeside : ∃ task, Relation.ReflTransGen (Session.Step Env.sample)
    ⟨indexWithChangeDetectionExcluding Env.sample .aroundPublish, unfilled, {0}⟩
    ⟨task, refilledBeside, {0}⟩ := by
  obtain ⟨u, hbeside⟩ := @exists_run_eq_ok _ _ _ _ _ (handle Env.sample)
    (refillBeside unfilled.oldMerkle) unfilled (by decide +kernel)
  refine ⟨_,
    (Session.steps_of_run (keepsLock_request (by trivial)) run_ensureIndexDiskHeadroom).trans <|
    (Session.steps_of_run (keepsLock_request (by trivial)) run_loadSnapshot).trans <|
    (Session.steps_of_run ?_ run_fromDirectory).trans <|
    Session.steps_of_run (keepsLock_of_refills refills_refillBeside) hbeside⟩
  exact looks_fromDirectory.mono fun call hlooks ↦ by
    cases call <;> trivial

/-- **A reader can see the BM25 index refilled and the table not yet rewritten**, which is neither
what the run found nor what it leaves. -/
theorem seen_refilledBeside : ∃ stats w', run (handle Env.sample)
      (indexWithChangeDetectionExcluding Env.sample .aroundPublish) unfilled = (.ok stats, w') ∧
    ∃ s : Session ByteArray, Relation.ReflTransGen (Session.Step Env.sample)
        ⟨indexWithChangeDetectionExcluding Env.sample .aroundPublish, unfilled, {0}⟩ s ∧
      0 ∈ s.inside ∧
      ¬ (s.world.vectors = unfilled.vectors ∧
        s.world.bm25.committed = unfilled.bm25.committed) ∧
      ¬ (s.world.vectors = w'.vectors ∧ s.world.bm25.committed = w'.bm25.committed) := by
  obtain ⟨stats, hrun⟩ := exists_run_unfilled
  obtain ⟨task, hsession⟩ := exists_session_refilledBeside
  refine ⟨stats, _, hrun, _, hsession, rfl, fun h ↦ ?_, fun h ↦ ?_⟩
  · have hne : refilledBeside.bm25.committed ≠ [] := by decide +kernel
    exact hne h.2
  · have hids : refilledBeside.vectors.map Row.id ≠ (run (handle Env.sample)
        (indexWithChangeDetectionExcluding Env.sample .aroundPublish) unfilled).2.vectors.map
        Row.id := by decide +kernel
    exact hids (congrArg (List.map Row.id) h.1)

/-- The same reader, told in general. -/
theorem seen_of_session_refilledBeside : ∃ w' task,
    Seen Env.sample unfilled w' refilledBeside ∧
      ∀ s', Session.Holding Env.sample 0 ⟨task, refilledBeside, {0}⟩ s' →
        refilledBeside.MaybeRefilled Env.sample s'.world := by
  obtain ⟨stats, hrun⟩ := exists_run_unfilled
  obtain ⟨task, hsession⟩ := exists_session_refilledBeside
  exact ⟨_, task, seen_of_session rfl hrun hsession rfl⟩

end World

end RustCodeMcp
