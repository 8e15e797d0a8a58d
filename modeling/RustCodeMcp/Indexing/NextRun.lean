import RustCodeMcp.Indexing.Agreement

/-!
# The run after a disturbed one

A run may have had failures, or found files that changed under it. What matters afterwards is only
the state it left and the files as they are when the next run starts: whether that run makes good
what the first one missed can be read off these two.

The state is one of two. After a crash, or in a new process, the indexer is opened anew and what was
queued is lost (`restarted`); after a run that ended well the same indexer goes on. The snapshot and
the cache are on disk in either case.

**A failed write is made good unless the file is put back.** Its path kept the hash from before the
run, so that the next run looks at the file again exactly if its hash is another one by then.
-/

namespace RustCodeMcp

open Effect

variable {D : Type} {env : Env D}

namespace World

/-- What a crash leaves, or the end of a process: what was queued for BM25 is lost, and no indexer
is up. -/
def restarted (w : World D) : World D :=
  { w with bm25 := ⟨w.bm25.committed, []⟩, opened := false, readersOut := false }

/-- How the next run finds the state that a run left: with a fresh indexer, or with the same one if
that run ended well. -/
inductive Resumes {α : Type} (w : World D) (r : Except String α) : World D → Prop
  | fresh : Resumes w r w.restarted
  | same (hok : r.isOk = true) : Resumes w r w

variable {w v : World D} {α : Type} {r : Except String α}

theorem Resumes.snapshot (h : w.Resumes r v) : v.snapshot = w.snapshot := by
  cases h <;> rfl

theorem Resumes.pending (h : w.Resumes r v) (hpending : r.isOk = true → w.bm25.pending = []) :
    v.bm25.pending = [] := by
  cases h with
  | fresh => rfl
  | same hok => exact hpending hok

end World

section Failures

variable [DecidableEq D] {w w₁ v w₂ : World D} {exclusion exclusion' : ReaderExclusion}
  {r : Except String IndexStats} {path : PathBuf}

omit [DecidableEq D] in
/-- Loading the snapshot changes nothing, and finds it as it was saved. -/
theorem executes_loadSnapshot {stored : Option (MerkleSnapshot D)}
    (h : Executes (World.mayFail env) loadSnapshot w (.ok stored) w₁) :
    stored = w.snapshot ∧ w = w₁ := by
  have hrun : run (World.handle env) loadSnapshot w = _ := failFast_request.run_of_ok h
  rw [run_loadSnapshot] at hrun
  cases hrun
  exact ⟨rfl, rfl⟩

omit [DecidableEq D] in
theorem executes_fromDirectory {merkle : FileSystemMerkle D}
    (h : Executes (World.mayFail env) (fromDirectory env) w (.ok merkle) w₁) :
    merkle = w.merkle env ∧ w = w₁ := by
  have hrun := failFast_fromDirectory.run_of_ok h
  rw [run_fromDirectory] at hrun
  cases hrun
  exact ⟨rfl, rfl⟩

/-- A run that ends with an error was cut off before it saved a snapshot. -/
theorem executes_error {e : String}
    (h : Executes (World.mayFail env) (indexWithChangeDetectionExcluding env exclusion) w
      (.error e) w₁) :
    Visits (World.mayFail env) (refillBeside w.oldMerkle >>= fun _ ↦
      strategy env exclusion w.oldMerkle (w.merkle env)) w w₁ := by
  have hstart : w₁ = w → Visits (World.mayFail env) (refillBeside w.oldMerkle >>= fun _ ↦
      strategy env exclusion w.oldMerkle (w.merkle env)) w w₁ := fun h ↦ h ▸ visits_refl _ _
  rcases executes_bind.1 h with ⟨_, _, hheadroom, hrest⟩ | ⟨_, hheadroom, -⟩
  swap
  · exact hstart (visits_of_looks (looks_request (by trivial)) hheadroom.visits)
  obtain rfl := executes_ensureIndexDiskHeadroom hheadroom
  rcases executes_bind.1 hrest with ⟨stored, _, hload, hrest⟩ | ⟨_, hload, -⟩
  swap
  · exact hstart (visits_of_looks (looks_request (by trivial)) hload.visits)
  obtain ⟨rfl, rfl⟩ := executes_loadSnapshot hload
  rcases executes_bind.1 hrest with ⟨merkle, _, hmerkle, hrest⟩ | ⟨_, hmerkle, -⟩
  swap
  · exact hstart (visits_of_looks looks_fromDirectory hmerkle.visits)
  obtain ⟨rfl, rfl⟩ := executes_fromDirectory hmerkle
  rcases executes_bind.1 hrest with ⟨_, w₂, hbeside, hrest⟩ | ⟨_, hbeside, -⟩
  swap
  · exact visits_bind.2 (Or.inl hbeside.visits)
  rcases executes_bind.1 hrest with ⟨stats, w₃, hstrategy, hrest⟩ | ⟨_, hstrategy, -⟩
  swap
  · exact visits_bind.2 (Or.inr ⟨_, w₂, hbeside, hstrategy.visits⟩)
  -- What failed was saving the snapshot.
  rcases executes_bind.1 hrest with ⟨_, _, -, hpure⟩ | ⟨_, hsave, -⟩
  · cases hpure.1
  · rcases executes_perform.1 hsave with hsave | ⟨-, rfl⟩
    · cases hsave
    · exact visits_bind.2 (Or.inr ⟨_, w₂, hbeside, hstrategy.visits⟩)

/-- **A path that a run with failures asks to retry keeps its hash in the snapshot.** -/
theorem oldHash_of_failures (hpending : w.bm25.pending = []) (hsnapshot : w.snapshot.isSome)
    (h : Executes (World.mayFail env) (indexWithChangeDetectionExcluding env exclusion) w r w₁)
    (hretry : ∀ stats, r = .ok stats → path ∈ stats.retryFiles) :
    w₁.snapshot.isSome ∧ w₁.oldHash path = w.oldHash path ∧
      (r.isOk = true → w₁.bm25.pending = []) := by
  rcases r with e | stats
  · obtain ⟨old, hold⟩ : ∃ old, w.oldMerkle = some old := by
      obtain ⟨snapshot, hsome⟩ := Option.isSome_iff_exists.1 hsnapshot
      exact ⟨.ofSnapshot snapshot, by rw [World.oldMerkle, hsome]; rfl⟩
    have hvisits := executes_error h
    rw [hold] at hvisits
    have hkept : w₁.snapshot = w.snapshot := (visits_of_keepsSnapshot
      ((keepsSnapshot_of_refills refills_refillBeside).bind fun _ ↦
        keepsSnapshot_incrementalUpdate) hvisits).2.2
    exact ⟨hkept ▸ hsnapshot, World.oldHash_congr hkept, by simp [Except.isOk, Except.toBool]⟩
  · obtain ⟨notes, h⟩ := executes_noted.1 h
    obtain ⟨u, hsurvived, -, hw₁⟩ := executes_indexWithChangeDetectionExcluding hpending h
    obtain rfl : w₁ = _ := hw₁
    exact ⟨rfl, World.oldHash_nextSnapshot.trans (if_pos (hretry stats rfl)),
      fun _ ↦ hsurvived.pending⟩

/-- The next run looks at a path again, whose hash in the snapshot is `hash`, and writes its file:
the Merkle roots differ, the file's hash is another one, and either the filters turned against a
file the snapshot knows, or the file yields chunks and is not on record. -/
def World.Revisits (env : Env D) (w : World D) (hash : Option D) (path : PathBuf)
    (file : FileEntry) : Prop :=
  (∃ old, w.oldMerkle = some old ∧ w.RootChanged env old) ∧ some (env.sha256 file.bytes) ≠ hash ∧
    (hash.isSome ∧ env.processes path file = false ∨
      (env.chunksOf path file).isSome ∧ ¬ w.Described env path file)

/-- What a run with a snapshot rewrites of a live file. -/
theorem World.rewritten_iff_revisits {file : FileEntry} (hsnapshot : w.snapshot.isSome)
    (hfile : w.tree.lookup path = some file) :
    w.Rewritten env path ↔ w.Revisits env (w.oldHash path) path file := by
  obtain ⟨snapshot, hsome⟩ := Option.isSome_iff_exists.1 hsnapshot
  have hold : w.oldMerkle = some (.ofSnapshot snapshot) := by
    rw [oldMerkle, hsome]
    rfl
  simp [Rewritten, RewrittenSince, Revisits, hold, oldHash, newHash, hfile]

/-- **When a failed write is made good.** A run had failures, a file was in a write that failed, and
the next run — over whatever the tree has become — has none. It leaves the vector table holding the
file's chunks if and only if it already held them, or the run looks at the file again; for which the
file must not be back at the hash it had in the snapshot before the failed run. -/
theorem upToDate_iff_of_failures {tree : PathMap FileEntry} {file : FileEntry} {stats' : IndexStats}
    (hpending : w.bm25.pending = []) (hsnapshot : w.snapshot.isSome)
    (hfailed : Executes (World.mayFail env)
    (indexWithChangeDetectionExcluding env exclusion) w r w₁)
    (hretry : ∀ stats, r = .ok stats → path ∈ stats.retryFiles) (hresumes : w₁.Resumes r v)
    (hlive : tree.lookup path = some file)
    (hrun : run (World.handle env) (indexWithChangeDetectionExcluding env exclusion')
      { v with tree } = (.ok stats', w₂)) :
    w₂.UpToDate env path ↔
      World.UpToDate { v with tree } env path ∨
        World.Revisits env { v with tree } (w.oldHash path) path file := by
  obtain ⟨hsome, hhash, hpending₁⟩ := oldHash_of_failures hpending hsnapshot hfailed hretry
  have hdone := runDone_of_ok (w := { v with tree }) (hresumes.pending hpending₁) hrun
  have hsome' : World.snapshot { v with tree } |>.isSome := by
    rw [← hresumes.snapshot] at hsome
    exact hsome
  have hhash' : World.oldHash { v with tree } path = w.oldHash path :=
    (World.oldHash_congr hresumes.snapshot).trans hhash
  rw [hdone.upToDate_iff, World.rewritten_iff_revisits hsome' hlive, hhash']

namespace World

/-- The next run, on a file back at its old text. -/
def reverted (w : World ByteArray) : World ByteArray :=
  { w with tree := oneFile ["a.rs"] "fn f() {}" 5000000000 }

/-- What a run in which the rows were refused has left. -/
def refused : World ByteArray :=
  (run refusingRows (indexWithChangeDetection Env.sample) changed).2

theorem exists_run_reverted : ∃ stats,
    run (handle Env.sample) (indexWithChangeDetection Env.sample) refused.reverted =
      (.ok stats, (run (handle Env.sample) (indexWithChangeDetection Env.sample)
        refused.reverted).2) :=
  exists_run_eq_ok (by decide +kernel)

/-- **A file whose rows were refused and that is then put back has no rows at all**: its old chunks
are deleted, and the snapshot still has its old hash. -/
theorem not_upToDate_reverted : ∃ stats stats' w,
    run refusingRows (indexWithChangeDetection Env.sample) changed = (.ok stats, refused) ∧
      ["a.rs"] ∈ stats.retryFiles ∧
      run (handle Env.sample) (indexWithChangeDetection Env.sample) refused.reverted =
        (.ok stats', w) ∧
      ¬ w.UpToDate Env.sample ["a.rs"] := by
  obtain ⟨stats, hrun, hretry⟩ := exists_run_refused
  obtain ⟨stats', hrun'⟩ := exists_run_reverted
  exact ⟨stats, stats', _, hrun, by simp [hretry], hrun', by decide +kernel⟩

/-- The next run over it, told from the state it starts in. -/
theorem upToDate_iff_reverted :
    UpToDate (run (handle Env.sample) (indexWithChangeDetection Env.sample) refused.reverted).2
        Env.sample ["a.rs"] ↔
      refused.reverted.UpToDate Env.sample ["a.rs"] ∨
        refused.reverted.Revisits Env.sample (changed.oldHash ["a.rs"]) ["a.rs"]
          ⟨"fn f() {}".toUTF8, 5000000000⟩ := by
  obtain ⟨stats, hrun, hretry⟩ := exists_run_refused
  obtain ⟨stats', hrun'⟩ := exists_run_reverted
  refine upToDate_iff_of_failures (by decide +kernel) (by decide +kernel) (executes_failing hrun)
    (fun stats₁ hstats ↦ ?_) (.same rfl) lookup_oneFile hrun'
  cases hstats
  simp [hretry]

end World

end Failures

end RustCodeMcp
