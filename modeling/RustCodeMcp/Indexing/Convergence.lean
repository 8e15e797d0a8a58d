import RustCodeMcp.Indexing.RunSpec
import Mathlib.Logic.Relation

/-!
# Runs of an index over a changing tree

The life of an index is a sequence of events: the tree is edited, a new indexer takes over, a run
completes. `Tracked` is what holds of the state between two events as long as every run follows the
tree: the rows of a path are those of the bytes the snapshot has on record for it. From it a run can
tell exactly what it has to do, so that whether the run catches up with the tree can be read off the
state it starts from (`Follows`).

**Tracking is not convergence.** A tracked state can be far behind the tree; it only lets a run see
where it is behind. The events that break it are an edit that the stat does not show, and a file
that has lost all its chunks: the second leaves rows that no later comparison notices
(`not_converged_emptied`).
-/

namespace RustCodeMcp

open Effect

variable {D : Type} [DecidableEq D] {env : Env D}

namespace World

variable (env)

/-- The vector table holds of every path what it should, and nothing else. -/
def Converged (w : World D) : Prop :=
  ∀ path, w.UpToDate env path

/-- **The states from which a run catches up with the tree.** Every path whose hash is not the one
in the snapshot already holds its chunks, or is one the run rewrites: the two Merkle roots differ,
and the file is gone, or it is known to the snapshot and the filters turned against it, or it yields
chunks and the metadata cache has neither its stat nor its hash on record. -/
def Follows (w : World D) : Prop :=
  ∀ path, w.newHash env path ≠ w.oldHash path → w.UpToDate env path ∨ w.Rewritten env path

/-- Nothing is stored yet. -/
structure Blank (w : World D) : Prop where
  snapshot : w.snapshot = none
  cache : w.cache = ∅
  vectors : w.vectors = []
  bm25 : w.bm25 = ⟨[], []⟩

/-- An edit of the tree: a file that changes also changes its stat. -/
def Edits (tree tree' : PathMap FileEntry) : Prop :=
  ∀ path file file', tree.lookup path = some file → tree'.lookup path = some file' →
    file.bytes ≠ file'.bytes → file.metadata.stat ≠ file'.metadata.stat

/-- What happens to an index: `Good` restricts the states in which a run may start. -/
inductive Event (env : Env D) (Good : World D → Prop) (w : World D) : World D → Prop
  /-- The tree is edited. -/
  | edit (tree : PathMap FileEntry) (h : Edits w.tree tree) : Event env Good w { w with tree }
  /-- A new indexer takes over. -/
  | reopen : Event env Good w { w with opened := false }
  /-- A run completes. -/
  | run {w' : World D} {stats : IndexStats} (exclusion : ReaderExclusion) (hgood : Good w)
      (h : Effect.run (World.handle env) (indexWithChangeDetectionExcluding env exclusion) w =
        (.ok stats, w')) : Event env Good w w'

/-- The states an index can come to, from nothing. -/
def Reached (env : Env D) (Good : World D → Prop) (w : World D) : Prop :=
  ∃ start : World D, start.Blank ∧ Relation.ReflTransGen (Event env Good) start w

/-- What the snapshot and the rows of a path have to do with each other. -/
structure Tracked (w : World D) : Prop where
  pending : w.bm25.pending = []
  keyed : w.RowsKeyed
  unknown : ∀ path, w.oldHash path = none → w.bodiesAt path = []
  known : ∀ path hash, w.oldHash path = some hash →
    ∃ file : FileEntry, env.sha256 file.bytes = hash ∧
      w.bodiesAt path = env.expected path (some file)

variable {env} {w w' : World D} {path : PathBuf}

omit [DecidableEq D] in
theorem Blank.tracked (h : w.Blank) : w.Tracked env where
  pending := by rw [h.bm25]
  keyed := by simp [RowsKeyed, h.vectors]
  unknown := by simp [bodiesAt, rowsAt, h.vectors]
  known := by simp [oldHash, oldMerkle, h.snapshot]

omit [DecidableEq D] in
/-- A path whose hash is the one in the snapshot is up to date. -/
theorem Tracked.upToDate (hinjective : Function.Injective env.sha256) (h : w.Tracked env)
    (hhash : w.newHash env path = w.oldHash path) : w.UpToDate env path := by
  rcases hfile : w.tree.lookup path with - | file
  · rw [UpToDate, hfile, h.unknown path (by rw [← hhash, newHash, hfile]; rfl), Env.expected_none]
  · obtain ⟨old, hold, hbodies⟩ := h.known path (env.sha256 file.bytes)
      (by rw [← hhash, newHash, hfile]; rfl)
    rw [UpToDate, hfile, hbodies, Env.expected_some, Env.expected_some,
      Env.chunksOf_congr (hinjective hold)]

/-- **A run from a tracked state catches up with the tree exactly if it can follow it.** -/
theorem Tracked.converged_iff (hinjective : Function.Injective env.sha256) (h : w.Tracked env)
    {stats : IndexStats} (hdone : RunDone env w w' stats) :
    w'.Converged env ↔ w.Follows env := by
  refine ⟨fun hconverged path _ ↦ hdone.upToDate_iff.1 (hconverged path), fun hfollows path ↦ ?_⟩
  refine hdone.upToDate_iff.2 ?_
  by_cases hhash : w.newHash env path = w.oldHash path
  · exact Or.inl (h.upToDate hinjective hhash)
  · exact hfollows path hhash

/-- A run that follows the tree leaves a tracked state. -/
theorem Tracked.run (hinjective : Function.Injective env.sha256) (h : w.Tracked env)
    {stats : IndexStats} (hdone : RunDone env w w' stats) (hfollows : w.Follows env) :
    w'.Tracked env := by
  have hconverged := (h.converged_iff hinjective hdone).2 hfollows
  -- A path to retry keeps its hash and its rows; any other has the hash and the rows of its file.
  have hretry : ∀ path ∈ stats.retryFiles,
      w'.oldHash path = w.oldHash path ∧ w'.bodiesAt path = w.bodiesAt path := fun path hpath ↦
    ⟨(hdone.oldHash path).trans (if_pos hpath),
      bodiesAt_eq_of_entry (hdone.rowsAt_of_not_rewritten (hdone.not_rewritten_of_retry hpath))⟩
  refine ⟨hdone.pending, hdone.rowsKeyed h.keyed, fun path hold ↦ ?_, fun path hash hold ↦ ?_⟩
  · by_cases hpath : path ∈ stats.retryFiles
    · obtain ⟨hhash, hbodies⟩ := hretry path hpath
      rw [hbodies, h.unknown path (hhash ▸ hold)]
    · rw [hdone.oldHash, if_neg hpath, newHash, Option.map_eq_none_iff] at hold
      have hup := hconverged path
      rwa [UpToDate, hdone.tree, hold, Env.expected_none] at hup
  · by_cases hpath : path ∈ stats.retryFiles
    · obtain ⟨hhash, hbodies⟩ := hretry path hpath
      rw [hbodies]
      exact h.known path hash (hhash ▸ hold)
    · rw [hdone.oldHash, if_neg hpath, newHash] at hold
      obtain ⟨file, hfile, hsha⟩ := Option.map_eq_some_iff.1 hold
      have hup := hconverged path
      rw [UpToDate, hdone.tree, hfile] at hup
      exact ⟨file, hsha, hup⟩

/-- **Between two events the state is tracked**, if every run could follow the tree. -/
theorem Reached.tracked (hinjective : Function.Injective env.sha256)
    (h : w.Reached env (Follows env)) : w.Tracked env := by
  obtain ⟨start, hblank, hevents⟩ := h
  induction hevents with
  | refl => exact hblank.tracked
  | tail _ hevent ih =>
    cases hevent with
    | edit tree _ => exact ⟨ih.pending, ih.keyed, ih.unknown, ih.known⟩
    | reopen => exact ⟨ih.pending, ih.keyed, ih.unknown, ih.known⟩
    | run exclusion hfollows hrun =>
      exact ih.run hinjective (runDone_of_ok ih.pending hrun) hfollows

end World

/-- **When an index converges.** In any state that edits and runs lead to from an empty index, each
run started where it could follow the tree, the next run completes, whoever keeps the readers out,
and it leaves the vector table holding exactly the chunks of the tree if and only if it too could
follow it. -/
theorem converged_iff_follows (hinjective : Function.Injective env.sha256) {w : World D}
    (h : w.Reached env (World.Follows env)) (exclusion : ReaderExclusion) :
    ∃ stats w', run (World.handle env) (indexWithChangeDetectionExcluding env exclusion) w =
        (.ok stats, w') ∧
      (w'.Converged env ↔ w.Follows env) := by
  have htracked := h.tracked hinjective
  obtain ⟨stats, w', hrun, hdone⟩ := @run_indexWithChangeDetectionExcluding _ _ env w exclusion
    htracked.pending fun _ ↦ htracked.keyed
  exact ⟨stats, w', hrun, htracked.converged_iff hinjective hdone⟩

namespace World

/-- A file has been indexed and then edited. -/
def edited (text : String) : World ByteArray :=
  { (run (handle Env.sample) (indexWithChangeDetection Env.sample)
      (.fresh (oneFile ["a.rs"] "fn f() {}" 0))).2 with
    tree := oneFile ["a.rs"] text 0 }

/-- An edit to another length is one the stat shows. -/
theorem reached_edited {Good : World ByteArray → Prop} {text : String}
    (hgood : Good (.fresh (oneFile ["a.rs"] "fn f() {}" 0)))
    (hsize : "fn f() {}".toUTF8.size ≠ text.toUTF8.size) :
    (edited text).Reached Env.sample Good := by
  obtain ⟨stats, hrun⟩ := @exists_run_eq_ok _ _ _ _ _ (handle Env.sample)
    (indexWithChangeDetection Env.sample) (.fresh (oneFile ["a.rs"] "fn f() {}" 0))
    (by decide +kernel)
  refine ⟨.fresh (oneFile ["a.rs"] "fn f() {}" 0), ⟨rfl, rfl, rfl, rfl⟩, ?_⟩
  refine (Relation.ReflTransGen.single (.run .heldByCaller hgood hrun)).tail (.edit _ ?_)
  intro path file file' hfile hfile' _ hstat
  rw [(runDone_of_ok rfl hrun).tree] at hfile
  by_cases hpath : path = ["a.rs"]
  · subst hpath
    rw [fresh, lookup_oneFile, Option.some.injEq] at hfile
    rw [lookup_oneFile, Option.some.injEq] at hfile'
    subst hfile hfile'
    exact hsize (congrArg FileStat.size hstat)
  · rw [lookup_oneFile_of_ne hpath] at hfile'
    cases hfile'

/-- A first run over a file of code can follow it. -/
theorem follows_fresh : (fresh (oneFile ["a.rs"] "fn f() {}" 0)).Follows Env.sample := by
  intro path hhash
  by_cases hpath : path = ["a.rs"]
  · subst hpath
    have hpass : (fresh (oneFile ["a.rs"] "fn f() {}" 0)).RewrittenByPass Env.sample ["a.rs"] := by
      rw [RewrittenByPass, fresh, lookup_oneFile]
      exact ⟨by decide +kernel, by decide +kernel⟩
    exact .inr hpass
  · refine absurd ?_ hhash
    rw [newHash, fresh, lookup_oneFile_of_ne hpath]
    rfl

/-- The run after an edit. -/
theorem converged_iff_follows_edited : ∃ stats w',
    run (handle Env.sample) (indexWithChangeDetectionExcluding Env.sample .aroundPublish)
      (edited "fn g() { }") = (.ok stats, w') ∧
    (w'.Converged Env.sample ↔ (edited "fn g() { }").Follows Env.sample) :=
  converged_iff_follows Function.injective_id (reached_edited follows_fresh (by decide))
    .aroundPublish

/-- A file has been indexed and then emptied. -/
def emptied : World ByteArray := edited ""

/-- **A file that lost all its chunks keeps them in the store**: the preparation that would replace
them by none ends with an error instead. -/
theorem not_converged_emptied : Function.Injective Env.sample.sha256 ∧
    ¬ ∀ w : World ByteArray, w.Reached Env.sample (fun _ ↦ True) →
      ∀ exclusion stats w', run (handle Env.sample)
        (indexWithChangeDetectionExcluding Env.sample exclusion) w = (.ok stats, w') →
        w'.Converged Env.sample := by
  refine ⟨Function.injective_id, fun h ↦ ?_⟩
  obtain ⟨stats, hrun⟩ := @exists_run_eq_ok _ _ _ _ _ (handle Env.sample)
    (indexWithChangeDetection Env.sample) emptied (by decide +kernel)
  have hup : ¬ UpToDate (run (handle Env.sample)
    (indexWithChangeDetection Env.sample) emptied).2 Env.sample ["a.rs"] := by decide +kernel
  exact hup (h emptied (reached_edited trivial (by decide)) .heldByCaller stats _ hrun ["a.rs"])

-- Nor is a rename noticed that keeps the order of the files: the Merkle root is over hashes alone.
example : ¬ UpToDate (run (handle Env.sample) (indexWithChangeDetection Env.sample)
    { (run (handle Env.sample) (indexWithChangeDetection Env.sample)
        (fresh (oneFile ["a.rs"] "fn f() {}" 0))).2 with
      tree := oneFile ["b.rs"] "fn f() {}" 0 }).2 Env.sample ["b.rs"] := by decide +kernel

end World

end RustCodeMcp
