import RustCodeMcp.Indexing.Convergence

/-!
# A round of background sync

A directory can have several collections of the automatic profile, as one that an older chunking
identity left behind. Each has its own vector table and BM25 index; the Merkle snapshot and the
metadata cache are those of the directory and the backend, which they share. A round runs the
incremental index on one after another, and the first run advances the snapshot for all.

So only the first collection follows the tree: a round brings every collection up to date exactly
when the others hold the chunks of the tree already (`syncDirectoryIndexes_iff`).

The collections are visited in the order in which they are listed. The first one that is visited
advances the snapshot; whatever the tree has changed since the last round is then invisible to the
rest, as both comparisons are with that snapshot (`not_rewritten_of_current`).
-/

namespace RustCodeMcp

open Effect

namespace SyncRound

/-- An existing collection of the directory. -/
structure Collection where
  /-- `is_automatic_profile_backend` -/
  automatic : Bool
  /-- `is_background_embedding_backend` -/
  background : Bool
  vectors : List Row
  bm25 : TantivyIndex

/-- What the collections of one backend share. -/
structure Shared (D : Type) where
  tree : PathMap FileEntry
  walkErrors : ℕ
  snapshot : Option (MerkleSnapshot D)
  cache : PathMap (FileMetadata D)
  nextId : ℕ

/-- Whether background sync maintains the collection. -/
def Collection.visited (c : Collection) : Bool :=
  c.automatic && c.background

variable {D : Type}

/-- What a run of the collection starts from, with a new indexer. -/
def Shared.world (shared : Shared D) (c : Collection) : World D where
  tree := shared.tree
  walkErrors := shared.walkErrors
  snapshot := shared.snapshot
  cache := shared.cache
  vectors := c.vectors
  bm25 := c.bm25
  opened := false
  nextId := shared.nextId
  readersOut := false

/-- What a run leaves for the others. -/
def sharedOf (w : World D) : Shared D :=
  ⟨w.tree, w.walkErrors, w.snapshot, w.cache, w.nextId⟩

/-- The collection after a run of its own. -/
def Collection.after (c : Collection) (w : World D) : Collection :=
  { c with vectors := w.vectors, bm25 := w.bm25 }

/-- The loop over `indexes`, with the statistics of each run; an error ends it. -/
def syncDirectoryIndexes [DecidableEq D] (env : Env D) :
    List Collection → Shared D → Except String (List Collection × Shared D × List IndexStats)
  | [], shared => .ok ([], shared, [])
  | c :: rest, shared =>
    if c.visited then
      match run (World.handle env) (indexWithChangeDetectionExcluding env .aroundPublish)
          (shared.world c) with
      | (.error e, _) => .error e
      | (.ok stats, w) =>
        (syncDirectoryIndexes env rest (sharedOf w)).map fun (done, shared, all) ↦
          (c.after w :: done, shared, stats :: all)
    else
      (syncDirectoryIndexes env rest shared).map fun (done, shared, all) ↦ (c :: done, shared, all)

/-- Every collection that is visited holds exactly the chunks of the tree. -/
def AllConverged (env : Env D) (shared : Shared D) (collections : List Collection) : Prop :=
  ∀ c ∈ collections, c.visited = true → (shared.world c).Converged env

/-- Every collection that is visited holds the chunks of the tree of the snapshot. -/
def AllTracked (env : Env D) (shared : Shared D) (collections : List Collection) : Prop :=
  ∀ c ∈ collections, c.visited = true → (shared.world c).Tracked env

/-- The first collection that is visited can follow the tree, and the others hold its chunks
already. -/
def RestConverged [DecidableEq D] (env : Env D) (shared : Shared D)
    (collections : List Collection) : Prop :=
  match collections.filter Collection.visited with
  | [] => True
  | c :: rest => (shared.world c).Follows env ∧ ∀ c' ∈ rest, (shared.world c').Converged env

/-- The snapshot is of the tree. -/
def Current (env : Env D) (shared : Shared D) : Prop :=
  shared.snapshot.isSome = true ∧
    ∀ c path, (shared.world c).oldHash path = (shared.world c).newHash env path

variable [DecidableEq D] {env : Env D} {shared : Shared D} {c : Collection}
  {collections : List Collection} {shared' : Shared D}

omit [DecidableEq D] in
theorem upToDate_congr {w w' : World D} (htree : w'.tree = w.tree) (hrows : w'.vectors = w.vectors)
    {path : PathBuf} : w'.UpToDate env path ↔ w.UpToDate env path := by
  rw [World.UpToDate, World.UpToDate, World.bodiesAt, World.bodiesAt, World.rowsAt, World.rowsAt,
    htree, hrows]

omit [DecidableEq D] in
theorem converged_congr {w w' : World D} (htree : w'.tree = w.tree)
    (hrows : w'.vectors = w.vectors) : w'.Converged env ↔ w.Converged env :=
  forall_congr' fun _ ↦ upToDate_congr htree hrows

/-- A run without failures leaves a snapshot of the tree. -/
theorem current_of_runDone {w w' : World D} {stats : IndexStats} (h : RunDone env w w' stats)
    (hclean : stats.retryFiles = []) : Current env (sharedOf w') := by
  refine ⟨h.snapshot, fun c path ↦ ?_⟩
  have hold := h.oldHash path
  rw [hclean, if_neg List.not_mem_nil] at hold
  exact hold.trans (by rw [World.newHash, World.newHash]; exact congrArg _ (congrArg _ h.tree.symm))

/-- **Under a snapshot of the tree a run rewrites nothing.** -/
theorem not_rewritten_of_current (h : Current env shared) (path : PathBuf) :
    ¬(shared.world c).Rewritten env path := by
  obtain ⟨hsome, hsame⟩ := h
  obtain ⟨snapshot, hsnapshot⟩ := Option.isSome_iff_exists.1 hsome
  have hold : (shared.world c).oldMerkle = some (FileSystemMerkle.ofSnapshot snapshot) := by
    rw [World.oldMerkle, Shared.world, hsnapshot]
    rfl
  have hpath := hsame c path
  rw [World.oldHash, hold, Option.bind_some] at hpath
  rw [World.Rewritten, hold]
  exact fun hrewritten ↦ hrewritten.2.1 hpath.symm

omit [DecidableEq D] in
theorem allConverged_congr (htree : shared'.tree = shared.tree) :
    AllConverged env shared' collections ↔ AllConverged env shared collections :=
  forall₃_congr fun _ _ _ ↦ converged_congr htree rfl

theorem ok_of_map {α β : Type} {f : α → β} {x : Except String α} {b : β} (h : x.map f = .ok b) :
    ∃ a, x = .ok a ∧ f a = b := by
  cases x with
  | error e => cases h
  | ok a => exact ⟨a, rfl, Except.ok.inj h⟩

/-- The first collection of a round: it is passed over, or it is run. -/
inductive First (env : Env D) (c : Collection) (rest : List Collection) (shared : Shared D) :
    List Collection → Shared D → List IndexStats → Prop
  | passed {done : List Collection} {shared' : Shared D} {all : List IndexStats}
      (hvisited : c.visited = false)
      (hrest : syncDirectoryIndexes env rest shared = .ok (done, shared', all)) :
      First env c rest shared (c :: done) shared' all
  | ran {done : List Collection} {shared' : Shared D} {all : List IndexStats} {stats : IndexStats}
      {w : World D} (hvisited : c.visited = true)
      (hrun : run (World.handle env) (indexWithChangeDetectionExcluding env .aroundPublish)
        (shared.world c) = (.ok stats, w))
      (hrest : syncDirectoryIndexes env rest (sharedOf w) = .ok (done, shared', all)) :
      First env c rest shared (c.after w :: done) shared' (stats :: all)

/-- A round that ends well has dealt with its first collection in one of these ways. -/
theorem first_of_ok {rest done : List Collection} {all : List IndexStats}
    (h : syncDirectoryIndexes env (c :: rest) shared = .ok (done, shared', all)) :
    First env c rest shared done shared' all := by
  rw [syncDirectoryIndexes] at h
  split at h
  · rename_i hvisited
    split at h
    · cases h
    · rename_i stats w hrun
      obtain ⟨⟨done, shared', all⟩, hrest, heq⟩ := ok_of_map h
      obtain ⟨rfl, rfl, rfl⟩ : _ ∧ _ ∧ _ := by simpa only [Prod.mk.injEq] using heq
      exact .ran hvisited hrun hrest
  · rename_i hvisited
    obtain ⟨⟨done, shared', all⟩, hrest, heq⟩ := ok_of_map h
    obtain ⟨rfl, rfl, rfl⟩ : _ ∧ _ ∧ _ := by simpa only [Prod.mk.injEq] using heq
    exact .passed (Bool.eq_false_iff.2 hvisited) hrest

omit [DecidableEq D] in
theorem allConverged_cons_of_passed {rest : List Collection} (h : c.visited = false) :
    AllConverged env shared (c :: rest) ↔ AllConverged env shared rest := by
  rw [AllConverged, List.forall_mem_cons]
  exact and_iff_right fun hvisited ↦ absurd (h.symm.trans hvisited) nofun

omit [DecidableEq D] in
theorem allConverged_cons_of_visited {rest : List Collection} (h : c.visited = true) :
    AllConverged env shared (c :: rest) ↔
      (shared.world c).Converged env ∧ AllConverged env shared rest := by
  rw [AllConverged, List.forall_mem_cons]
  exact and_congr_left fun _ ↦ ⟨fun hc ↦ hc h, fun hc _ ↦ hc⟩

/-- **Under a snapshot of the tree a round leaves every collection as it was.** -/
theorem allConverged_of_current {done : List Collection}
    {all : List IndexStats} (h : Current env shared)
    (hpending : ∀ c ∈ collections, c.visited = true → c.bm25.pending = [])
    (hok : syncDirectoryIndexes env collections shared = .ok (done, shared', all))
    (hclean : ∀ stats ∈ all, stats.retryFiles = []) :
    shared'.tree = shared.tree ∧
      (AllConverged env shared' done ↔ AllConverged env shared collections) := by
  induction collections generalizing shared done all with
  | nil =>
    obtain ⟨rfl, rfl, rfl⟩ : [] = done ∧ shared = shared' ∧ [] = all := by
      simpa [syncDirectoryIndexes] using hok
    exact ⟨rfl, .rfl⟩
  | cons c rest ih =>
    obtain ⟨hc, hpending⟩ := List.forall_mem_cons.1 hpending
    cases first_of_ok hok with
    | passed hvisited hrest =>
      obtain ⟨htree, hiff⟩ := ih h hpending hrest hclean
      rw [allConverged_cons_of_passed hvisited, allConverged_cons_of_passed hvisited]
      exact ⟨htree, hiff⟩
    | @ran done shared' all stats w hvisited hrun hrest =>
      obtain ⟨hstats, hclean⟩ := List.forall_mem_cons.1 hclean
      have hdone := runDone_of_ok (hc hvisited) hrun
      obtain ⟨htree, hiff⟩ := ih (current_of_runDone hdone hstats) hpending hrest hclean
      have hsame : w.Converged env ↔ (shared.world c).Converged env :=
        forall_congr' fun path ↦ hdone.upToDate_iff.trans
          (or_iff_left (not_rewritten_of_current h path))
      have htree' : shared'.tree = shared.tree := htree.trans hdone.tree
      have hafter : (c.after w).visited = true := hvisited
      refine ⟨htree', ?_⟩
      rw [allConverged_cons_of_visited hafter, allConverged_cons_of_visited hvisited, hiff,
        ← hsame]
      exact and_congr (converged_congr htree rfl) (allConverged_congr hdone.tree)

/-- **When a round brings every collection up to date.** Of the collections that are visited, all
holding the chunks of the tree of the snapshot, a round without failures leaves each with exactly
the chunks of the tree if and only if the first of them could follow the tree and the others held
its chunks before. -/
theorem syncDirectoryIndexes_iff (hinjective : Function.Injective env.sha256)
    (htracked : AllTracked env shared collections) {done : List Collection} {shared' : Shared D}
    {all : List IndexStats}
    (hok : syncDirectoryIndexes env collections shared = .ok (done, shared', all))
    (hclean : ∀ stats ∈ all, stats.retryFiles = []) :
    AllConverged env shared' done ↔ RestConverged env shared collections := by
  induction collections generalizing done all with
  | nil =>
    obtain ⟨rfl, rfl, rfl⟩ : [] = done ∧ shared = shared' ∧ [] = all := by
      simpa [syncDirectoryIndexes] using hok
    exact iff_of_true (fun c hc ↦ absurd hc List.not_mem_nil) trivial
  | cons c rest ih =>
    obtain ⟨hc, htracked⟩ := List.forall_mem_cons.1 htracked
    cases first_of_ok hok with
    | passed hvisited hrest =>
      rw [allConverged_cons_of_passed hvisited, ih htracked hrest hclean, RestConverged,
        RestConverged, List.filter_cons_of_neg (by rw [hvisited]; exact Bool.false_ne_true)]
    | @ran done shared' all stats w hvisited hrun hrest =>
      obtain ⟨hstats, hclean⟩ := List.forall_mem_cons.1 hclean
      have hdone := runDone_of_ok (hc hvisited).pending hrun
      obtain ⟨htree, hiff⟩ := allConverged_of_current (current_of_runDone hdone hstats)
        (fun c' hc' hvisited' ↦ (htracked c' hc' hvisited').pending) hrest hclean
      have hafter : (c.after w).visited = true := hvisited
      rw [allConverged_cons_of_visited hafter, hiff, RestConverged,
        List.filter_cons_of_pos hvisited]
      show _ ↔ (shared.world c).Follows env ∧
        ∀ c' ∈ rest.filter Collection.visited, (shared.world c').Converged env
      rw [← (hc hvisited).converged_iff hinjective hdone]
      refine and_congr (converged_congr htree rfl) ?_
      rw [allConverged_congr hdone.tree]
      simp only [AllConverged, List.mem_filter, and_imp]

/-! ### Two collections of one directory -/

/-- Nothing is indexed yet. -/
def unindexed : World ByteArray :=
  .fresh (oneFile ["a.rs"] "fn f() {}" 0)

/-- After the first run. -/
def indexed : World ByteArray :=
  (run (World.handle Env.sample) (indexWithChangeDetection Env.sample) unindexed).2

/-- The tree is edited after the first run. -/
def edited : Shared ByteArray :=
  { sharedOf indexed with tree := oneFile ["a.rs"] "fn g() {;}" 1 }

/-- A collection that the first run left. -/
def collection : Collection :=
  Collection.after ⟨true, true, [], ⟨[], []⟩⟩ indexed

theorem tracked_edited : (edited.world collection).Tracked Env.sample := by
  obtain ⟨stats, hrun⟩ := @exists_run_eq_ok _ _ _ _ _ (World.handle Env.sample)
    (indexWithChangeDetection Env.sample) unindexed (by decide +kernel)
  have hblank : unindexed.Tracked Env.sample := World.Blank.tracked ⟨rfl, rfl, rfl, rfl⟩
  have h := hblank.run Function.injective_id (runDone_of_ok rfl hrun) World.follows_fresh
  exact ⟨h.pending, h.keyed, h.unknown, h.known⟩

/-- What a round over the two says of `a.rs`. -/
def upToDate (round : Except String (List Collection × Shared ByteArray × List IndexStats)) :
    List Bool :=
  match round with
  | .error _ => []
  | .ok (done, shared, all) =>
    if all.all fun stats ↦ stats.retryFiles.isEmpty then
      (done.filter Collection.visited).map fun c ↦
        decide ((shared.world c).UpToDate Env.sample ["a.rs"])
    else []

/-- A round that says so has ended well. -/
theorem exists_of_upToDate
    {round : Except String (List Collection × Shared ByteArray × List IndexStats)} {b : Bool}
    (h : b ∈ upToDate round) : ∃ done shared all, round = .ok (done, shared, all) ∧
      (∀ stats ∈ all, stats.retryFiles = []) ∧
        ∃ c ∈ done, c.visited = true ∧
          decide ((shared.world c).UpToDate Env.sample ["a.rs"]) = b := by
  unfold upToDate at h
  split at h
  · cases h
  · rename_i done shared all
    split at h
    · rename_i hclean
      obtain ⟨c, hc, hb⟩ := List.mem_map.1 h
      obtain ⟨hc, hvisited⟩ := List.mem_filter.1 hc
      refine ⟨done, shared, all, rfl, fun stats hstats ↦ ?_, c, hc, hvisited, hb⟩
      exact List.isEmpty_iff.1 (List.all_eq_true.1 hclean stats hstats)
    · cases h

theorem allTracked_edited {collections : List Collection} (h : ∀ c ∈ collections, c = collection) :
    AllTracked Env.sample edited collections := by
  intro c hc _
  rw [h c hc]
  exact tracked_edited

theorem syncDirectoryIndexes_two : ∃ done shared all,
    syncDirectoryIndexes Env.sample [collection, collection] edited = .ok (done, shared, all) ∧
      (AllConverged Env.sample shared done ↔
        RestConverged Env.sample edited [collection, collection]) := by
  obtain ⟨done, shared, all, hok, hclean, -⟩ := @exists_of_upToDate
    (syncDirectoryIndexes Env.sample [collection, collection] edited) true (by decide +kernel)
  exact ⟨done, shared, all, hok, syncDirectoryIndexes_iff Function.injective_id
    (allTracked_edited (by simp)) hok hclean⟩

/-- **The second collection keeps the chunks of the old tree.** -/
theorem second_not_converged : Function.Injective Env.sample.sha256 ∧
    AllTracked Env.sample edited [collection, collection] ∧
      ∃ done shared all,
        syncDirectoryIndexes Env.sample [collection, collection] edited =
          .ok (done, shared, all) ∧ (∀ stats ∈ all, stats.retryFiles = []) ∧
            ¬AllConverged Env.sample shared done := by
  refine ⟨Function.injective_id, allTracked_edited (by simp), ?_⟩
  obtain ⟨done, shared, all, hok, hclean, c, hc, hvisited, hnot⟩ := @exists_of_upToDate
    (syncDirectoryIndexes Env.sample [collection, collection] edited) false (by decide +kernel)
  exact ⟨done, shared, all, hok, hclean, fun h ↦ of_decide_eq_false hnot (h c hc hvisited _)⟩

end SyncRound

end RustCodeMcp
