import Mathlib.Algebra.BigOperators.Group.Finset.Basic
import Mathlib.Algebra.GroupWithZero.Nat
import Mathlib.Algebra.Order.BigOperators.Group.Finset
import RustCodeMcp.Digraph.PostOrder

/-!
# Priming in batches

The caches of a workspace are warmed a batch of crates at a time, and syntax trees are evicted after
each batch. A batch is a stretch of the topological order, so what its crates depend on is primed
before or with it, and at no time is more parsed and not evicted than a batch may weigh, unless it
is the files of one source root (`primeInBatches_spec`).

What matters about a batch is how much is parsed at a time, and that is told by the source roots of
its crates: two crates of one root are parsed once. The loop therefore keeps the roots of the open
batch, and closes it before a crate whose root would not fit. **A root of any size is let in
alone**, since it has to be parsed at some time.
-/

namespace RustCodeMcp.Priming

/-- What the database tells of a crate: its source root, and how many files that has. -/
structure RootDatabase (K R : Type) where
  sourceRoot : K → R
  rootFiles : R → ℕ

/-- The loop that cuts batches. -/
structure Cutting (K R : Type) where
  batches : List (List K)
  batch : List K
  rootsInBatch : Finset R
  filesInBatch : ℕ

/-- What the database is asked for. -/
inductive Event (K : Type)
  /-- `parallel_prime_caches` -/
  | prime (crates : List K)
  /-- `trigger_lru_eviction` -/
  | evict
  deriving DecidableEq

variable {K R : Type}

/-- No batch is open. -/
def Cutting.start : Cutting K R :=
  ⟨[], [], ∅, 0⟩

/-- The batch that is open, with the ones that are closed. -/
def Cutting.finish (s : Cutting K R) : List (List K) :=
  if s.batch ≠ [] then s.batches ++ [s.batch] else s.batches

namespace RootDatabase

variable [DecidableEq R] (db : RootDatabase K R)

/-- The files that a crate adds to a batch: a root counts once. -/
def filesOf (roots : Finset R) (krate : K) : ℕ :=
  if db.sourceRoot krate ∈ roots then 0 else db.rootFiles (db.sourceRoot krate)

/-- The open batch is closed before the next crate. -/
def close (batchFiles files : ℕ) (s : Cutting K R) : Cutting K R :=
  if 0 < files ∧ s.batch ≠ [] ∧ batchFiles < s.filesInBatch + files then
    ⟨s.batches ++ [s.batch], [], ∅, 0⟩
  else s

/-- One crate: it joins the open batch, or begins the next. -/
def cut (batchFiles : ℕ) (s : Cutting K R) (krate : K) : Cutting K R :=
  let files := db.filesOf s.rootsInBatch krate
  let s := close batchFiles files s
  ⟨s.batches, s.batch ++ [krate], insert (db.sourceRoot krate) s.rootsInBatch,
    s.filesInBatch + files⟩

/-- The batches of a list of crates. -/
def primeBatches (all : List K) (batchFiles : ℕ) : List (List K) :=
  (all.foldl (db.cut batchFiles) .start).finish

/-- Each batch is primed, and its syntax trees evicted. -/
def primeInBatches (all : List K) (batchFiles : ℕ) : List (Event K) :=
  if batchFiles = 0 then [.prime all]
  else (db.primeBatches all batchFiles).flatMap fun batch ↦ [.prime batch, .evict]

/-! ### What a batch weighs -/

/-- The source roots of a batch. -/
def roots (batch : List K) : Finset R :=
  (batch.map db.sourceRoot).toFinset

/-- The files of some source roots. -/
def files (roots : Finset R) : ℕ :=
  ∑ root ∈ roots, db.rootFiles root

/-- Some source roots weigh no more than a batch may, or only one of them has files. -/
def Fits (batchFiles : ℕ) (roots : Finset R) : Prop :=
  db.files roots ≤ batchFiles ∨ ∃ root, ∀ other ∈ roots, other ≠ root → db.rootFiles other = 0

/-- The first crate of a batch does not fit into the batch before. -/
def Full (batchFiles : ℕ) (batch next : List K) : Prop :=
  ∀ krate ∈ next.head?, db.sourceRoot krate ∉ db.roots batch ∧
    batchFiles < db.files (db.roots batch) + db.rootFiles (db.sourceRoot krate)

variable {db} {batchFiles : ℕ} {s : Cutting K R} {done all batch : List K} {k : K} {root : R}
  {rs : Finset R}

theorem roots_concat (batch : List K) (k : K) :
    db.roots (batch ++ [k]) = insert (db.sourceRoot k) (db.roots batch) := by
  ext root
  simp [roots]

theorem files_insert (h : root ∉ rs) :
    db.files (insert root rs) = db.rootFiles root + db.files rs :=
  Finset.sum_insert h

omit [DecidableEq R] in
theorem fits_empty : db.Fits batchFiles ∅ :=
  .inl (Nat.zero_le _)

omit [DecidableEq R] in
theorem fits_singleton (root : R) : db.Fits batchFiles {root} :=
  .inr ⟨root, fun _ hother hne ↦ absurd (Finset.mem_singleton.1 hother) hne⟩

/-- A root without files changes nothing. -/
theorem Fits.insert (h : db.Fits batchFiles rs) (hzero : root ∉ rs → db.rootFiles root = 0) :
    db.Fits batchFiles (insert root rs) := by
  by_cases hmem : root ∈ rs
  · rwa [Finset.insert_eq_of_mem hmem]
  · rcases h with h | ⟨only, honly⟩
    · refine .inl ?_
      rw [files_insert hmem, hzero hmem]
      omega
    · refine .inr ⟨only, fun other hother hne ↦ ?_⟩
      rcases Finset.mem_insert.1 hother with rfl | hother
      · exact hzero hmem
      · exact honly other hother hne

/-! ### The cut -/

/-- How far the loop has come. -/
structure Cuts (db : RootDatabase K R) (batchFiles : ℕ) (done : List K) (s : Cutting K R) :
    Prop where
  flatten : s.finish.flatten = done
  ne_nil : ∀ batch ∈ s.finish, batch ≠ []
  first : s.batch = [] → s.batches = []
  rootsInBatch : s.rootsInBatch = db.roots s.batch
  filesInBatch : s.filesInBatch = db.files s.rootsInBatch
  fits : ∀ batch ∈ s.finish, db.Fits batchFiles (db.roots batch)
  full : s.finish.IsChain (db.Full batchFiles)

omit [DecidableEq R] in
theorem finish_of_ne_nil (h : s.batch ≠ []) : s.finish = s.batches ++ [s.batch] :=
  if_pos h

theorem cuts_start : Cuts db batchFiles [] .start where
  flatten := rfl
  ne_nil := by simp [Cutting.finish, Cutting.start]
  first _ := rfl
  rootsInBatch := rfl
  filesInBatch := rfl
  fits := by simp [Cutting.finish, Cutting.start]
  full := List.IsChain.nil

/-- The batch is closed, and the crate begins the next. -/
theorem Cuts.close (h : Cuts db batchFiles done s) (hbatch : s.batch ≠ [])
    (hroot : db.sourceRoot k ∉ s.rootsInBatch)
    (hlt : batchFiles < s.filesInBatch + db.rootFiles (db.sourceRoot k)) :
    Cuts db batchFiles (done ++ [k]) ⟨s.batches ++ [s.batch], [k], {db.sourceRoot k},
      db.rootFiles (db.sourceRoot k)⟩ := by
  have hfinish := finish_of_ne_nil hbatch
  have hnext : (⟨s.batches ++ [s.batch], [k], {db.sourceRoot k},
      db.rootFiles (db.sourceRoot k)⟩ : Cutting K R).finish = s.finish ++ [[k]] := by
    rw [hfinish]
    rfl
  refine ⟨?_, ?_, fun hnil ↦ absurd hnil (List.cons_ne_nil _ _), ?_, ?_, ?_, ?_⟩
  · rw [hnext, List.flatten_append, h.flatten]
    rfl
  · rw [hnext]
    intro batch hmem
    rcases List.mem_append.1 hmem with hmem | hmem
    · exact h.ne_nil batch hmem
    · rw [List.mem_singleton.1 hmem]
      exact List.cons_ne_nil _ _
  · ext root
    simp [roots]
  · exact (Finset.sum_singleton _ _).symm
  · rw [hnext]
    intro batch hmem
    rcases List.mem_append.1 hmem with hmem | hmem
    · exact h.fits batch hmem
    · rw [List.mem_singleton.1 hmem]
      exact fits_singleton _
  · rw [hnext]
    refine List.isChain_append.2 ⟨h.full, List.isChain_singleton _, ?_⟩
    rintro last hlast next hhead krate hkrate
    obtain rfl : s.batch = last := by simpa [hfinish] using hlast
    obtain rfl : [k] = next := by simpa using hhead
    obtain rfl : k = krate := by simpa using hkrate
    rw [← h.rootsInBatch, ← h.filesInBatch]
    exact ⟨hroot, hlt⟩

/-- The crate joins the batch. -/
theorem Cuts.join (h : Cuts db batchFiles done s)
    (hfits : db.Fits batchFiles (insert (db.sourceRoot k) s.rootsInBatch)) :
    Cuts db batchFiles (done ++ [k]) ⟨s.batches, s.batch ++ [k],
      insert (db.sourceRoot k) s.rootsInBatch,
      s.filesInBatch + db.filesOf s.rootsInBatch k⟩ := by
  have hnext : (⟨s.batches, s.batch ++ [k], insert (db.sourceRoot k) s.rootsInBatch,
      s.filesInBatch + db.filesOf s.rootsInBatch k⟩ : Cutting K R).finish =
        s.batches ++ [s.batch ++ [k]] :=
    finish_of_ne_nil (by simp)
  -- The count goes up by the crate's files unless its root is counted already.
  have hfiles : s.filesInBatch + db.filesOf s.rootsInBatch k =
      db.files (insert (db.sourceRoot k) s.rootsInBatch) := by
    rw [h.filesInBatch, filesOf]
    split_ifs with hmem
    · rw [Finset.insert_eq_of_mem hmem, Nat.add_zero]
    · rw [files_insert hmem, Nat.add_comm]
  have hbatches : ∀ batch ∈ s.batches, batch ∈ s.finish := by
    intro batch hmem
    rw [Cutting.finish]
    split_ifs
    · exact List.mem_append_left _ hmem
    · exact hmem
  refine ⟨?_, ?_, by simp, ?_, hfiles, ?_, ?_⟩
  · rw [hnext, ← h.flatten]
    by_cases hnil : s.batch = []
    · simp [Cutting.finish, hnil, h.first hnil]
    · simp [finish_of_ne_nil hnil]
  · rw [hnext]
    intro batch hmem
    rcases List.mem_append.1 hmem with hmem | hmem
    · exact h.ne_nil batch (hbatches batch hmem)
    · rw [List.mem_singleton.1 hmem]
      simp
  · show insert (db.sourceRoot k) s.rootsInBatch = _
    rw [h.rootsInBatch, roots_concat]
  · rw [hnext]
    intro batch hmem
    rcases List.mem_append.1 hmem with hmem | hmem
    · exact h.fits batch (hbatches batch hmem)
    · rw [List.mem_singleton.1 hmem, roots_concat, ← h.rootsInBatch]
      exact hfits
  · rw [hnext]
    by_cases hnil : s.batch = []
    · rw [h.first hnil]
      exact List.isChain_singleton _
    · have hfull := h.full
      rw [finish_of_ne_nil hnil] at hfull
      -- The open batch begins with the same crate as before, so why it was begun still holds.
      obtain ⟨hchain, -, hlast⟩ := List.isChain_append.1 hfull
      refine List.isChain_append.2 ⟨hchain, List.isChain_singleton _, ?_⟩
      rintro last hmem next hhead krate hkrate
      obtain rfl : s.batch ++ [k] = next := by simpa using hhead
      rw [List.head?_append_of_ne_nil _ hnil] at hkrate
      exact hlast last hmem s.batch (by simp) krate hkrate

/-- **What one crate does to the batches.** -/
theorem Cuts.cut (h : Cuts db batchFiles done s) (k : K) :
    Cuts db batchFiles (done ++ [k]) (db.cut batchFiles s k) := by
  have hfiles : 0 < db.filesOf s.rootsInBatch k → db.sourceRoot k ∉ s.rootsInBatch ∧
      db.filesOf s.rootsInBatch k = db.rootFiles (db.sourceRoot k) := by
    intro hpos
    rw [filesOf] at hpos ⊢
    split_ifs at hpos ⊢ with hmem
    · exact absurd hpos (lt_irrefl 0)
    · exact ⟨hmem, rfl⟩
  by_cases hclose : 0 < db.filesOf s.rootsInBatch k ∧ s.batch ≠ [] ∧
      batchFiles < s.filesInBatch + db.filesOf s.rootsInBatch k
  · obtain ⟨hroot, heq⟩ := hfiles hclose.1
    have hcut : db.cut batchFiles s k = ⟨s.batches ++ [s.batch], [k], {db.sourceRoot k},
        db.rootFiles (db.sourceRoot k)⟩ := by
      rw [RootDatabase.cut, RootDatabase.close, if_pos hclose, heq]
      simp
    rw [hcut]
    exact h.close hclose.2.1 hroot (heq ▸ hclose.2.2)
  · have hcut : db.cut batchFiles s k = ⟨s.batches, s.batch ++ [k],
        insert (db.sourceRoot k) s.rootsInBatch,
        s.filesInBatch + db.filesOf s.rootsInBatch k⟩ := by
      rw [RootDatabase.cut, RootDatabase.close, if_neg hclose]
    rw [hcut]
    refine h.join ?_
    by_cases hpos : 0 < db.filesOf s.rootsInBatch k
    · obtain ⟨hroot, heq⟩ := hfiles hpos
      by_cases hnil : s.batch = []
      · rw [h.rootsInBatch, hnil]
        exact fits_singleton _
      · refine .inl ?_
        rw [files_insert hroot, ← h.filesInBatch, ← heq]
        have hle : ¬batchFiles < s.filesInBatch + db.filesOf s.rootsInBatch k := fun hlt ↦
          hclose ⟨hpos, hnil, hlt⟩
        omega
    · have hfits : db.Fits batchFiles s.rootsInBatch := by
        by_cases hnil : s.batch = []
        · rw [h.rootsInBatch, hnil]
          exact fits_empty
        · rw [h.rootsInBatch]
          exact h.fits s.batch (finish_of_ne_nil hnil ▸ List.mem_append_right _ (by simp))
      refine hfits.insert fun hmem ↦ ?_
      rw [filesOf, if_neg hmem] at hpos
      omega

/-- The loop has come as far as the list. -/
theorem cuts_foldl (all : List K) :
    Cuts db batchFiles all (all.foldl (db.cut batchFiles) .start) := by
  induction all using List.reverseRecOn with
  | nil => exact cuts_start
  | append_singleton all k ih =>
    rw [List.foldl_append]
    exact ih.cut k

/-! ### The events -/

/-- The crates that are primed. -/
def primed : List (Event K) → List K
  | [] => []
  | .prime crates :: events => crates ++ primed events
  | .evict :: events => primed events

/-- The source roots that are parsed and not evicted. -/
def parsed (db : RootDatabase K R) (events : List (Event K)) : Finset R :=
  events.foldl (fun roots event ↦
    match event with
    | .prime crates => roots ∪ db.roots crates
    | .evict => ∅) ∅

/-- The batches that were primed. -/
def batchesOf : List (Event K) → List (List K)
  | [] => []
  | .prime crates :: events => crates :: batchesOf events
  | .evict :: events => batchesOf events

variable {batches : List (List K)} {events : List (Event K)}

theorem primed_append (events events' : List (Event K)) :
    primed (events ++ events') = primed events ++ primed events' := by
  induction events with
  | nil => rfl
  | cons event events ih => cases event <;> simp [primed, ih]

theorem primed_flatMap (batches : List (List K)) :
    primed (batches.flatMap fun batch ↦ [.prime batch, .evict]) = batches.flatten := by
  induction batches with
  | nil => rfl
  | cons batch batches ih =>
    rw [List.flatMap_cons, primed_append, ih, List.flatten_cons]
    simp [primed]

theorem batchesOf_flatMap (batches : List (List K)) :
    batchesOf (batches.flatMap fun batch ↦ [Event.prime batch, .evict]) = batches := by
  induction batches with
  | nil => rfl
  | cons batch batches ih => exact congrArg (batch :: ·) ih

/-- Priming parses the roots of the batch. -/
theorem parsed_concat_prime (events : List (Event K)) (crates : List K) :
    db.parsed (events ++ [.prime crates]) = db.parsed events ∪ db.roots crates := by
  rw [parsed, List.foldl_append]
  rfl

theorem parsed_concat_evict (events : List (Event K)) : db.parsed (events ++ [.evict]) = ∅ := by
  rw [parsed, List.foldl_append]
  rfl

/-- Between two batches nothing is. -/
theorem parsed_flatMap (db : RootDatabase K R) (batches : List (List K)) :
    db.parsed (batches.flatMap fun batch ↦ [.prime batch, .evict]) = ∅ := by
  rcases List.eq_nil_or_concat batches with rfl | ⟨init, last, rfl⟩
  · rfl
  · rw [List.concat_eq_append, List.flatMap_append, List.flatMap_singleton]
    exact (congrArg db.parsed (List.append_assoc _ [.prime last] [.evict])).symm.trans
      (parsed_concat_evict _)

/-- At any time the roots of one batch are parsed, or none. -/
theorem parsed_of_isPrefix (db : RootDatabase K R)
    (h : events <+: batches.flatMap fun batch ↦ [.prime batch, .evict]) :
    db.parsed events = ∅ ∨ ∃ batch ∈ batches, db.parsed events = db.roots batch := by
  induction batches using List.reverseRecOn with
  | nil =>
    rw [List.prefix_nil.1 h]
    exact .inl rfl
  | append_singleton batches batch ih =>
    have hsplit : ((batches ++ [batch]).flatMap fun batch ↦ [Event.prime batch, .evict]) =
        (batches.flatMap fun batch ↦ [.prime batch, .evict]) ++ [.prime batch] ++ [.evict] := by
      rw [List.flatMap_append, List.flatMap_singleton, List.append_assoc]
      rfl
    rw [hsplit] at h
    rcases List.prefix_concat_iff.1 h with rfl | h
    · exact .inl (parsed_concat_evict _)
    rcases List.prefix_concat_iff.1 h with rfl | h
    · refine .inr ⟨batch, by simp, ?_⟩
      rw [parsed_concat_prime, parsed_flatMap, Finset.empty_union]
    · refine (ih h).imp_right ?_
      rintro ⟨batch, hmem, heq⟩
      exact ⟨batch, List.mem_append_left _ hmem, heq⟩

/-- A priming that leaves out nothing, primes what a crate depends on no later than the crate, and
never holds more syntax trees than a batch may have. -/
structure Primes (db : RootDatabase K R) (dependencies : K → List K) (all : List K)
    (batchFiles : ℕ) (events : List (Event K)) : Prop where
  primed : primed events = all
  dependencies : PostOrder.Ordered dependencies all → ∀ before batch after,
    events = before ++ .prime batch :: after → ∀ k ∈ batch, ∀ d ∈ dependencies k,
      d ∈ RootDatabase.primed before ++ batch
  parsed : batchFiles ≠ 0 → ∀ before, before <+: events → db.Fits batchFiles (db.parsed before)
  full : (batchesOf events).IsChain (db.Full batchFiles)

/-- A crate's dependencies are primed with it or before. -/
theorem mem_of_primed (h : primed events = all) {dependencies : K → List K}
    (hordered : PostOrder.Ordered dependencies all) {before after : List (Event K)}
    (heq : events = before ++ .prime batch :: after) {d : K} (hk : k ∈ batch)
    (hd : d ∈ dependencies k) : d ∈ primed before ++ batch := by
  obtain ⟨first, last, rfl⟩ := List.append_of_mem hk
  by_cases hdk : d = k
  · rw [hdk]
    exact List.mem_append_right _ (by simp)
  · have hall : all = (primed before ++ first) ++ k :: (last ++ primed after) := by
      rw [← h, heq, primed_append]
      simp [primed]
    rcases List.mem_append.1 (hordered _ k _ hall d ⟨hd, hdk⟩) with hmem | hmem
    · exact List.mem_append_left _ hmem
    · exact List.mem_append_right _ (List.mem_append_left _ hmem)

/-- **Priming.** Every crate is primed once, in the order of the crate graph, and no later than what
depends on it; what is parsed at a time fits into a batch; and a batch is only closed before a crate
that it cannot take. -/
theorem primeInBatches_spec (db : RootDatabase K R) (dependencies : K → List K) (all : List K)
    (batchFiles : ℕ) :
    db.Primes dependencies all batchFiles (db.primeInBatches all batchFiles) := by
  have hcuts : Cuts db batchFiles all (all.foldl (db.cut batchFiles) .start) := cuts_foldl all
  have hprimed : primed (db.primeInBatches all batchFiles) = all := by
    rw [primeInBatches]
    split_ifs
    · exact List.append_nil _
    · exact (primed_flatMap _).trans hcuts.flatten
  refine ⟨hprimed, fun hordered before batch after heq k hk d hd ↦
    mem_of_primed hprimed hordered heq hk hd, fun hpos events hevents ↦ ?_, ?_⟩
  · rw [primeInBatches, if_neg hpos] at hevents
    rcases parsed_of_isPrefix db hevents with hempty | ⟨batch, hbatch, heq⟩
    · rw [hempty]
      exact fits_empty
    · rw [heq]
      exact hcuts.fits batch hbatch
  · rw [primeInBatches]
    split_ifs
    · exact List.isChain_singleton _
    · rw [batchesOf_flatMap]
      exact hcuts.full

/-- The root `n` has `n ^ 2` files, and is shared by `n` and `10 + n`. -/
example : (⟨fun k ↦ k % 10, fun root ↦ root ^ 2⟩ : RootDatabase ℕ ℕ).primeInBatches
    [1, 2, 12, 3, 13, 4] 5 = [.prime [1, 2, 12], .evict, .prime [3, 13], .evict, .prime [4],
      .evict] := by
  decide

end RootDatabase

end RustCodeMcp.Priming
