import RustCodeMcp.Graph.Walks

/-!
# A published snapshot describes one tree

The version in question is the one that the first walk ended with. A stamp that the walk took and
that does not hold any more never holds again, so a walk that starts later cannot find it: if
everything between two walks was read while all stamps held, it was read of that version, and if
something was not, the walks differ.

A link may have led elsewhere when it was looked at than in that version (`Off`). Then it leads
there as long as all stamps hold, since the edits leave it alone otherwise, and so the walk after
the hashing finds it changed or leaves behind a stamp that is lost (`BuildState.Inv.validate`).

**A stamp is lost for good**, because a change stamps a node with a time that none had before; so it
is enough to find all stamps in place once, at the end, to know that they were in place all the
time, and nothing has to be said about the moments at which the build did not look. That is what
makes a comparison of two walks, each of which takes its time, say something about one version.
-/

namespace RustCodeMcp.Graph

open FileTree

variable {Content V : Type} {root graphOutput : Path}

/-! ### The walk of stamps -/

section Stamping

variable {tree tree' : FileTree String Content} {stamps : Stamps}
    {tasks instead : List Task} {task : Task}
  {taken : Stamps} {p q : Path} {type : FileType}

/-- What the walk of stamps takes: files and directories that count, with their stamps. -/
theorem look_stampsWalk {value : Option Stamp}
    (h : (stampsWalk root graphOutput).look tree p type = .ok value) :
    value = none ∧ type ≠ .dir ∧ isFingerprinted p = false ∨
      (type = .dir ∨ isFingerprinted p = true) ∧
        ∃ n, tree.resolve p = some n ∧ value = some (tree.stamp n) := by
  rw [stampsWalk] at h
  dsimp only at h
  split_ifs at h with hskip
  · rw [Bool.and_eq_true, decide_eq_true_iff, Bool.not_eq_true'] at hskip
    exact .inl ⟨(Except.ok.inj h).symm, hskip⟩
  · rw [Bool.and_eq_true, decide_eq_true_iff, Bool.not_eq_true', not_and_or, not_not,
      Bool.not_eq_false] at hskip
    rcases hn : tree.resolve p with - | n
    · rw [hn] at h
      cases h
    · rw [hn] at h
      exact .inr ⟨hskip, n, rfl, (Except.ok.inj h).symm⟩

theorem has_stamp (n : Node) : tree.Has (tree.stamp n) := rfl

/-- What a step of the walk takes is what there is. -/
theorem has_of_step (h : (stampsWalk root graphOutput).step tree task = .ok (instead, taken))
    {x : Path × Stamp} (hx : x ∈ taken) :
    tree.resolve x.1 = some x.2.node ∧ tree.Has x.2 ∧ x.2.changed ≤ tree.clock := by
  cases task with
  | list p =>
    obtain ⟨i, -, -, rfl⟩ := Walk.step_list h
    exact absurd hx List.not_mem_nil
  | visit p type =>
    rcases Walk.step_visit h with ⟨-, -, rfl⟩ | ⟨-, value, hlook, -, rfl⟩
    · exact absurd hx List.not_mem_nil
    · obtain ⟨v, hv, rfl⟩ := List.mem_map.1 hx
      rcases look_stampsWalk hlook with ⟨rfl, -⟩ | ⟨-, n, hn, rfl⟩
      · exact absurd hv List.not_mem_nil
      · obtain rfl := List.mem_singleton.1 hv
        exact ⟨hn, has_stamp n, changed_le n⟩

/-- **The walk leaves nothing out.** -/
theorem Closed.step
    (h : Closed (stampsWalk root graphOutput : Walk Content _).visible (task :: tasks) stamps tree)
    (hstep : (stampsWalk root graphOutput).step tree task = .ok (instead, taken)) :
    Closed (stampsWalk root graphOutput : Walk Content _).visible
    (instead ++ tasks) (taken ++ stamps)
      tree := by
  cases task with
  | list p =>
    obtain ⟨i, hp, rfl, rfl⟩ := Walk.step_list hstep
    exact h.expand hp
  | visit p type =>
    rcases Walk.step_visit hstep with ⟨hhidden, rfl, rfl⟩ | ⟨hvisible, value, hlook, rfl, rfl⟩
    · exact h.skip (.inl hhidden)
    · rcases look_stampsWalk hlook with ⟨rfl, htype, hfile⟩ | ⟨htype, n, hn, rfl⟩
      · rw [if_neg htype]
        exact h.skip (.inr ⟨htype, hfile⟩)
      · exact h.take hvisible htype hn

theorem visible_iff : (stampsWalk root graphOutput : Walk Content _).visible p = true ↔
    isSourceWalkExcluded (root ++ p) = false ∧ ¬graphOutput <+: root ++ p := by
  show (!isSourceWalkExcluded (root ++ p) && !graphOutput.isPrefixOf (root ++ p)) = true ↔ _
  rw [Bool.and_eq_true, Bool.not_eq_true', Bool.not_eq_true', ← List.isPrefixOf_iff_prefix,
    Bool.not_eq_true]

/-- What is above something that is not excluded is not excluded. -/
theorem not_excluded_above (hp : isSourceWalkExcluded (root ++ p) = false) (hq : q <+: p) :
    isSourceWalkExcluded (root ++ q) = false := by
  have hpre : root ++ q <+: root ++ p := (List.prefix_append_right_inj root).2 hq
  exact List.any_eq_false.2 fun c hc ↦ List.any_eq_false.1 hp c (hpre.subset hc)

/-- What is above something that the walk goes into is gone into. -/
theorem visible_above (hp : (stampsWalk root graphOutput : Walk Content _).visible p = true)
    (hq : q <+: p) : (stampsWalk root graphOutput : Walk Content _).visible q = true := by
  obtain ⟨hexcluded, houtput⟩ := visible_iff.1 hp
  have hpre : root ++ q <+: root ++ p := (List.prefix_append_right_inj root).2 hq
  exact visible_iff.2 ⟨not_excluded_above hexcluded hq, fun hle ↦ houtput (hle.trans hpre)⟩

theorem isHashed_iff :
    isHashed root p = true ↔
      isSourceWalkExcluded (root ++ p) = false ∧ isFingerprinted p = true := by
  rw [isHashed, Bool.and_eq_true, Bool.not_eq_true']

/-- A file that is hashed is gone into, unless it lies where the graph is written. -/
theorem visible_of_isHashed (hp : isHashed root p = true)
    (houtput : ¬graphOutput <+: root ++ p) :
    (stampsWalk root graphOutput : Walk Content _).visible p = true :=
  visible_iff.2 ⟨(isHashed_iff.1 hp).1, houtput⟩

end Stamping

/-! ### Stamps and the version they were taken of -/

/-- A stamp is not that of what is there. -/
def Off (stamps : Stamps) (base : FileTree String Content) : Prop :=
  ∃ x ∈ stamps, base.resolve x.1 ≠ some x.2.node

/-- While all stamps hold, the files are those of the version that the walk ended with. -/
structure Tied (root graphOutput : Path) (stamps : Stamps)
    (base tree : FileTree String Content) : Prop where
  le : ∀ x ∈ stamps, x.2.changed ≤ tree.clock
  nodup : (stamps.map Prod.fst).Nodup
  same : ∀ x ∈ stamps, tree.Has x.2 → base.SameAt tree x.2.node
  closed : ¬Lost stamps base →
    Closed (stampsWalk root graphOutput : Walk Content _).visible [] stamps base
  output : ∀ p, isHashed root p = true → graphOutput <+: root ++ p →
    (tree.Direct p ↔ base.Direct p) ∧ tree.file p = base.file p
  links : ¬Lost stamps tree → ∀ p, isHashed root p = true → ¬graphOutput <+: root ++ p →
    base.Direct p → tree.resolve p = base.resolve p

/-- The files that are hashed are the same. -/
def Agree (root : Path) (base tree : FileTree String Content) : Prop :=
  ∀ p, isHashed root p = true →
    (tree.Direct p ↔ base.Direct p) ∧ (base.Direct p → tree.file p = base.file p)

section Tied

variable {base tree : FileTree String Content} {stamps : Stamps} {p : Path}
  {changes : List (Change String Content)}

/-- Stamps do not come back. -/
theorem lost_apply (hle : ∀ x ∈ stamps, x.2.changed ≤ tree.clock) (h : Lost stamps tree) :
    Lost stamps (tree.apply changes) := by
  obtain ⟨x, hx, hlost⟩ := h
  exact ⟨x, hx, fun hhas ↦ hlost (has_of_apply (hle x hx) hhas)⟩

theorem has_of_held (hheld : ¬Lost stamps tree) {x : Path × Stamp} (hx : x ∈ stamps) :
    tree.Has x.2 :=
  not_not.1 fun hlost ↦ hheld ⟨x, hx, hlost⟩

theorem Tied.sameAt (h : Tied root graphOutput stamps base tree) (hheld : ¬Lost stamps tree) :
    ∀ x ∈ stamps, base.SameAt tree x.2.node :=
  fun x hx ↦ h.same x hx (has_of_held hheld hx)

theorem Tied.closed_base (h : Tied root graphOutput stamps base tree) (hheld : ¬Lost stamps tree) :
    Closed (stampsWalk root graphOutput : Walk Content _).visible [] stamps base := by
  refine h.closed ?_
  rintro ⟨x, hx, hlost⟩
  exact hlost ((h.sameAt hheld x hx).changed_eq.trans (has_of_held hheld hx))

theorem Tied.entry_eq (h : Tied root graphOutput stamps base tree) (hheld : ¬Lost stamps tree)
    (hvisible : (stampsWalk root graphOutput : Walk Content _).visible p = true) {q : Path}
    (hq : q <+: p) : tree.entry q = base.entry q :=
  (h.closed_base hheld).entry_eq (h.sameAt hheld)
    fun _ hr _ ↦ visible_above hvisible (hr.trans hq)

/-- A path that is hashed has a link on its way in both trees or in none. -/
theorem Tied.direct_iff (h : Tied root graphOutput stamps base tree) (hheld : ¬Lost stamps tree)
    (hp : isHashed root p = true) : tree.Direct p ↔ base.Direct p := by
  by_cases houtput : graphOutput <+: root ++ p
  · exact (h.output p hp houtput).1
  · have hvisible : (stampsWalk root graphOutput : Walk Content _).visible p = true :=
      visible_of_isHashed hp houtput
    constructor <;> intro hdirect q start target hq hlink
    · exact hdirect q start target hq ((h.entry_eq hheld hvisible hq).trans hlink)
    · exact hdirect q start target hq ((h.entry_eq hheld hvisible hq).symm.trans hlink)

/-- A stamp holds of where its path leads in the version. -/
theorem Tied.resolve_eq (h : Tied root graphOutput stamps base tree) (hheld : ¬Lost stamps tree)
    {x : Path × Stamp} (hx : x ∈ stamps) : tree.resolve x.1 = base.resolve x.1 := by
  obtain ⟨hvisible, e, he, hstamped, -⟩ := (h.closed_base hheld).entry hx
  have he' : tree.entry x.1 = some e :=
    (h.entry_eq hheld hvisible (List.prefix_refl _)).trans he
  rcases e with n | ⟨start, target⟩
  · rw [resolve_of_entry he, resolve_of_entry he', target_node, target_node]
  · obtain ⟨hexcluded, houtput⟩ := visible_iff.1 hvisible
    exact h.links hheld x.1 (isHashed_iff.2 ⟨hexcluded, hstamped⟩) houtput (direct_of_entry he)

/-- **An edit that leaves alone what is not stamped.** -/
theorem Tied.apply (h : Tied root graphOutput stamps base tree)
    (hleaves : LeavesUnstamped root graphOutput tree (tree.apply changes)) :
    Tied root graphOutput stamps base (tree.apply changes) where
  le x hx := (h.le x hx).trans (Nat.le_succ _)
  nodup := h.nodup
  same x hx hhas := (h.same x hx (has_of_apply (h.le x hx) hhas)).trans
    (sameAt_of_has (h.le x hx) hhas)
  closed := h.closed
  output p hp hpre := by
    obtain ⟨hdirect, hfile⟩ := hleaves.output p hp hpre
    obtain ⟨hdirect', hfile'⟩ := h.output p hp hpre
    exact ⟨hdirect.trans hdirect', hfile.trans hfile'⟩
  links hheld p hp houtput hdirect := by
    have hbefore : ¬Lost stamps tree := fun hlost ↦ hheld (lost_apply h.le hlost)
    have hclosed := (h.closed_base hbefore).congr (h.sameAt hbefore)
    have hwatched : ∀ i, Watched root graphOutput tree i →
        (tree.apply changes).dirs i = tree.dirs i := by
      rintro i ⟨q, hvisible, hq⟩
      exact ((hclosed.exists_stamp hvisible hq rfl).dirs_eq fun x hx ↦
        sameAt_of_has (h.le x hx) (has_of_held hheld hx)).symm
    exact (hleaves.links _ hwatched (fun _ _ ↦ rfl) p hp houtput
      ((h.direct_iff hbefore hp).2 hdirect)).trans (h.links hbefore p hp houtput hdirect)

/-- **The files that are read while all stamps hold.** -/
theorem Tied.agree (h : Tied root graphOutput stamps base tree) (hheld : ¬Lost stamps tree)
    (hoff : ¬Off stamps base) : Agree root base tree := by
  intro p hp
  refine ⟨h.direct_iff hheld hp, fun hdirect ↦ ?_⟩
  by_cases houtput : graphOutput <+: root ++ p
  · exact (h.output p hp houtput).2
  rw [FileTree.file, FileTree.file, h.links hheld p hp houtput hdirect]
  rcases hn : base.resolve p with - | n
  · rfl
  · rw [resolve_of_direct hdirect] at hn
    obtain ⟨e, he, htarget⟩ := Option.bind_eq_some_iff.1 hn
    obtain ⟨x, hx, -⟩ := (h.closed_base hheld).exists_stamp
      (fun q hq ↦ visible_above (visible_of_isHashed hp houtput) hq) he
      (by rw [isStamped, (isHashed_iff.1 hp).2, Bool.or_true])
    have hnode : base.resolve p = some x.node := not_not.1 fun hne ↦ hoff ⟨_, hx, hne⟩
    rw [resolve_of_entry he, htarget] at hnode
    obtain rfl := Option.some.inj hnode
    exact (h.sameAt hheld _ hx).content_eq.symm

end Tied

/-! ### The walk that hashes -/

/-- The files of that version are taken, or come with the tasks. -/
def Task.LeadsTo : Task → Path → Prop
  | visit q type, p => q <+: p ∧ (type = .dir ↔ q ≠ p)
  | list q, p => q <+: p ∧ q ≠ p

/-- No link leads to what the task is about, except one at the end of a path that is visited. -/
def Task.Straight (root : Path) (base : FileTree String Content) : Task → Prop
  | visit p type => base.Direct p ∧
    (type = .dir → isSourceWalkExcluded (root ++ p) = false → base.Unlinked p)
  | list p => isSourceWalkExcluded (root ++ p) = false ∧ base.Unlinked p

/-- Where the walk that hashes stands, if all it read was of the version. -/
structure Hashing (root : Path) (base : FileTree String Content) (tasks : List Task)
    (files : Tree Content) : Prop where
  distinct : Distinct tasks (files.map Prod.fst)
  straight : ∀ task ∈ tasks, task.Straight root base
  sound : ∀ x ∈ files, isHashed root x.1 = true ∧ base.source x.1 = some x.2
  complete : ∀ p content, isHashed root p = true → base.source p = some content →
    (p, content) ∈ files ∨ ∃ task ∈ tasks, task.LeadsTo p

section Hashing

variable {base tree : FileTree String Content} {tasks instead : List Task} {task : Task}
  {files taken : Tree Content} {p q : Path} {type : FileType} {content : Content}

theorem Agree.source_eq (h : Agree root base tree) (hp : isHashed root p = true) :
    tree.source p = some content ↔ base.source p = some content := by
  obtain ⟨hdirect, hfile⟩ := h p hp
  rw [source_eq_some, source_eq_some, hdirect]
  exact and_congr_right fun hbase ↦ by rw [hfile hbase]

/-- Whether a directory is on the way of a link is told by the files there may be in it. -/
theorem Agree.unlinked_iff (h : Agree root base tree)
    (hp : isSourceWalkExcluded (root ++ p) = false) : tree.Unlinked p ↔ base.Unlinked p := by
  rw [← direct_concat (c := "lib.rs"), ← direct_concat (c := "lib.rs")]
  refine (h _ (isHashed_iff.2 ⟨?_, ?_⟩)).1
  · rw [← List.append_assoc, isSourceWalkExcluded, List.any_append, Bool.or_eq_false_iff]
    exact ⟨hp, by decide⟩
  · rw [isFingerprinted, fileName, List.getLast?_concat]
    rfl

theorem inputsWalk_visible_iff : (inputsWalk root : Walk Content _).visible p = true ↔
    isSourceWalkExcluded (root ++ p) = false := by
  show (!isSourceWalkExcluded (root ++ p)) = true ↔ _
  rw [Bool.not_eq_true']

theorem readFile_ok {value : Option Content} (h : readFile tree p = .ok value) :
    value = none ∧ isFingerprinted p = false ∨
      isFingerprinted p = true ∧ ∃ content, tree.file p = some content ∧ value = some content := by
  rw [readFile] at h
  split_ifs at h with hfingerprinted
  · rcases hfile : tree.file p with - | content
    · rw [hfile] at h
      cases h
    · rw [hfile] at h
      exact .inr ⟨hfingerprinted, content, rfl, (Except.ok.inj h).symm⟩
  · exact .inl ⟨(Except.ok.inj h).symm, Bool.eq_false_of_not_eq_true hfingerprinted⟩

theorem look_inputsWalk {value : Option Content}
    (h : (inputsWalk root).look tree p type = .ok value) :
    value = none ∧ (type = .dir ∨ isFingerprinted p = false ∨ tree.file p = none) ∨
      type ≠ .dir ∧ isFingerprinted p = true ∧ ∃ content, tree.file p = some content ∧
      value = some content := by
  rw [inputsWalk] at h
  cases type with
  | dir => exact .inl ⟨(Except.ok.inj h).symm, .inl rfl⟩
  | file =>
    rcases readFile_ok h with ⟨hnone, hnot⟩ | hread
    · exact .inl ⟨hnone, .inr (.inl hnot)⟩
    · exact .inr ⟨by decide, hread⟩
  | symlink =>
    dsimp only at h
    rcases hn : tree.resolve p with - | i | i
    · rw [hn] at h
      cases h
    · rw [hn] at h
      refine .inl ⟨(Except.ok.inj h).symm, .inr (.inr ?_)⟩
      rw [FileTree.file, hn]
      rfl
    · rw [hn] at h
      rcases readFile_ok h with ⟨hnone, hnot⟩ | hread
      · exact .inl ⟨hnone, .inr (.inl hnot)⟩
      · exact .inr ⟨by decide, hread⟩

theorem hashing_start (root : Path) (base : FileTree String Content) :
    Hashing root base Walk.start [] := by
  have hunlinked : base.Unlinked [] := by
    intro q start target hq hlink
    obtain rfl := List.prefix_nil.1 hq
    cases hlink
  refine ⟨distinct_start, fun task htask ↦ ?_, fun x hx ↦ absurd hx List.not_mem_nil,
    fun p content _ hsource ↦ .inr ⟨_, List.mem_cons_self, List.nil_prefix, ?_⟩⟩
  · obtain rfl := List.mem_singleton.1 htask
    exact ⟨hunlinked.direct, fun _ _ ↦ hunlinked⟩
  · refine iff_of_true rfl ?_
    rintro rfl
    cases hsource

/-- A directory on the way to a file leads on to it. -/
theorem exists_visit {i : ℕ} (hq : tree.entry q = some (.node (.dir i)))
    (hp : tree.source p = some content) (hpre : q <+: p) (hne : q ≠ p) :
    ∃ task ∈ visits tree q i, task.LeadsTo p := by
  obtain ⟨rest, rfl⟩ := hpre
  cases rest with
  | nil => exact absurd (List.append_nil q).symm hne
  | cons c rest =>
    have hle : q ++ [c] <+: q ++ c :: rest := ⟨rest, by simp⟩
    obtain ⟨n, hn, hcontent⟩ := Option.bind_eq_some_iff.1 hp
    obtain ⟨e, he, htarget⟩ := Option.bind_eq_some_iff.1 hn
    obtain ⟨e', he', hdir⟩ := exists_entry_of_prefix he hle
    obtain ⟨j, hj, hc⟩ := entry_concat_eq_some.1 he'
    obtain rfl := Node.dir.inj (FileTree.Entry.node.inj (Option.some.inj (hq.symm.trans hj)))
    refine ⟨_, mem_visits.2 ⟨c, e', hc, rfl⟩, hle, ?_⟩
    rcases hdir with heq | ⟨k, rfl⟩
    · rw [heq] at he'
      obtain rfl := Option.some.inj (he.symm.trans he')
      refine iff_of_false (fun hdir ↦ ?_) (not_not.2 heq)
      rcases e with (k | k) | ⟨start, target⟩
      · obtain rfl := Option.some.inj htarget
        cases hcontent
      · cases hdir
      · cases hdir
    · refine iff_of_true rfl fun heq ↦ ?_
      rw [heq] at he'
      obtain rfl := Option.some.inj (he.symm.trans he')
      obtain rfl := Option.some.inj htarget
      cases hcontent

/-- What a listing leads to is no further over a link. -/
theorem straight_visits (h : Agree root base tree) {i : ℕ} (hlinked : base.Unlinked q)
    (hq : tree.entry q = some (.node (.dir i))) (hunlinked : tree.Unlinked q)
    (htask : task ∈ visits tree q i) : task.Straight root base := by
  obtain ⟨c, e, hc, rfl⟩ := mem_visits.1 htask
  refine ⟨direct_concat.2 hlinked, fun hdir hexcluded ↦ (h.unlinked_iff hexcluded).1 ?_⟩
  intro r start target hr hlink
  rcases List.prefix_concat_iff.1 hr with rfl | hr
  · obtain rfl := Option.some.inj (hlink.symm.trans (entry_concat_eq_some.2 ⟨i, hq, hc⟩))
    cases hdir
  · exact hunlinked r start target hr hlink

/-- **A step of the hashing walk**, while the files are those of the version. -/
theorem Hashing.step (h : Hashing root base (task :: tasks) files)
    (hstep : (inputsWalk root).step tree task = .ok (instead, taken))
    (hagree : Agree root base tree) : Hashing root base (instead ++ tasks) (taken ++ files) := by
  have hstraight := h.straight task List.mem_cons_self
  have hrest : ∀ a ∈ tasks, a.Straight root base :=
    fun a ha ↦ h.straight a (List.mem_cons_of_mem _ ha)
  cases task with
  | list q =>
    obtain ⟨i, hq, rfl, rfl⟩ := Walk.step_list hstep
    obtain ⟨hexcluded, hlinked⟩ := hstraight
    have hunlinked := (hagree.unlinked_iff hexcluded).2 hlinked
    have hentry := entry_of_unlinked hunlinked hq
    refine ⟨h.distinct.step hstep, fun a ha ↦ ?_, h.sound, fun p content hp hcontent ↦ ?_⟩
    · exact (List.mem_append.1 ha).elim (straight_visits hagree hlinked hentry hunlinked) (hrest a)
    · refine (h.complete p content hp hcontent).imp_right ?_
      rintro ⟨a, ha, hleads⟩
      rcases List.mem_cons.1 ha with rfl | ha
      -- The listing leads to `p` through the entry of its next part.
      · obtain ⟨a, ha, hleads⟩ := exists_visit hentry ((hagree.source_eq hp).2 hcontent)
          hleads.1 hleads.2
        exact ⟨a, List.mem_append_left _ ha, hleads⟩
      · exact ⟨a, List.mem_append_right _ ha, hleads⟩
  | visit q type =>
    obtain ⟨hdirect, hdir⟩ := hstraight
    refine ⟨h.distinct.step hstep, fun a ha ↦ ?_, fun x hx ↦ ?_, fun p content hp hcontent ↦ ?_⟩
    · rcases List.mem_append.1 ha with hnew | hold
      · rcases Walk.step_visit hstep with ⟨-, rfl, -⟩ | ⟨hvisible, -, -, rfl, -⟩
        · exact absurd hnew List.not_mem_nil
        · split_ifs at hnew with htype
          · obtain rfl := List.mem_singleton.1 hnew
            have hexcluded := inputsWalk_visible_iff.1 hvisible
            -- A directory is listed only when it is not excluded.
            exact ⟨hexcluded, hdir htype hexcluded⟩
          · exact absurd hnew List.not_mem_nil
      · exact hrest a hold
    · rcases List.mem_append.1 hx with hnew | hold
      · rcases Walk.step_visit hstep with ⟨-, -, rfl⟩ | ⟨hvisible, value, hlook, -, rfl⟩
        · exact absurd hnew List.not_mem_nil
        · obtain ⟨v, hv, rfl⟩ := List.mem_map.1 hnew
          rcases look_inputsWalk hlook with ⟨rfl, -⟩ | ⟨-, hfingerprinted, content, hcontent, rfl⟩
          · exact absurd hv List.not_mem_nil
          · obtain rfl := List.mem_singleton.1 hv
            have hhashed : isHashed root q = true :=
              isHashed_iff.2 ⟨inputsWalk_visible_iff.1 hvisible, hfingerprinted⟩
            exact ⟨hhashed,
              source_eq_some.2 ⟨hdirect, ((hagree q hhashed).2 hdirect).symm.trans hcontent⟩⟩
      -- What was hashed before stays as it was.
      · exact h.sound x hold
    · rcases h.complete p content hp hcontent with hmem | ⟨a, ha, hleads⟩
      · exact .inl (List.mem_append_right _ hmem)
      rcases List.mem_cons.1 ha with rfl | ha
      swap
      · exact .inr ⟨a, List.mem_append_right _ ha, hleads⟩
      obtain ⟨hpre, hleads⟩ := hleads
      obtain ⟨hexcluded, hfingerprinted⟩ := isHashed_iff.1 hp
      rcases Walk.step_visit hstep with ⟨hhidden, -⟩ | ⟨-, value, hlook, rfl, rfl⟩
      · rw [inputsWalk_visible_iff.2 (not_excluded_above hexcluded hpre)] at hhidden
        cases hhidden
      -- A directory is on the way to `p`; a file is `p` itself, and is read now.
      · by_cases htype : type = .dir
        · rw [if_pos htype]
          exact .inr ⟨_, List.mem_append_left _ List.mem_cons_self, hpre, hleads.1 htype⟩
        · obtain rfl : q = p := not_not.1 fun hne ↦ htype (hleads.2 hne)
          have hfile : tree.file q = some content :=
            ((hagree q hp).2 hdirect).trans (source_eq_some.1 hcontent).2
          rcases look_inputsWalk hlook with
            ⟨-, hnot | hnot | hnot⟩ | ⟨-, -, content', hcontent', rfl⟩
          · exact absurd hnot htype
          · rw [hfingerprinted] at hnot
            cases hnot
          · rw [hfile] at hnot
            cases hnot
          · obtain rfl := Option.some.inj (hcontent'.symm.trans hfile)
            exact .inl (List.mem_append_left _ (List.mem_singleton.2 rfl))

/-- A walk that has ended. -/
theorem Hashing.hashesTo (h : Hashing root base [] files) :
    HashesTo root base (computeBuildInputs root (sortFiles files)) := by
  refine ⟨files, h.distinct.nodup, fun p content ↦ ?_, rfl⟩
  rw [← source_eq_some]
  refine ⟨fun hmem ↦ h.sound _ hmem, fun ⟨hp, hcontent⟩ ↦ ?_⟩
  refine (h.complete p content hp hcontent).resolve_right ?_
  rintro ⟨task, htask, -⟩
  exact absurd htask List.not_mem_nil

end Hashing

/-! ### Builds -/

/-- What was hashed and what was read is of that version. -/
def OfVersion (root : Path) (version : FileTree String Content) (inputs : BuildInputs Content)
    (reads : List (Path × Option Content)) : Prop :=
  HashesTo root version inputs ∧
    ∀ x ∈ reads, isHashed root x.1 = true → version.Direct x.1 → x.2 = version.file x.1

/-- And the stamps are of it. -/
def Good (root : Path) (base : FileTree String Content) (slice : InputSlice Content)
    (reads : List (Path × Option Content)) : Prop :=
  OfVersion root base slice.inputs reads ∧ ¬Off slice.stamps base

/-- What holds of a build, wherever it is. -/
def BuildState.Consistent (root graphOutput : Path) (s : BuildState Content) : Prop :=
  match s.phase with
  | .stamping tasks stamps =>
    s.reads = [] ∧ (∀ x ∈ stamps, x.2.changed ≤ s.tree.clock) ∧
      Distinct tasks (stamps.map Prod.fst) ∧ (¬Lost stamps s.tree →
        Closed (stampsWalk root graphOutput : Walk Content _).visible tasks stamps s.tree)
  | .hashing stamps tasks files =>
    s.reads = [] ∧ s.base ∈ s.versions ∧ Tied root graphOutput stamps s.base s.tree ∧
      (Hashing root s.base tasks files ∨ Lost stamps s.tree ∨ Off stamps s.base)
  | .validating slice _ current moment =>
    s.base ∈ s.versions ∧ Tied root graphOutput slice.stamps s.base s.tree ∧
      (Good root s.base slice s.reads ∨
        (∃ x ∈ slice.stamps, ¬s.tree.Has x.2 ∧ x ∉ current) ∨
        -- The first validation tells of a link that led elsewhere.
        moment = .hashed ∧ ∃ x ∈ slice.stamps, s.base.resolve x.1 ≠ some x.2.node ∧
          (Lost slice.stamps s.tree ∨ x ∉ current))
  | .deciding slice | .loading slice | .extracting slice =>
    s.base ∈ s.versions ∧ Tied root graphOutput slice.stamps s.base s.tree ∧
      (Good root s.base slice s.reads ∨ Lost slice.stamps s.tree)
  | .published inputs => ∃ version ∈ s.versions, OfVersion root version inputs s.reads
  | .failed _ => True

/-- What holds of a build at any time. -/
structure BuildState.Inv (root graphOutput : Path) (s : BuildState Content) : Prop where
  mem : s.tree ∈ s.versions
  consistent : s.Consistent root graphOutput

namespace BuildState

variable {s s' : BuildState Content} {slice : InputSlice Content} {tasks : List Task}

theorem inv_begin {tree : FileTree String Content} {versions : List (FileTree String Content)}
    (hmem : tree ∈ versions) (attempt : ℕ) :
    (begin root graphOutput tree versions attempt).Inv root graphOutput := by
  refine ⟨hmem, ?_⟩
  rw [Consistent, begin]
  by_cases hroot : graphOutput = root
  · rw [if_pos hroot]
    trivial
  · rw [if_neg hroot]
    exact ⟨rfl, fun x hx ↦ absurd hx List.not_mem_nil, distinct_start, fun _ ↦ closed_start tree⟩

/-- **Whatever is edited**, except what is not stamped. -/
theorem Inv.edit {changes : List (Change String Content)} (h : s.Inv root graphOutput)
    (hleaves : LeavesUnstamped root graphOutput s.tree (s.tree.apply changes)) :
    ({ s with tree := s.tree.apply changes, versions := s.versions ++ [s.tree.apply changes] } :
      BuildState Content).Inv root graphOutput := by
  refine ⟨List.mem_append_right _ List.mem_cons_self, ?_⟩
  have hconsistent := h.consistent
  obtain ⟨tree, versions, base, reads, attempt, phase⟩ := s
  cases phase with
  | stamping tasks stamps =>
    obtain ⟨hreads, hle, hdistinct, hclosed⟩ := hconsistent
    refine ⟨hreads, fun x hx ↦ (hle x hx).trans (Nat.le_succ _), hdistinct, fun hheld ↦ ?_⟩
    have hbefore : ¬Lost stamps tree := fun hlost ↦ hheld (lost_apply hle hlost)
    exact (hclosed hbefore).congr fun x hx ↦ sameAt_of_has (hle x hx) (has_of_held hheld hx)
  | hashing stamps tasks files =>
    obtain ⟨hreads, hbase, htied, hfiles⟩ := hconsistent
    exact ⟨hreads, List.mem_append_left _ hbase, htied.apply hleaves,
      hfiles.imp_right (.imp_left (lost_apply htied.le))⟩
  | validating slice tasks current moment =>
    obtain ⟨hbase, htied, hgood⟩ := hconsistent
    refine ⟨List.mem_append_left _ hbase, htied.apply hleaves, hgood.imp_right (.imp ?_ ?_)⟩
    · rintro ⟨x, hx, hlost, hmissing⟩
      exact ⟨x, hx, fun hhas ↦ hlost (has_of_apply (htied.le x hx) hhas), hmissing⟩
    · rintro ⟨hmoment, x, hx, hoff, hrest⟩
      exact ⟨hmoment, x, hx, hoff, hrest.imp_left (lost_apply htied.le)⟩
  | deciding slice =>
    obtain ⟨hbase, htied, hgood⟩ := hconsistent
    exact ⟨List.mem_append_left _ hbase, htied.apply hleaves, hgood.imp_right (lost_apply htied.le)⟩
  | loading slice =>
    obtain ⟨hbase, htied, hgood⟩ := hconsistent
    exact ⟨List.mem_append_left _ hbase, htied.apply hleaves, hgood.imp_right (lost_apply htied.le)⟩
  | extracting slice =>
    obtain ⟨hbase, htied, hgood⟩ := hconsistent
    exact ⟨List.mem_append_left _ hbase, htied.apply hleaves, hgood.imp_right (lost_apply htied.le)⟩
  | published inputs =>
    obtain ⟨version, hversion, hgood⟩ := hconsistent
    exact ⟨version, List.mem_append_left _ hversion, hgood⟩
  | failed error => trivial

/-- A step of a walk that goes on keeps what the walk's own steps keep. -/
theorem Inv.walkOn {walk : Walk Content V} {seen : List (Path × V)}
    {going : List Task → List (Path × V) → Phase Content} {ended : BuildState Content}
    (h : s.Inv root graphOutput) (hended : tasks = [] → ended.Inv root graphOutput)
    (hgoing : ∀ task rest instead taken, tasks = task :: rest →
      walk.step s.tree task = .ok (instead, taken) →
      ({ s with phase := going (instead ++ rest) (taken ++ seen) } :
      BuildState Content).Consistent root
        graphOutput) :
    (s.walkOn walk tasks seen going ended).Inv root graphOutput := by
  cases tasks with
  | nil => exact hended rfl
  | cons task rest =>
    rw [BuildState.walkOn]
    rcases hstep : walk.step s.tree task with e | ⟨instead, taken⟩
    · exact ⟨h.mem, trivial⟩
    · exact ⟨h.mem, hgoing task rest instead taken rfl hstep⟩

/-- A step of the walk of stamps. -/
theorem Inv.stamped {stamps : Stamps} (h : s.Inv root graphOutput)
    (hphase : s.phase = .stamping tasks stamps) :
    (s.walkOn (stampsWalk root graphOutput) tasks stamps .stamping
      { s with base := s.tree, phase := .hashing stamps Walk.start [] }).Inv root graphOutput := by
  have hconsistent := h.consistent
  rw [Consistent, hphase] at hconsistent
  obtain ⟨hreads, hle, hdistinct, hclosed⟩ := hconsistent
  refine h.walkOn ?_ fun task rest instead taken htasks hstep ↦ ?_
  · rintro rfl
    exact ⟨h.mem, hreads, h.mem, ⟨hle, hdistinct.nodup, fun x _ _ ↦ .refl x.2.node, hclosed,
      fun _ _ _ ↦ ⟨Iff.rfl, rfl⟩, fun _ _ _ _ _ ↦ rfl⟩, .inl (hashing_start root s.tree)⟩
  · rw [htasks] at hdistinct hclosed
    refine ⟨hreads, fun x hx ↦ ?_, hdistinct.step hstep, fun hheld ↦ ?_⟩
    · exact (List.mem_append.1 hx).elim (fun hnew ↦ (has_of_step hstep hnew).2.2) (hle x)
    · have hbefore : ¬Lost stamps s.tree := fun ⟨x, hx, hlost⟩ ↦
        hheld ⟨x, List.mem_append_right _ hx, hlost⟩
      exact (hclosed hbefore).step hstep

/-- A step of the walk that hashes. -/
theorem Inv.hash {stamps : Stamps} {files : Tree Content}
    (h : s.Inv root graphOutput) (hphase : s.phase = .hashing stamps tasks files) :
    (s.walkOn (inputsWalk root) tasks files (.hashing stamps)
      { s with
        phase := .validating ⟨computeBuildInputs root (sortFiles files), stamps⟩ Walk.start []
          .hashed }).Inv root graphOutput := by
  have hconsistent := h.consistent
  rw [Consistent, hphase] at hconsistent
  obtain ⟨hreads, hbase, htied, hfiles⟩ := hconsistent
  refine h.walkOn ?_ fun task rest instead taken htasks hstep ↦ ?_
  · rintro rfl
    refine ⟨h.mem, hbase, htied, ?_⟩
    rcases hfiles with hfiles | ⟨x, hx, hlost⟩ | ⟨x, hx, hoff⟩
    · by_cases hoff : Off stamps s.base
      · obtain ⟨x, hx, hoff⟩ := hoff
        exact .inr (.inr ⟨rfl, x, hx, hoff, .inr List.not_mem_nil⟩)
      · refine .inl ⟨⟨hfiles.hashesTo, fun x hx ↦ ?_⟩, hoff⟩
        rw [hreads] at hx
        exact absurd hx List.not_mem_nil
    · exact .inr (.inl ⟨x, hx, hlost, List.not_mem_nil⟩)
    · exact .inr (.inr ⟨rfl, x, hx, hoff, .inr List.not_mem_nil⟩)
  · refine ⟨hreads, hbase, htied, ?_⟩
    by_cases hbad : Lost stamps s.tree ∨ Off stamps s.base
    · exact .inr hbad
    · obtain ⟨hheld, hoff⟩ := not_or.1 hbad
      rw [htasks] at hfiles
      exact .inl ((hfiles.resolve_right hbad).step hstep (htied.agree hheld hoff))

/-- **A walk that finds every stamp again began while all of them held**, and the first one also
finds every link where it led. -/
theorem Inv.validate {current : Stamps} {moment : Moment}
    (h : s.Inv root graphOutput) (hphase : s.phase = .validating slice tasks current moment) :
    (s.walkOn (stampsWalk root graphOutput) tasks current
      (fun tasks current ↦ .validating slice tasks current moment)
      { s with
        phase := if sameStamps slice.stamps current then moment.next slice
          else .failed .inputChanged }).Inv root graphOutput := by
  have hconsistent := h.consistent
  rw [Consistent, hphase] at hconsistent
  obtain ⟨hbase, htied, hgood⟩ := hconsistent
  refine h.walkOn ?_ fun task rest instead taken htasks hstep ↦ ?_
  · rintro -
    refine ⟨h.mem, ?_⟩
    by_cases hsame : sameStamps slice.stamps current = true
    · have hfound : ∀ x ∈ slice.stamps, x ∈ current := fun x hx ↦
        mem_of_sameStamps hsame htied.nodup hx
      replace hgood : Good root s.base slice s.reads ∨
          moment = .hashed ∧ Lost slice.stamps s.tree := by
        rcases hgood with hgood | ⟨x, hx, -, hmissing⟩ | ⟨hmoment, x, hx, -, hlost | hmissing⟩
        · exact .inl hgood
        · exact absurd (hfound x hx) hmissing
        · exact .inr ⟨hmoment, hlost⟩
        · exact absurd (hfound x hx) hmissing
      rw [Consistent, if_pos hsame]
      cases moment with
      | hashed => exact ⟨hbase, htied, hgood.imp_right And.right⟩
      | reusing => exact ⟨s.base, hbase, (hgood.resolve_right fun hnot ↦ nomatch hnot.1).1⟩
      | loaded => exact ⟨hbase, htied, .inl (hgood.resolve_right fun hnot ↦ nomatch hnot.1)⟩
      | extracted => exact ⟨s.base, hbase, (hgood.resolve_right fun hnot ↦ nomatch hnot.1).1⟩
    · rw [Consistent, if_neg hsame]
      trivial
  · refine ⟨hbase, htied, hgood.imp_right (.imp ?_ ?_)⟩
    · rintro ⟨x, hx, hlost, hmissing⟩
      refine ⟨x, hx, hlost, fun hmem ↦ ?_⟩
      rcases List.mem_append.1 hmem with hnew | hold
      · exact hlost (has_of_step hstep hnew).2.1
      · exact hmissing hold
    · rintro ⟨hmoment, x, hx, hoff, hrest⟩
      refine ⟨hmoment, x, hx, hoff, ?_⟩
      by_cases hheld : Lost slice.stamps s.tree
      · exact .inl hheld
      · refine .inr fun hmem ↦ ?_
        rcases List.mem_append.1 hmem with hnew | hold
        · exact hoff ((htied.resolve_eq hheld hx).symm.trans (has_of_step hstep hnew).1)
        · exact hrest.resolve_left hheld hold

/-- A file is read. -/
theorem Inv.read (h : s.Inv root graphOutput) (hphase : s.phase = .loading slice)
    (p : Path) : ({ s with reads := (p, s.tree.file p) :: s.reads } : BuildState Content).Inv
    root graphOutput := by
  have hconsistent := h.consistent
  rw [Consistent, hphase] at hconsistent
  obtain ⟨hbase, htied, hgood⟩ := hconsistent
  refine ⟨h.mem, ?_⟩
  show BuildState.Consistent root graphOutput { s with reads := _ }
  rw [Consistent, hphase]
  refine ⟨hbase, htied, ?_⟩
  by_cases hheld : Lost slice.stamps s.tree
  · exact .inr hheld
  · obtain ⟨⟨hhashes, hreads⟩, hoff⟩ := hgood.resolve_right hheld
    refine .inl ⟨⟨hhashes, fun x hx hp hdirect ↦ ?_⟩, hoff⟩
    rcases List.mem_cons.1 hx with rfl | hx
    · exact (htied.agree hheld hoff p hp).2 hdirect
    · exact hreads x hx hp hdirect

/-- A validation begins. -/
theorem Inv.toValidating (hmem : s.tree ∈ s.versions)
    (h : s.base ∈ s.versions ∧ Tied root graphOutput slice.stamps s.base s.tree ∧
      (Good root s.base slice s.reads ∨ Lost slice.stamps s.tree)) (moment : Moment) :
    ({ s with phase := .validating slice Walk.start [] moment } : BuildState Content).Inv
    root graphOutput :=
  ⟨hmem, h.1, h.2.1,
    h.2.2.imp_right fun ⟨x, hx, hlost⟩ ↦ .inl ⟨x, hx, hlost, List.not_mem_nil⟩⟩

/-- **Every step keeps it.** -/
theorem Inv.step {e : BuildStep Content} (h : s.Inv root graphOutput)
    (hleaves : LeavesAlone root graphOutput s e)
    (hstep : s.step root graphOutput e = some s') : s'.Inv root graphOutput := by
  have hconsistent := h.consistent
  cases e with
  | edit changes =>
    obtain rfl := Option.some.inj hstep
    exact h.edit hleaves
  -- Only the three phases that walk take this step, and each has its own lemma.
  | walk =>
    rw [BuildState.step] at hstep
    split at hstep
    next hphase =>
      obtain rfl := Option.some.inj hstep
      exact h.stamped hphase
    next hphase =>
      obtain rfl := Option.some.inj hstep
      exact h.hash hphase
    next hphase =>
      obtain rfl := Option.some.inj hstep
      exact h.validate hphase
    next => cases hstep
  | choose reuse =>
    rw [BuildState.step] at hstep
    split at hstep
    next hphase =>
      obtain rfl := Option.some.inj hstep
      rw [Consistent, hphase] at hconsistent
      cases reuse with
      | true => exact Inv.toValidating h.mem hconsistent .reusing
      | false => exact ⟨h.mem, hconsistent⟩
    next => cases hstep
  | read p =>
    rw [BuildState.step] at hstep
    split at hstep
    next hphase =>
      obtain rfl := Option.some.inj hstep
      exact h.read hphase p
    next => cases hstep
  | loaded =>
    rw [BuildState.step] at hstep
    split at hstep
    next hphase =>
      obtain rfl := Option.some.inj hstep
      rw [Consistent, hphase] at hconsistent
      exact Inv.toValidating h.mem hconsistent .loaded
    next => cases hstep
  | extracted =>
    rw [BuildState.step] at hstep
    split at hstep
    next hphase =>
      obtain rfl := Option.some.inj hstep
      rw [Consistent, hphase] at hconsistent
      exact Inv.toValidating h.mem hconsistent .extracted
    next => cases hstep
  | retry =>
    rw [BuildState.step] at hstep
    split at hstep
    next =>
      obtain ⟨-, hbegun⟩ := Option.ite_none_right_eq_some.1 hstep
      obtain rfl := Option.some.inj hbegun
      exact inv_begin h.mem _
    next => cases hstep

end BuildState

section

variable {tree : FileTree String Content} {s : BuildState Content} {inputs : BuildInputs Content}

/-- **A published snapshot describes one tree**: a version of it, during the build, has these inputs
and the files that were read. -/
theorem published_of_one_version
    (h : (sliceMachine root graphOutput tree).Reachable (LeavesAlone root graphOutput) s)
    (hpublished : s.phase = .published inputs) :
    ∃ version ∈ s.versions, HashesTo root version inputs ∧
      ∀ x ∈ s.reads, isHashed root x.1 = true → version.Direct x.1 →
        x.2 = version.file x.1 := by
  have hinv : s.Inv root graphOutput := h.invariant (BuildState.inv_begin List.mem_cons_self 0)
    fun _ _ _ hleaves hstep hinv ↦ hinv.step hleaves hstep
  have hconsistent := hinv.consistent
  rw [BuildState.Consistent, hpublished] at hconsistent
  exact hconsistent

end

/-! ### What is not stamped -/

/-- A directory with that entry. -/
def folder (name : String) (entry : FileTree.Entry String) : Dir String :=
  ⟨0, AList.insert name entry ∅⟩

/-- A workspace with one file, in a directory. -/
def oneFile (dir content : String) : FileTree String String where
  clock := 0
  dirs
    | 0 => (0, folder dir (.node (.dir 1)))
    | _ => (0, folder "x.rs" (.node (.file 0)))
  files _ := (0, content)
  dirs_le i := by
    rcases i with - | i <;> exact le_rfl
  files_le _ := le_rfl

/-- A workspace with a link to a file outside, through a directory there. -/
def oneLink : FileTree String String where
  clock := 0
  dirs
    | 0 => (0, folder "x.rs" (.link 1 [some "d", some "y.rs"]))
    | 1 => (0, folder "d" (.node (.dir 2)))
    | 2 => (0, folder "y.rs" (.node (.file 0)))
    | _ => (0, folder "y.rs" (.node (.file 1)))
  files
    | 0 => (0, "a")
    | _ => (0, "b")
  dirs_le i := by
    rcases i with - | - | - | i <;> exact le_rfl
  files_le i := by
    rcases i with - | i <;> exact le_rfl

/-- A full build from that many steps of walks on, with what happens while it loads. -/
def fullBuild (hashed walks : ℕ) (loading : List (BuildStep String)) : List (BuildStep String) :=
  List.replicate hashed BuildStep.walk ++ .choose false :: loading ++
    [BuildStep.loaded] ++ List.replicate walks BuildStep.walk ++ [BuildStep.extracted] ++
    List.replicate walks BuildStep.walk

theorem mem_of_packages {files : Tree Content} {package : Path × Tree Content}
    (h : package ∈ (computeBuildInputs root files).packages) {x : Path × Content}
    (hx : x ∈ package.2) : x ∈ files := by
  obtain ⟨dir, -, rfl⟩ := List.mem_map.1 h
  exact List.mem_of_mem_filter (List.mem_of_mem_filter hx)

/-- A file of a version is among those that are hashed only with its content. -/
theorem HashesTo.file_of_mem {version : FileTree String Content} {inputs : BuildInputs Content}
    (h : HashesTo root version inputs) {package : Path × Tree Content}
    (hpackage : package ∈ inputs.packages)
    {p : Path} {content : Content} (hmem : (p, content) ∈ package.2) :
    isHashed root p = true ∧ version.Direct p ∧ version.file p = some content := by
  obtain ⟨files, -, hfiles, rfl⟩ := h
  have hsorted : (p, content) ∈ sortFiles files := mem_of_packages hpackage hmem
  exact (hfiles p content).1 ((List.mem_insertionSort _).1 hsorted)

/-- A file that was hashed with one content and read with another. -/
theorem not_ofVersion {version : FileTree String Content} {inputs : BuildInputs Content}
    {reads : List (Path × Option Content)} {package : Path × Tree Content} {p : Path}
    {content content' : Content} (hpackage : package ∈ inputs.packages)
    (hmem : (p, content) ∈ package.2) (hread : (p, some content') ∈ reads)
    (hne : content' ≠ content) : ¬OfVersion root version inputs reads := by
  rintro ⟨hhashes, hreads⟩
  obtain ⟨hp, hdirect, hfile⟩ := hhashes.file_of_mem hpackage hmem
  exact hne (Option.some.inj ((hreads _ hread hp hdirect).trans hfile))

/-- **What is not stamped is not told of**: a file that lies where the graph is written and is
edited between hashing and loading, and a directory outside that is another one while a link through
it is loaded. -/
theorem published_of_two_versions :
    (∃ (s : BuildState String) (inputs : BuildInputs String),
      (sliceMachine ["w"] ["w", "g"] (oneFile "g" "a")).Reachable Machine.Any s ∧
      s.phase = .published inputs ∧
        ¬∃ version ∈ s.versions, HashesTo ["w"] version inputs ∧
          ∀ x ∈ s.reads, isHashed ["w"] x.1 = true → version.Direct x.1 →
            x.2 = version.file x.1) ∧
    ∃ (s : BuildState String) (inputs : BuildInputs String),
      (sliceMachine ["w"] ["g"] oneLink).Reachable Machine.Any s ∧ s.phase = .published inputs ∧
        ¬∃ version ∈ s.versions, HashesTo ["w"] version inputs ∧
          ∀ x ∈ s.reads, isHashed ["w"] x.1 = true → version.Direct x.1 →
            x.2 = version.file x.1 := by
  constructor
  · have hreach := Machine.reachable_get (by decide +kernel :
      ((sliceMachine ["w"] ["w", "g"] (oneFile "g" "a")).run
        (sliceMachine ["w"] ["w", "g"] (oneFile "g" "a")).start
        (fullBuild 14 4 [.edit [.file 0 "b"], .read ["g", "x.rs"]])).isSome = true)
    refine ⟨_, ⟨[], [([], [(["g", "x.rs"], "a")])]⟩, hreach, rfl, ?_⟩
    rintro ⟨version, -, hversion⟩
    exact not_ofVersion List.mem_cons_self List.mem_cons_self
      (List.mem_singleton.2 rfl : (["g", "x.rs"], some "b") ∈ _) (by decide) hversion
  · have hreach := Machine.reachable_get (by decide +kernel :
      ((sliceMachine ["w"] ["g"] oneLink).run (sliceMachine ["w"] ["g"] oneLink).start
        (fullBuild 12 4 [.edit [.dir 1 (folder "d" (.node (.dir 3)))], .read ["x.rs"],
          .edit [.dir 1 (folder "d" (.node (.dir 2)))]])).isSome = true)
    refine ⟨_, ⟨[], [([], [(["x.rs"], "a")])]⟩, hreach, rfl, ?_⟩
    rintro ⟨version, -, hversion⟩
    exact not_ofVersion List.mem_cons_self List.mem_cons_self
      (List.mem_singleton.2 rfl : (["x.rs"], some "b") ∈ _) (by decide) hversion

/-- Only the contents of files are edited. -/
def editsFiles (_ : BuildState String) : BuildStep String → Bool
  | .edit changes => changes.all fun change ↦
    match change with
    | .dir _ _ => false
    | .file _ _ => true
  | _ => true

theorem leavesAlone_of_editsFiles (s : BuildState String) (e : BuildStep String)
    (h : editsFiles s e = true) : LeavesAlone ["w"] ["g"] s e := by
  cases e with
  | edit changes =>
    have hnone : ∀ i, changes.findSome? (Change.dirOf i) = none := by
      intro i
      refine List.findSome?_eq_none_iff.2 fun change hchange ↦ ?_
      have hfile := List.all_eq_true.1 h change hchange
      cases change with
      | dir => cases hfile
      | file => rfl
    have hdirs : ∀ i, (s.tree.apply changes).dirs i = s.tree.dirs i := by
      intro i
      rw [apply]
      dsimp only
      rw [hnone]
    refine ⟨fun p _ hpre ↦ absurd (List.cons_prefix_cons.1 hpre).1 (by decide),
      fun mixed hwatched hother p _ _ _ ↦ ?_⟩
    rw [resolve_congr fun i ↦ ?_]
    by_cases hi : Watched ["w"] ["g"] s.tree i
    · rw [hwatched i hi]
    · rw [hother i hi, hdirs]
  | _ => trivial

/-- The file that the link leads to is edited while it is loaded, and the build starts over. -/
theorem published_of_one_version_edited : ∃ (s : BuildState String) (inputs : BuildInputs String),
    s.phase = .published inputs ∧ s.attempt = 1 ∧ s.reads = [(["x.rs"], some "c")] ∧
    ∃ version ∈ s.versions, HashesTo ["w"] version inputs ∧
      ∀ x ∈ s.reads, isHashed ["w"] x.1 = true → version.Direct x.1 → x.2 = version.file x.1 := by
  have hrun := Option.some_get (by decide +kernel :
    ((sliceMachine ["w"] ["g"] oneLink).runIf editsFiles (sliceMachine ["w"] ["g"] oneLink).start
      (List.replicate 12 BuildStep.walk ++ [.choose false, .edit [.file 0 "c"], .read ["x.rs"],
        .loaded] ++ List.replicate 4 BuildStep.walk ++ [.retry] ++
        fullBuild 12 4 [.read ["x.rs"]])).isSome = true)
  exact ⟨_, _, rfl, rfl, rfl, published_of_one_version
    ⟨_, Machine.runs_of_runIf leavesAlone_of_editsFiles hrun.symm⟩ rfl⟩

end RustCodeMcp.Graph
