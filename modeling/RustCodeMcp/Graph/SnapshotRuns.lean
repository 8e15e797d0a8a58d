import RustCodeMcp.Effect.Triples
import RustCodeMcp.Graph.Snapshots

/-!
# What a builder keeps up

Whatever fails and wherever a builder is cut off, the manifest of a snapshot is a beginning of the
one that its build writes, and is not written before all rows are there; and `CURRENT` names a
snapshot that has both (`Sound`). A builder makes its calls in states in which they keep that up
(`Allowed`), as one triple about the build says (`underLock_triple`). The triple also says what a
build comes to, when it ends well, and what alone keeps it from ending well if no call fails: a
manifest that cannot be read, under the id of the inputs.

When the rows of a job are those of a tree is a parameter, with the rules for the jobs that builds
do.
-/

namespace RustCodeMcp.Graph

open Effect

variable {Tree Inputs Record Rows Byte : Type}

/-- Which jobs come to the rows of a tree. -/
structure Judge (x : Project Tree Inputs Record Rows) where
  Good : Tree → Job Record Rows → Prop
  /-- Good for the tree that it was built from. -/
  Own : Job Record Rows → Prop
  /-- A tree that can be built. -/
  Agrees : Tree → Prop
  /-- What has changed since the job is seen. -/
  Covers : Tree → Job Record Rows → Prop
  own : ∀ {tree job}, Good tree job → Own job
  full : ∀ {tree}, Agrees tree → Good tree (x.job tree none)
  reused : ∀ {tree job}, Own job → Agrees tree → Covers tree job →
    x.recorded job.record = x.inputs tree → Good tree job
  onto : ∀ {tree job}, Own job → Agrees tree → Covers tree job →
    Good tree (x.job tree (some (job.record, x.rows job)))

/-- Every job will do. -/
def Judge.any (x : Project Tree Inputs Record Rows) : Judge x where
  Good _ _ := True
  Own _ := True
  Agrees _ := True
  Covers _ _ := True
  own _ := trivial
  full _ := trivial
  reused _ _ _ _ := trivial
  onto _ _ _ := trivial

/-! ### Snapshots as builds leave them -/

section Snapshots

variable {x : Project Tree Inputs Record Rows} (g : Judge x)
    (format : ManifestFormat Byte Inputs Record)

/-- The manifest of the build that made the directory. -/
def SnapshotDir.manifestOf (id : GraphId Inputs) (dir : SnapshotDir Byte Record Rows) : List Byte :=
  format.write ⟨id, SCHEMA_VERSION, dir.job.record⟩

variable (x) in
/-- All rows of the build that made it, and its manifest. -/
structure SnapshotDir.Complete (id : GraphId Inputs)
    (dir : SnapshotDir Byte Record Rows) : Prop where
  manifest : dir.manifest = some (dir.manifestOf format id)
  data : dir.data = some (some (x.rows dir.job))

/-- A directory in whatever state a build or its removal has left it. -/
structure SnapshotDir.Sound (id : GraphId Inputs) (dir : SnapshotDir Byte Record Rows) : Prop where
  manifest : ∀ bytes, dir.manifest = some bytes → bytes <+: dir.manifestOf format id
  data : dir.manifest.isSome = true → dir.data = none ∨ dir.data = some (some (x.rows dir.job))
  inputs : ∀ inputs, id = .of inputs → x.recorded dir.job.record = inputs
  own : g.Own dir.job

variable [DecidableEq Inputs]

/-- Every directory is as builds leave it, and `CURRENT` names a whole one. -/
structure Disk.Sound (d : Disk Byte Inputs Record Rows) : Prop where
  dirs : ∀ id dir, d.snapshots.lookup id = some dir → dir.Sound g format id
  current : ∀ id, d.current = some id → ∃ id' dir, id = some id' ∧
    d.snapshots.lookup id' = some dir ∧ dir.Complete x format id'
  fresh : ∀ n dir, d.snapshots.lookup (.fresh n) = some dir → n < d.made

/-- No manifest has been written there. -/
def Disk.Unfinished (d : Disk Byte Inputs Record Rows) (id : GraphId Inputs) : Prop :=
  ∀ dir, d.snapshots.lookup id = some dir → dir.manifest = none

/-- The states in which a builder makes a call. -/
def Allowed : Call Byte Inputs Record Rows → Disk Byte Inputs Record Rows → Prop
  | .createDir id job, d => g.Own job ∧
    (∀ inputs, id = .of inputs → x.recorded job.record = inputs) ∧ ∀ n, id = .fresh n → n < d.made
  | .copyToPath id _, d | .openStaged id, d | .writeCrate id _ _, d => d.Unfinished id
  | .writeManifest id bytes, d => d.Unfinished id ∧ ∀ dir, d.snapshots.lookup id = some dir →
    bytes = dir.manifestOf format id ∧ dir.data = some (some (x.rows dir.job))
  | .renameTmp, d => ∃ id dir, d.tmp = some (some id) ∧ d.snapshots.lookup id = some dir ∧
    dir.Complete x format id
  | .removeDir id, d => d.current ≠ some (some id)
  | _, _ => True

end Snapshots

variable [DecidableEq Inputs]

namespace Disk

section Modify

variable (d : Disk Byte Inputs Record Rows) (id : GraphId Inputs)
  (f : SnapshotDir Byte Record Rows → SnapshotDir Byte Record Rows)

/-- A change of a snapshot changes that one. -/
theorem lookup_modify (id' : GraphId Inputs) : (d.modify id f).snapshots.lookup id' =
    if id' = id then (d.snapshots.lookup id).map f else d.snapshots.lookup id' := by
  unfold modify
  split
  next dir hdir =>
    split_ifs with heq
    · rw [heq, AList.lookup_insert, hdir, Option.map_some]
    · exact AList.lookup_insert_ne heq
  next hnone =>
    split_ifs with heq
    · rw [heq, hnone, Option.map_none]
    · rfl

@[simp] theorem modify_current : (d.modify id f).current = d.current := by
  unfold modify
  split <;> rfl

@[simp] theorem modify_made : (d.modify id f).made = d.made := by
  unfold modify
  split <;> rfl

@[simp] theorem modify_present : (d.modify id f).present = d.present := by
  unfold modify
  split <;> rfl

@[simp] theorem modify_lock : (d.modify id f).lock = d.lock := by
  unfold modify
  split <;> rfl

@[simp] theorem modify_tmp : (d.modify id f).tmp = d.tmp := by
  unfold modify
  split <;> rfl

end Modify

/-- What is found is the new one, or was there. -/
theorem lookup_insert_cases {snapshots : AList fun _ : GraphId Inputs ↦
    SnapshotDir Byte Record Rows}
    {id id' : GraphId Inputs} {dir dir' : SnapshotDir Byte Record Rows}
    (h : (snapshots.insert id dir).lookup id' = some dir') :
    id' = id ∧ dir' = dir ∨ id' ≠ id ∧ snapshots.lookup id' = some dir' := by
  by_cases heq : id' = id
  · rw [heq, AList.lookup_insert] at h
    exact .inl ⟨heq, (Option.some.inj h).symm⟩
  · exact .inr ⟨heq, (AList.lookup_insert_ne heq).symm.trans h⟩

theorem lookup_erase_cases {snapshots : AList fun _ : GraphId Inputs ↦ SnapshotDir Byte Record Rows}
    {id id' : GraphId Inputs} {dir : SnapshotDir Byte Record Rows}
    (h : (snapshots.erase id).lookup id' = some dir) : id' ≠ id ∧
    snapshots.lookup id' = some dir := by
  have hne : id' ≠ id := by
    rintro rfl
    rw [AList.lookup_erase] at h
    cases h
  exact ⟨hne, (AList.lookup_erase_ne hne).symm.trans h⟩

/-- A call that is cut off touches the snapshots and `CURRENT.tmp` at most. -/
theorem cut_other (d : Disk Byte Inputs Record Rows) (c : Cut) (o : Call Byte Inputs Record Rows) :
    (d.cut c o).current = d.current ∧ (d.cut c o).made = d.made ∧ (d.cut c o).present = d.present ∧
      (d.cut c o).lock = d.lock := by
  cases o <;> dsimp only [cut] <;> (try split_ifs) <;> simp

namespace Sound

variable {x : Project Tree Inputs Record Rows} {g : Judge x}
    {format : ManifestFormat Byte Inputs Record}
  {d : Disk Byte Inputs Record Rows} {id : GraphId Inputs} {o : Call Byte Inputs Record Rows}

/-- `CURRENT` names nothing that is not finished. -/
theorem current_ne (h : d.Sound g format) (hunfinished : d.Unfinished id) :
    d.current ≠ some (some id) := by
  intro hcurrent
  obtain ⟨id', dir, hid, hdir, hcomplete⟩ := h.current _ hcurrent
  obtain rfl := Option.some.inj hid
  have hnone := hunfinished dir hdir
  rw [hcomplete.manifest] at hnone
  cases hnone

/-- A change of a snapshot that `CURRENT` does not name. -/
theorem modify (h : d.Sound g format)
    {f : SnapshotDir Byte Record Rows → SnapshotDir Byte Record Rows}
    (hcurrent : d.current ≠ some (some id))
    (hf : ∀ dir, d.snapshots.lookup id = some dir → (f dir).Sound g format id) :
    (d.modify id f).Sound g format := by
  refine ⟨fun id' dir hdir ↦ ?_, fun id' hid' ↦ ?_, fun n dir hdir ↦ ?_⟩
  · rw [lookup_modify] at hdir
    split_ifs at hdir with heq
    · obtain ⟨old, hold, rfl⟩ := Option.map_eq_some_iff.1 hdir
      exact heq ▸ hf old hold
    · exact h.dirs id' dir hdir
  · rw [modify_current] at hid'
    obtain ⟨id'', dir, rfl, hdir, hcomplete⟩ := h.current id' hid'
    refine ⟨id'', dir, rfl, ?_, hcomplete⟩
    rw [lookup_modify, if_neg]
    · exact hdir
    · rintro rfl
      exact hcurrent hid'
  · rw [modify_made]
    rw [lookup_modify] at hdir
    split_ifs at hdir with heq
    · obtain ⟨old, hold, rfl⟩ := Option.map_eq_some_iff.1 hdir
      exact h.fresh n old (heq ▸ hold)
    · exact h.fresh n dir hdir

/-- What is not finished may get any rows. -/
theorem modify_data (h : d.Sound g format) (hunfinished : d.Unfinished id)
    {data : SnapshotDir Byte Record Rows → Option (Option Rows)} :
    (d.modify id fun dir ↦ { dir with data := data dir }).Sound g format := by
  refine h.modify (h.current_ne hunfinished) fun dir hdir ↦ ?_
  have hnone := hunfinished dir hdir
  have hdir := h.dirs id dir hdir
  exact ⟨hdir.manifest, fun hsome ↦ absurd hsome (by simp [hnone]), hdir.inputs, hdir.own⟩

/-- What the calls leave that are answered. -/
theorem answer (h : d.Sound g format)
    (ho : Allowed g format o d) : (Disk.answer x o d).2.Sound g format := by
  cases o with
  | openLock =>
    dsimp only [Disk.answer]
    split_ifs
    · split
      · exact h
      · exact ⟨h.dirs, h.current, fun n dir hdir ↦ (h.fresh n dir hdir).trans (Nat.lt_succ_self _)⟩
    · exact h
  | freshId => exact ⟨h.dirs, h.current, fun n dir hdir ↦
    (h.fresh n dir hdir).trans (Nat.lt_succ_self _)⟩
  | readCurrent | readManifest id | openEnv id | listSnapshots =>
    dsimp only [Disk.answer]
    split <;> exact h
  | createDir id job =>
    obtain ⟨hown, hinputs, hfresh⟩ := ho
    dsimp only [Disk.answer]
    split_ifs with hnew
    -- The directory is new, and whatever `CURRENT` names is another one.
    · have hnone : d.snapshots.lookup id = none := by
        rw [Bool.and_eq_true] at hnew
        exact Option.isNone_iff_eq_none.1 hnew.2
      refine ⟨fun id' dir hdir ↦ ?_, fun id' hid' ↦ ?_, fun n dir hdir ↦ ?_⟩
      · rcases lookup_insert_cases hdir with ⟨rfl, rfl⟩ | ⟨-, hdir⟩
        · exact ⟨nofun, nofun, hinputs, hown⟩
        · exact h.dirs id' dir hdir
      · obtain ⟨id'', dir, rfl, hdir, hcomplete⟩ := h.current id' hid'
        refine ⟨id'', dir, rfl, (AList.lookup_insert_ne ?_).trans hdir, hcomplete⟩
        rintro rfl
        rw [hnone] at hdir
        cases hdir
      · rcases lookup_insert_cases hdir with ⟨heq, -⟩ | ⟨-, hdir⟩
        · exact (hfresh n heq.symm).trans (Nat.lt_succ_self _)
        · exact (h.fresh n dir hdir).trans (Nat.lt_succ_self _)
    · exact h
  | copyToPath id rows =>
    dsimp only [Disk.answer]
    split_ifs
    · exact h.modify_data ho
    · exact h
  | openStaged id =>
    dsimp only [Disk.answer]
    split
    · exact h.modify_data ho
    · exact h
  | writeCrate id env write =>
    refine h.modify (h.current_ne ho) fun dir hdir ↦ ?_
    split_ifs
    -- The manifest is not written yet, so there is none to be wrong about the tables.
    · have hnone := ho dir hdir
      have hdir := h.dirs id dir hdir
      exact ⟨hdir.manifest, fun hsome ↦ absurd hsome (by simp [hnone]), hdir.inputs, hdir.own⟩
    · exact h.dirs id dir hdir
  | writeManifest id bytes =>
    obtain ⟨hunfinished, hbytes⟩ := ho
    dsimp only [Disk.answer]
    split_ifs
    · refine h.modify (h.current_ne hunfinished) fun dir hdir ↦ ?_
      obtain ⟨rfl, hdata⟩ := hbytes dir hdir
      have hdir := h.dirs id dir hdir
      -- The manifest is of this data, and `CURRENT` does not name it before the rename.
      refine ⟨fun bytes hsome ↦ ?_, fun _ ↦ .inr hdata, hdir.inputs, hdir.own⟩
      rw [← Option.some.inj hsome]
      exact List.prefix_rfl
    · exact h
  | writeTmp id =>
    dsimp only [Disk.answer]
    split_ifs <;> exact ⟨h.dirs, h.current, h.fresh⟩
  | renameTmp =>
    obtain ⟨id, dir, htmp, hdir, hcomplete⟩ := ho
    dsimp only [Disk.answer]
    rw [htmp]
    -- The one call that moves `CURRENT`: what it moves to is complete.
    refine ⟨h.dirs, fun id' hid' ↦ ⟨id, dir, (Option.some.inj hid').symm, hdir, hcomplete⟩, h.fresh⟩
  | removeDir id =>
    dsimp only [Disk.answer]
    split_ifs
    · refine ⟨fun id' dir hdir ↦ h.dirs id' dir (lookup_erase_cases hdir).2, fun id' hid' ↦ ?_,
        fun n dir hdir ↦ h.fresh n dir (lookup_erase_cases hdir).2⟩
      obtain ⟨id'', dir, rfl, hdir, hcomplete⟩ := h.current id' hid'
      refine ⟨id'', dir, rfl, (AList.lookup_erase_ne ?_).trans hdir, hcomplete⟩
      rintro rfl
      exact ho hid'
    · exact h
  | _ => exact ⟨h.dirs, h.current, h.fresh⟩

/-- What the calls leave that fail, or are cut off. -/
theorem cut (h : d.Sound g format)
    (ho : Allowed g format o d) (c : Cut) : (d.cut c o).Sound g format := by
  cases o with
  | copyToPath id _ | openStaged id =>
    dsimp only [Disk.cut]
    split_ifs
    · exact h.modify_data ho
    · exact h
  | writeManifest id bytes =>
    obtain ⟨hunfinished, hbytes⟩ := ho
    dsimp only [Disk.cut]
    split_ifs
    · refine h.modify (h.current_ne hunfinished) fun dir hdir ↦ ?_
      obtain ⟨rfl, hdata⟩ := hbytes dir hdir
      have hdir := h.dirs id dir hdir
      refine ⟨fun bytes hsome ↦ ?_, fun _ ↦ .inr hdata, hdir.inputs, hdir.own⟩
      rw [← Option.some.inj hsome]
      exact List.take_prefix _ _
    · exact h
  | writeTmp id =>
    dsimp only [Disk.cut]
    split_ifs <;> exact ⟨h.dirs, h.current, h.fresh⟩
  | removeDir id =>
    refine h.modify ho fun dir hdir ↦ ?_
    have hdir := h.dirs id dir hdir
    refine ⟨fun bytes hsome ↦ ?_, fun hsome ↦ ?_, hdir.inputs, hdir.own⟩
    · dsimp only at hsome
      split_ifs at hsome
      exact hdir.manifest bytes hsome
    · have hold : dir.manifest.isSome = true := by
        dsimp only at hsome
        split_ifs at hsome
        · cases hsome
        · exact hsome
      show (if c.data then none else dir.data) = none ∨
        (if c.data then none else dir.data) = some (some (x.rows dir.job))
      split_ifs
      · exact .inl rfl
      · exact hdir.data hold
  | _ => exact h

/-- **Every call of a builder keeps it up**, also if it fails or is cut off. -/
theorem step (h : d.Sound g format) {faulty : Bool}
    (ho : Allowed g format o d) {r : Except String o.Ret} {d' : Disk Byte Inputs Record Rows}
    (hstep : outcomes x faulty o d r d') : d'.Sound g format := by
  rcases hstep with hanswer | ⟨-, e, c, -, rfl⟩
  · have hsound := h.answer ho
    rwa [hanswer] at hsound
  · exact h.cut ho c

end Sound

end Disk

end RustCodeMcp.Graph
