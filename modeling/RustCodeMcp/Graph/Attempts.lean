import RustCodeMcp.Graph.SnapshotRuns

/-!
# What a build comes to

The triple about `underLock`, from the triples about its parts, in the order in which they run: what
is reused, what is planned, what is staged and published, and what is removed afterwards.

**Each part is proved for a disk of which little is known**: that it is sound, that the builder has
made a certain directory, or that `CURRENT` names a certain snapshot. The triples say at once what a
part comes to if its calls succeed, what it leaves if one fails, and that every call is made where
it may be; the last is what the proofs about builders that are cut off need, and it costs nothing
extra here.

Calls that only look are treated alike (`triple_read`): what they answer is so, whatever else may go
wrong, and so a part that looks three times and then writes is proved from its writes.
-/

namespace RustCodeMcp.Graph

open Effect

variable {Tree Inputs Record Rows Byte : Type} [DecidableEq Inputs]
    {x : Project Tree Inputs Record Rows}
  {g : Judge x} {format : ManifestFormat Byte Inputs Record} {faulty : Bool}
    {e : Attempt Tree Inputs}
  {d : Disk Byte Inputs Record Rows} {id : GraphId Inputs} {job : Job Record Rows} {env : ℕ}
  {o : Call Byte Inputs Record Rows}

/-! ### Calls -/

/-- A call in a known state. -/
theorem triple_at {Mid : o.Ret → Disk Byte Inputs Record Rows → Prop}
    {Err : Disk Byte Inputs Record Rows → Prop} (hallowed : Allowed g format o d)
    (hok : ∀ a, (Disk.answer x o d).1 = .ok a → Mid a (Disk.answer x o d).2)
    (herr : ∀ err, (Disk.answer x o d).1 = .error err → Err (Disk.answer x o d).2)
    (hcut : ∀ c, faulty = true → Err (d.cut c o)) :
    Triple (outcomes x faulty) (Allowed g format) (· = d) (call o) Mid Err := by
  refine .perform ?_ ?_ ?_
  · rintro _ rfl
    exact hallowed
  · rintro _ a d' rfl (hanswer | ⟨-, err, c, hr, -⟩)
    · rw [hanswer] at hok
      exact hok a rfl
    · cases hr
  · rintro _ err d' rfl (hanswer | ⟨hfaulty, -, c, -, rfl⟩)
    · rw [hanswer] at herr
      exact herr err rfl
    · exact hcut c hfaulty

/-- The calls that only look. -/
def Call.Reads : Call Byte Inputs Record Rows → Prop
  | .workspace _ | .currentExists | .readCurrent | .manifestExists
    _ | .readManifest _ | .dataExists _
  | .snapshotExists _ | .openEnv _ | .listSnapshots => True
  | _ => False

theorem Call.Reads.answer (ho : o.Reads) : (Disk.answer x o d).2 = d := by
  cases o <;> first | exact ho.elim | rfl | (dsimp only [Disk.answer]; split <;> rfl)

theorem Call.Reads.cut (ho : o.Reads) (c : Disk.Cut) : d.cut c o = d := by
  cases o <;> first | exact ho.elim | rfl

theorem Call.Reads.allowed (ho : o.Reads) : Allowed g format o d := by
  cases o <;> first | exact ho.elim | trivial

/-- What such a call answers is so, and if it fails, that is its answer or something is wrong. -/
theorem triple_read (ho : o.Reads) : Triple (outcomes x faulty) (Allowed g format) (· = d) (call o)
      (fun a d' ↦ d' = d ∧ (Disk.answer x o d).1 = .ok a)
      fun d' ↦ d' = d ∧ (faulty = true ∨ ∃ err, (Disk.answer x o d).1 = .error err) :=
  triple_at ho.allowed (fun _ ha ↦ ⟨ho.answer, ha⟩) (fun err herr ↦ ⟨ho.answer, .inr ⟨err, herr⟩⟩)
    fun c hfaulty ↦ ⟨ho.cut c, .inl hfaulty⟩

/-- A look whose answer is known. -/
theorem triple_known (ho : o.Reads) {a : o.Ret} (ha : (Disk.answer x o d).1 = .ok a) {β : Type}
    {f : o.Ret → GraphProg Byte Inputs Record Rows β}
    {Post : β → Disk Byte Inputs Record Rows → Prop} {Err : Disk Byte Inputs Record Rows → Prop}
    (hf : Triple (outcomes x faulty) (Allowed g format) (· = d) (f a) Post Err)
    (hfaulty : faulty = true → Err d) :
    Triple (outcomes x faulty) (Allowed g format) (· = d) (call o >>= f) Post Err := by
  refine Triple.bind (M := fun b d' ↦ b = a ∧ d' = d) ((triple_read ho).conseq (fun _ h ↦ h) ?_ ?_)
    fun b ↦ .of_forall ?_
  · rintro b _ ⟨rfl, hb⟩
    exact ⟨Except.ok.inj (hb.symm.trans ha), rfl⟩
  · rintro _ ⟨rfl, hwrong | ⟨err, herr⟩⟩
    · exact hfaulty hwrong
    · rw [ha] at herr
      cases herr
  · rintro _ ⟨rfl, rfl⟩
    exact hf

/-- Something is asked of the workspace. -/
theorem triple_workspace {Pre : Disk Byte Inputs Record Rows → Prop} {what : String} :
    Triple (outcomes x faulty) (Allowed g format) Pre (call (.workspace what)) (fun _ ↦ Pre)
      fun d ↦ faulty = true ∧ Pre d := by
  refine .of_forall fun d hd ↦ (triple_read (o := .workspace what) trivial).conseq
    (fun _ h ↦ h) ?_ ?_
  · rintro - _ ⟨rfl, -⟩
    exact hd
  · rintro _ ⟨rfl, hfaulty | ⟨err, herr⟩⟩
    · exact ⟨hfaulty, hd⟩
    · cases herr

/-! ### Manifests -/

/-- The manifest under that id cannot be read. -/
def Disk.Torn (format : ManifestFormat Byte Inputs Record) (d : Disk Byte Inputs Record Rows)
    (id : GraphId Inputs) : Prop :=
  ∃ dir bytes err, d.snapshots.lookup id = some dir ∧ dir.manifest = some bytes ∧
    format.read bytes = .error err

section

variable {bytes : List Byte}

omit [DecidableEq Inputs] in
theorem parseManifest_ok {manifest : GraphManifest Inputs Record}
    (h : format.read bytes = .ok manifest) :
    (parseManifest format bytes : GraphProg Byte Inputs Record Rows _) = pure manifest := by
  unfold parseManifest
  rw [h]

omit [DecidableEq Inputs] in
theorem parseManifest_error {err : String} (h : format.read bytes = .error err) :
    (parseManifest format bytes : GraphProg Byte Inputs Record Rows _) =
      .fail ("failed to parse manifest: " ++ err) := by
  unfold parseManifest
  rw [h]

end

/-- What is read as a manifest is that of the build. -/
theorem triple_manifest (h : d.Sound g format) {β : Type}
    {f : GraphManifest Inputs Record → GraphProg Byte Inputs Record Rows β}
    {Post : β → Disk Byte Inputs Record Rows → Prop} {Err : Disk Byte Inputs Record Rows → Prop}
    (hread : ∀ dir, d.snapshots.lookup id = some dir →
    dir.manifest = some (dir.manifestOf format id) →
      Triple (outcomes x faulty) (Allowed g format) (· = d)
        (f ⟨id, SCHEMA_VERSION, dir.job.record⟩) Post Err)
    (hmissing : (d.snapshots.lookup id).bind SnapshotDir.manifest = none → Err d)
    (htorn : d.Torn format id → Err d) (hfaulty : faulty = true → Err d) :
    Triple (outcomes x faulty) (Allowed g format) (· = d)
      (call (.readManifest id) >>= fun bytes ↦ parseManifest format bytes >>= f) Post Err := by
  refine Triple.bind (M := fun bytes d' ↦ d' = d ∧
    (d.snapshots.lookup id).bind SnapshotDir.manifest = some bytes)
    ((triple_read (o := .readManifest id) trivial).conseq (fun _ h ↦ h) ?_ ?_) fun bytes ↦ ?_
  · rintro bytes _ ⟨rfl, hbytes⟩
    refine ⟨rfl, ?_⟩
    dsimp only [Disk.answer] at hbytes
    split at hbytes
    next found hfound => rw [hfound, Except.ok.inj hbytes]
    next => cases hbytes
  · rintro _ ⟨rfl, hwrong | ⟨err, herr⟩⟩
    · exact hfaulty hwrong
    · dsimp only [Disk.answer] at herr
      split at herr
      next => cases herr
      next hnone => exact hmissing hnone
  · refine .of_forall fun d' hd' ↦ ?_
    obtain ⟨rfl, hbytes⟩ := hd'
    obtain ⟨dir, hdir, hmanifest⟩ := Option.bind_eq_some_iff.1 hbytes
    rcases hparse : format.read bytes with err | manifest
    · rw [parseManifest_error hparse, Prog.fail_bind]
      refine .fail ?_
      rintro _ rfl
      exact htorn ⟨dir, bytes, err, hdir, hmanifest, hparse⟩
    · obtain ⟨rfl, rfl⟩ := format.eq_of_read ((h.dirs id dir hdir).manifest bytes hmanifest) hparse
      rw [parseManifest_ok hparse]
      exact hread dir hdir hmanifest

/-- What keeps a manifest from being read. -/
def Disk.Unreadable (d : Disk Byte Inputs Record Rows) (faulty : Bool)
    (format : ManifestFormat Byte Inputs Record) (id : GraphId Inputs) : Prop :=
  faulty = true ∨ (d.snapshots.lookup id).bind SnapshotDir.manifest = none ∨ d.Torn format id

/-- What is read of a snapshot is its manifest, which is of a build. -/
theorem triple_readManifest (h : d.Sound g format) :
    Triple (outcomes x faulty) (Allowed g format) (· = d) (readManifest format id)
      (fun manifest d' ↦ d' = d ∧ ∃ dir, d.snapshots.lookup id = some dir ∧
        dir.manifest = some (dir.manifestOf format id) ∧
        manifest = ⟨id, SCHEMA_VERSION, dir.job.record⟩)
      fun d' ↦ d' = d ∧ d.Unreadable faulty format id := by
  refine triple_manifest h (fun dir hdir hmanifest ↦ ?_) (fun hnone ↦ ⟨rfl, .inr (.inl hnone)⟩)
    (fun htorn ↦ ⟨rfl, .inr (.inr htorn)⟩) fun hfaulty ↦ ⟨rfl, .inl hfaulty⟩
  rw [if_neg (not_not.2 rfl)]
  exact .ret fun d' hd' ↦ ⟨hd', dir, hdir, hmanifest, rfl⟩

theorem triple_readManifestCompatible (h : d.Sound g format) :
    Triple (outcomes x faulty) (Allowed g format) (· = d) (readManifestCompatible format id)
      (fun manifest d' ↦ d' = d ∧ ∃ dir, d.snapshots.lookup id = some dir ∧
        dir.manifest = some (dir.manifestOf format id) ∧
          manifest = some ⟨id, SCHEMA_VERSION, dir.job.record⟩)
      fun d' ↦ d' = d ∧ d.Unreadable faulty format id := by
  refine triple_manifest h (fun dir hdir hmanifest ↦ ?_) (fun hnone ↦ ⟨rfl, .inr (.inl hnone)⟩)
    (fun htorn ↦ ⟨rfl, .inr (.inr htorn)⟩) fun hfaulty ↦ ⟨rfl, .inl hfaulty⟩
  rw [if_neg (not_not.2 rfl)]
  exact .ret fun d' hd' ↦ ⟨hd', dir, hdir, hmanifest, rfl⟩

/-! ### Reuse -/

namespace Disk

/-- What is published was built from these inputs. -/
def HasCurrent (x : Project Tree Inputs Record Rows) (d : Disk Byte Inputs Record Rows)
    (inputs : Inputs) : Prop :=
  ∃ id dir, d.current = some (some id) ∧ d.snapshots.lookup id = some dir ∧
    x.recorded dir.job.record = inputs

/-- A snapshot is there, as it was built. -/
structure Holds (x : Project Tree Inputs Record Rows) (format : ManifestFormat Byte Inputs Record)
    (id : GraphId Inputs) (job : Job Record Rows) (d : Disk Byte Inputs Record Rows) : Prop where
  dir : ∃ dir, d.snapshots.lookup id = some dir ∧ dir.Complete x format id ∧ dir.job = job

theorem Sound.holds_current (h : d.Sound g format) (hcurrent : d.current = some (some id)) :
    ∃ job, d.Holds x format id job := by
  obtain ⟨id', dir, hid, hdir, hcomplete⟩ := h.current _ hcurrent
  obtain rfl := Option.some.inj hid
  exact ⟨dir.job, dir, hdir, hcomplete, rfl⟩

omit [DecidableEq Inputs] in
/-- A snapshot as it was built has a manifest that can be read. -/
theorem not_torn_of_complete {dir : SnapshotDir Byte Record Rows} (h : dir.Complete x format id)
    {bytes : List Byte} (hbytes : dir.manifest = some bytes) {err : String}
    (hread : format.read bytes = .error err) : False := by
  rw [h.manifest] at hbytes
  rw [← Option.some.inj hbytes, SnapshotDir.manifestOf, format.read_write] at hread
  cases hread

theorem Holds.manifestExists (h : d.Holds x format id job) :
    (Disk.answer x (.manifestExists id) d).1 = .ok true := by
  obtain ⟨dir, hdir, hcomplete, -⟩ := h.dir
  dsimp only [Disk.answer]
  rw [hdir, Option.any_some, hcomplete.manifest]
  rfl

theorem Holds.readable (h : d.Holds x format id job) (hunreadable : d.Unreadable faulty format id) :
    faulty = true := by
  obtain ⟨dir, hdir, hcomplete, -⟩ := h.dir
  rcases hunreadable with hfaulty | hnone | ⟨dir', bytes, err, hdir', hbytes, hread⟩
  · exact hfaulty
  · rw [hdir, Option.bind_some, hcomplete.manifest] at hnone
    cases hnone
  · obtain rfl := Option.some.inj (hdir.symm.trans hdir')
    exact (not_torn_of_complete hcomplete hbytes hread).elim

end Disk

/-- The published snapshot if it is one of these inputs, and otherwise the one under their id. -/
theorem triple_reuseIdentity (h : d.Sound g format) {inputs : Inputs} :
    Triple (outcomes x faulty) (Allowed g format) (· = d) (reuseIdentity x format inputs)
      (fun id d' ↦ d' = d ∧ (d.current = some (some id) ∧ d.HasCurrent x inputs ∨
        id = .of inputs ∧ (faulty = true ∨ ¬d.HasCurrent x inputs)))
      fun _ ↦ faulty = true := by
  -- What `CURRENT` says, or that it cannot be read.
  refine Triple.bind (M := fun r d' ↦ d' = d ∧
    ((∃ id, r = .ok (some id) ∧ d.current = some (some id)) ∨
    (∀ id, r ≠ .ok (some id)) ∧ (faulty = true ∨ d.current = none)))
    ((triple_read (o := .readCurrent) trivial).attempt ?_ ?_) fun r ↦ .of_forall fun d' hd' ↦ ?_
  · rintro id _ ⟨rfl, hid⟩
    dsimp only [Disk.answer] at hid
    split at hid
    next found hfound =>
      obtain rfl := Except.ok.inj hid
      obtain ⟨id', -, rfl, -⟩ := h.current _ hfound
      exact ⟨rfl, .inl ⟨id', rfl, hfound⟩⟩
    next => cases hid
  · rintro err _ ⟨rfl, hwrong | ⟨err', herr⟩⟩
    · exact ⟨rfl, .inr ⟨nofun, .inl hwrong⟩⟩
    · dsimp only [Disk.answer] at herr
      split at herr
      next => cases herr
      next hnone => exact ⟨rfl, .inr ⟨nofun, .inr hnone⟩⟩
  · obtain ⟨rfl, ⟨id, rfl, hcurrent⟩ | ⟨hnot, hnone⟩⟩ := hd'
    -- It names a snapshot: reused if its inputs are these.
    · obtain ⟨job, hholds⟩ := h.holds_current hcurrent
      obtain ⟨dir, hdir, hcomplete, -⟩ := hholds.dir
      refine triple_known (o := .manifestExists id) trivial hholds.manifestExists ?_
        fun hfaulty ↦ hfaulty
      refine Triple.bind ((triple_readManifestCompatible h).conseq (fun _ h ↦ h) (fun _ _ h ↦ h)
        fun d'' hd'' ↦ hholds.readable hd''.2) fun manifest ↦ .ret ?_
      rintro _ ⟨rfl, dir', hdir', -, rfl⟩
      obtain rfl := Option.some.inj (hdir.symm.trans hdir')
      refine ⟨rfl, ?_⟩
      rw [Option.any_some]
      split_ifs with hsame
      · exact .inl ⟨hcurrent, id, dir, hcurrent, hdir, of_decide_eq_true hsame⟩
      · refine .inr ⟨rfl, .inr ?_⟩
        rintro ⟨id', dir', hcurrent', hdir', hinputs⟩
        obtain rfl := Option.some.inj (Option.some.inj (hcurrent.symm.trans hcurrent'))
        obtain rfl := Option.some.inj (hdir.symm.trans hdir')
        exact hsame (decide_eq_true hinputs)
    -- It names none: the snapshot to build is the one under the inputs' id.
    · have hreturn : ∀ prog : GraphProg Byte Inputs Record Rows (GraphId Inputs),
        prog = pure (.of inputs) →
          Triple (outcomes x faulty) (Allowed g format) (· = d') prog (fun id d'' ↦ d'' = d' ∧
            (d'.current = some (some id) ∧ d'.HasCurrent x inputs ∨
              id = .of inputs ∧ (faulty = true ∨ ¬d'.HasCurrent x inputs))) fun _ ↦
                faulty = true := by
        rintro _ rfl
        refine .ret fun d'' hd'' ↦ ⟨hd'', .inr ⟨rfl, hnone.imp id fun hnone ↦ ?_⟩⟩
        rintro ⟨id', dir', hcurrent', -⟩
        rw [hnone] at hcurrent'
        cases hcurrent'
      apply hreturn
      split
      next id => exact absurd rfl (hnot id)
      next => rfl

/-- What is reused is a whole snapshot. -/
theorem triple_tryReuse (h : d.Sound g format) :
    Triple (outcomes x faulty) (Allowed g format) (· = d) (tryReuseExistingSnapshot format id)
      (fun r d' ↦ d' = d ∧ ∀ result, r = some result →
        result.graphId = id ∧ ∃ job, d.Holds x format id job)
      fun _ ↦ faulty = true ∨ d.Torn format id := by
  rcases hexists : (d.snapshots.lookup id).any fun dir ↦ dir.manifest.isSome with - | -
  · refine triple_known (o := .manifestExists id) trivial
      (congrArg Except.ok hexists) (.ret ?_) .inl
    rintro _ rfl
    exact ⟨rfl, nofun⟩
  refine triple_known (o := .manifestExists id) trivial (congrArg Except.ok hexists) ?_ .inl
  refine Triple.bind ((triple_readManifest h).conseq (fun _ h ↦ h) (fun _ _ h ↦ h) ?_)
    fun manifest ↦ .of_forall fun d' hd' ↦ ?_
  · rintro _ ⟨-, hfaulty | hnone | htorn⟩
    · exact .inl hfaulty
    · rw [Option.any_eq_true] at hexists
      obtain ⟨dir, hdir, hsome⟩ := hexists
      rw [hdir, Option.bind_some] at hnone
      rw [hnone] at hsome
      cases hsome
    · exact .inr htorn
  · obtain ⟨rfl, dir, hdir, hmanifest, rfl⟩ := hd'
    rcases hdata : (d'.snapshots.lookup id).any fun dir ↦ dir.data.isSome with - | -
    · refine triple_known (o := .dataExists id) trivial (congrArg Except.ok hdata) (.ret ?_) .inl
      rintro _ rfl
      exact ⟨rfl, nofun⟩
    · refine triple_known (o := .dataExists id) trivial (congrArg Except.ok hdata) (.ret ?_) .inl
      rintro _ rfl
      refine ⟨rfl, fun result hresult ↦ ?_⟩
      obtain rfl := Option.some.inj hresult
      refine ⟨rfl, dir.job, dir, hdir, ⟨hmanifest, ?_⟩, rfl⟩
      rw [hdir, Option.any_some] at hdata
      rcases (h.dirs id dir hdir).data (by rw [hmanifest]; rfl) with hnone | hwhole
      · rw [hnone] at hdata
        cases hdata
      · exact hwhole

/-! ### Publication -/

/-- `CURRENT` names the snapshot of that job. -/
structure Disk.Published (g : Judge x) (format : ManifestFormat Byte Inputs Record)
    (id : GraphId Inputs) (job : Job Record Rows) (d : Disk Byte Inputs Record Rows) : Prop where
  sound : d.Sound g format
  current : d.current = some (some id)
  holds : d.Holds x format id job

/-- The name of the snapshot is put into `CURRENT`. -/
theorem triple_publishCurrent (published : Option (Option (GraphId Inputs))) :
    Triple (outcomes x faulty) (Allowed g format)
      (fun d ↦ d.Sound g format ∧ d.present = true ∧ d.Holds x format id job ∧
      d.current = published) (publishCurrent id) (fun _ ↦ Disk.Published g format id job)
      fun d ↦ faulty = true ∧ d.current = published := by
  refine .of_forall fun d hd ↦ ?_
  obtain ⟨hsound, hpresent, ⟨dir, hdir, hcomplete, rfl⟩, hcurrent⟩ := hd
  refine Triple.bind (M := fun _ d' ↦ d' = { d with tmp := some (some id) })
    (triple_at (o := .writeTmp id) trivial ?_ ?_ ?_) fun _ ↦ ?_
  · intro _ _
    dsimp only [Disk.answer]
    rw [if_pos hpresent]
  · intro err herr
    dsimp only [Disk.answer] at herr
    rw [if_pos hpresent] at herr
    cases herr
  · intro c hfaulty
    exact ⟨hfaulty, (Disk.cut_other d c _).1.trans hcurrent⟩
  · refine triple_at (o := .renameTmp) ⟨id, dir, rfl, hdir, hcomplete⟩ ?_ nofun ?_
    · intro _ _
      exact ⟨(⟨hsound.dirs, hsound.current, hsound.fresh⟩ : Disk.Sound g format
        { d with tmp := some (some id) }).answer (o := .renameTmp)
          ⟨id, dir, rfl, hdir, hcomplete⟩, rfl,
        dir, hdir, hcomplete, rfl⟩
    · intro c hfaulty
      exact ⟨hfaulty, hcurrent⟩

/-- The same, where it is not there already. -/
theorem triple_publishCurrentIfChanged :
    Triple (outcomes x faulty) (Allowed g format)
      (fun d ↦ d.Sound g format ∧ d.present = true ∧ d.Holds x format id job)
      (publishCurrentIfChanged id) (fun _ ↦ Disk.Published g format id job) fun _ ↦
      faulty = true := by
  refine .of_forall fun d hd ↦ ?_
  refine Triple.bind (M := fun r d' ↦ d' = d ∧ ∀ id, r = .ok (some id) → d.current = some (some id))
    ((triple_read (o := .readCurrent) trivial).attempt ?_ ?_) fun r ↦ .of_forall fun d' hd' ↦ ?_
  · rintro found _ ⟨rfl, hfound⟩
    refine ⟨rfl, fun id hid ↦ ?_⟩
    obtain rfl := Except.ok.inj hid
    dsimp only [Disk.answer] at hfound
    split at hfound
    next found hcurrent => rw [hcurrent, Except.ok.inj hfound]
    next => cases hfound
  · rintro err _ ⟨rfl, -⟩
    exact ⟨rfl, nofun⟩
  · obtain ⟨rfl, hcurrent⟩ := hd'
    have hpublish : Triple (outcomes x faulty) (Allowed g format) (· = d') (publishCurrent id)
        (fun _ ↦ Disk.Published g format id job) fun _ ↦ faulty = true :=
      ((triple_publishCurrent d'.current).from_state ⟨hd.1, hd.2.1, hd.2.2, rfl⟩).conseq
        (fun _ h ↦ h)
        (fun _ _ h ↦ h) fun _ h ↦ h.1
    split
    next current =>
      split_ifs with hsame
      · refine .ret ?_
        rintro _ rfl
        exact ⟨hd.1, (hcurrent current rfl).trans (by rw [hsame]), hd.2.2⟩
      · exact hpublish
    next => exact hpublish

/-! ### Plans -/

/-- A snapshot that is there is opened. -/
theorem triple_openSpecific (h : d.Sound g format) (hholds : d.Holds x format id job) :
    Triple (outcomes x faulty) (Allowed g format) (· = d) (openSpecific format id)
      (fun r d' ↦ d' = d ∧ r = some (⟨id, SCHEMA_VERSION, job.record⟩, x.rows job))
      fun d' ↦ d' = d ∧ faulty = true := by
  obtain ⟨dir, hdir, hcomplete, rfl⟩ := hholds.dir
  refine triple_known (o := .manifestExists id) trivial hholds.manifestExists ?_ fun hfaulty ↦
    ⟨rfl, hfaulty⟩
  refine Triple.bind ((triple_readManifestCompatible h).conseq (fun _ h ↦ h) (fun _ _ h ↦ h)
    fun d' hd' ↦ ⟨hd'.1, hholds.readable hd'.2⟩) fun manifest ↦ .of_forall fun d' hd' ↦ ?_
  obtain ⟨rfl, dir', hdir', -, rfl⟩ := hd'
  obtain rfl := Option.some.inj (hdir.symm.trans hdir')
  have hdata : (Disk.answer x (.dataExists id) d').1 = .ok true := by
    dsimp only [Disk.answer]
    rw [hdir, Option.any_some, hcomplete.data]
    rfl
  have hrows : (Disk.answer x (.openEnv id) d').1 = .ok (x.rows dir.job) := by
    dsimp only [Disk.answer]
    rw [hdir, Option.bind_some, hcomplete.data]
  refine triple_known (o := .dataExists id) trivial hdata ?_ fun hfaulty ↦ ⟨rfl, hfaulty⟩
  exact triple_known (o := .openEnv id) trivial hrows (.ret fun _ hd ↦ ⟨hd, rfl⟩) fun hfaulty ↦
    ⟨rfl, hfaulty⟩

/-- What is published is opened, if there is anything. -/
theorem triple_openCurrent (h : d.Sound g format) :
    Triple (outcomes x faulty) (Allowed g format) (· = d) (openCurrent format)
      (fun r d' ↦ d' = d ∧ ∀ manifest rows, r = some (manifest, rows) → ∃ id job,
        d.current = some (some id) ∧ d.Holds x format id job ∧
          manifest = ⟨id, SCHEMA_VERSION, job.record⟩ ∧ rows = x.rows job)
      fun d' ↦ d' = d ∧ faulty = true := by
  rcases hcurrent : d.current with - | id
  · refine triple_known (o := .currentExists) trivial
      (congrArg (Except.ok ∘ Option.isSome) hcurrent)
      (.ret ?_) fun hfaulty ↦ ⟨rfl, hfaulty⟩
    rintro _ rfl
    exact ⟨rfl, nofun⟩
  obtain ⟨id, -, rfl, -⟩ := h.current id hcurrent
  obtain ⟨job, hholds⟩ := h.holds_current hcurrent
  refine triple_known (o := .currentExists) trivial
    (congrArg (Except.ok ∘ Option.isSome) hcurrent) ?_
    fun hfaulty ↦ ⟨rfl, hfaulty⟩
  have hread : (Disk.answer x .readCurrent d).1 = .ok (some id) := by
    dsimp only [Disk.answer]
    rw [hcurrent]
  refine triple_known (o := .readCurrent) trivial hread ?_ fun hfaulty ↦ ⟨rfl, hfaulty⟩
  refine (triple_openSpecific h hholds).conseq (fun _ h ↦ h) ?_ fun _ h ↦ h
  rintro r _ ⟨rfl, rfl⟩
  refine ⟨rfl, fun manifest rows hr ↦ ?_⟩
  obtain ⟨rfl, rfl⟩ := Prod.mk.inj (Option.some.inj hr)
  exact ⟨id, job, rfl, hholds, rfl, rfl⟩

/-- What a build of the tree may take rows from is right for it. -/
structure Disk.Covered (g : Judge x) (format : ManifestFormat Byte Inputs Record)
    (d : Disk Byte Inputs Record Rows) (tree : Tree) : Prop where
  agrees : g.Agrees tree
  covers : ∀ id job, d.current = some (some id) ∨ id = .of (x.inputs tree) →
    d.Holds x format id job → g.Covers tree job

theorem Disk.Sound.own (h : d.Sound g format) (hholds : d.Holds x format id job) : g.Own job := by
  obtain ⟨dir, hdir, -, rfl⟩ := hholds.dir
  exact (h.dirs id dir hdir).own

/-- **The plan comes to the rows of the tree.** -/
theorem triple_planJob (h : d.Sound g format) (hagrees : g.Agrees e.tree)
    (hcovers : ∀ id job, d.current = some (some id) → d.Holds x format id job →
    g.Covers e.tree job) :
    Triple (outcomes x faulty) (Allowed g format) (· = d) (planJob x format e id)
      (fun job d' ↦ d' = d ∧ g.Good e.tree job ∧ x.recorded job.record = x.inputs e.tree)
      fun _ ↦ faulty = true := by
  have hfull : ∀ d', d' = d → d' = d ∧ g.Good e.tree (x.job e.tree none) ∧
      x.recorded (x.job e.tree none).record = x.inputs e.tree :=
    fun d' hd' ↦ ⟨hd', g.full hagrees, x.recorded_job _ _⟩
  unfold planJob
  split_ifs
  · exact .ret hfull
  refine Triple.bind (M := fun r d' ↦ d' = d ∧ ∀ manifest rows, r = .ok (some (manifest, rows)) →
    ∃ id job, d.current = some (some id) ∧ d.Holds x format id job ∧
      manifest = ⟨id, SCHEMA_VERSION, job.record⟩ ∧ rows = x.rows job)
    ((triple_openCurrent h).attempt ?_ ?_) fun r ↦ .of_forall fun d' hd' ↦ ?_
  · rintro r _ ⟨rfl, hr⟩
    exact ⟨rfl, fun manifest rows heq ↦ hr manifest rows (Except.ok.inj heq)⟩
  · rintro err _ ⟨rfl, -⟩
    exact ⟨rfl, nofun⟩
  · obtain ⟨rfl, hr⟩ := hd'
    split
    next manifest rows =>
      obtain ⟨id', job, hcurrent, hholds, rfl, rfl⟩ := hr manifest rows rfl
      split_ifs
      · exact .ret hfull
      · refine Triple.bind (triple_workspace.conseq (fun _ h ↦ h) (fun _ _ h ↦ h) fun _ h ↦ h.1)
          fun _ ↦ .ret ?_
        rintro _ rfl
        exact ⟨rfl, g.onto (h.own hholds) hagrees (hcovers id' job hcurrent hholds),
          x.recorded_job _ _⟩
    next =>
      exact Triple.bind (triple_workspace.conseq (fun _ h ↦ h) (fun _ _ h ↦ h) fun _ h ↦ h.1)
        fun _ ↦ .ret hfull
    next => exact .ret hfull

/-! ### Staging -/

/-- A directory that a build has made and not finished. -/
structure Disk.Staged (g : Judge x) (format : ManifestFormat Byte Inputs Record)
    (id : GraphId Inputs)
    (job : Job Record Rows) (env : ℕ) (data : Option (Option Rows))
    (d : Disk Byte Inputs Record Rows) : Prop where
  sound : d.Sound g format
  present : d.present = true
  dir : d.snapshots.lookup id = some ⟨env, job, data, none⟩

namespace Disk.Staged

variable {data : Option (Option Rows)}

theorem isSome (h : d.Staged g format id job env data) : (d.snapshots.lookup id).isSome = true := by
  rw [h.dir]
  rfl

theorem unfinished (h : d.Staged g format id job env data) : d.Unfinished id := by
  intro dir hdir
  rw [← Option.some.inj (h.dir.symm.trans hdir)]

theorem current_ne (h : d.Staged g format id job env data) : d.current ≠ some (some id) :=
  h.sound.current_ne h.unfinished

/-- An error is an error, and nothing is published. -/
theorem cut (h : d.Staged g format id job env data) (c : Cut) (o : Call Byte Inputs Record Rows)
    (hfaulty : faulty = true) : faulty = true ∧ (d.cut c o).current ≠ some (some id) := by
  rw [(cut_other d c o).1]
  exact ⟨hfaulty, h.current_ne⟩

/-- Writing rows keeps it staged. -/
theorem modify (h : d.Staged g format id job env data)
    (f : SnapshotDir Byte Record Rows → Option (Option Rows)) :
    (d.modify id fun dir ↦ { dir with data := f dir }).Staged g format id job env
      (f ⟨env, job, data, none⟩) where
  sound := h.sound.modify_data h.unfinished
  present := (modify_present _ _ _).trans h.present
  dir := by rw [lookup_modify, if_pos rfl, h.dir, Option.map_some]

end Disk.Staged

/-- A crate after another, into the rows that are there. -/
theorem triple_writes (job : Job Record Rows) (writes : List (Rows → Rows)) :
    Triple (outcomes x faulty) (Allowed g format)
      (fun d ↦ ∃ rows, d.Staged g format id job env (some (some rows)) ∧
        writes.foldl (fun rows write ↦ write rows) rows = x.rows job)
      (Prog.forEach (fun write ↦ do
        call (.workspace "extract")
        call (.writeCrate id env write)) writes)
      (fun _ d ↦ d.Staged g format id job env (some (some (x.rows job))))
      fun d ↦ faulty = true ∧ d.current ≠ some (some id) := by
  refine (Triple.forEach (I := fun rest d ↦
    ∃ rows, d.Staged g format id job env (some (some rows)) ∧
    rest.foldl (fun rows write ↦ write rows) rows = x.rows job) (fun write rest ↦ ?_) writes).conseq
    (fun _ h ↦ h) ?_ fun _ h ↦ h
  · refine Triple.bind (triple_workspace.conseq (fun _ h ↦ h) (fun _ _ h ↦ h) ?_) fun _ ↦
      .of_forall fun d hd ↦ ?_
    · rintro d ⟨hfaulty, rows, hstaged, -⟩
      exact ⟨hfaulty, hstaged.current_ne⟩
    · obtain ⟨rows, hstaged, hrows⟩ := hd
      refine triple_at (o := .writeCrate id env write) hstaged.unfinished ?_ nofun
        fun c hfaulty ↦ hstaged.cut c _ hfaulty
      rintro - -
      refine ⟨write rows, ⟨hstaged.sound.answer (o := .writeCrate id env write) hstaged.unfinished,
        (Disk.modify_present _ _ _).trans hstaged.present, ?_⟩, hrows⟩
      dsimp only [Disk.answer]
      rw [Disk.lookup_modify, if_pos rfl, hstaged.dir, Option.map_some, if_pos rfl]
      rfl
  · rintro - d ⟨rows, hstaged, rfl⟩
    exact hstaged

/-- The rows of the base are copied, if there is one. -/
theorem triple_startSnapshot {base : Option Rows} :
    Triple (outcomes x faulty) (Allowed g format) (fun d ↦ d.Staged g format id job env none)
      (startSnapshot id base) (fun _ d ↦ d.Staged g format id job env (base.map some))
      fun d ↦ faulty = true ∧ d.current ≠ some (some id) := by
  rcases base with - | rows
  · refine triple_workspace.conseq (fun _ h ↦ h) (fun _ _ h ↦ h) ?_
    rintro d ⟨hfaulty, hd⟩
    exact ⟨hfaulty, hd.current_ne⟩
  · refine .of_forall fun d hd ↦ ?_
    refine triple_at (o := .copyToPath id rows) hd.unfinished ?_ ?_ fun c hfaulty ↦
      hd.cut c _ hfaulty
    · intro _ _
      dsimp only [Disk.answer]
      rw [if_pos hd.isSome]
      exact hd.modify fun _ ↦ some (some rows)
    · intro err herr
      dsimp only [Disk.answer] at herr
      rw [if_pos hd.isSome] at herr
      cases herr

/-- The rows are opened, or made. -/
theorem triple_openStaged {data : Option (Option Rows)} {rows : Rows}
    (hrows : data.or (some (some x.empty)) = some (some rows)) :
    Triple (outcomes x faulty) (Allowed g format) (fun d ↦ d.Staged g format id job env data)
      (call (.openStaged id)) (fun env' d ↦ env' = env ∧
      d.Staged g format id job env (some (some rows)))
      fun d ↦ faulty = true ∧ d.current ≠ some (some id) := by
  refine .of_forall fun d hd ↦ ?_
  refine triple_at (o := .openStaged id) hd.unfinished ?_ ?_ fun c hfaulty ↦ hd.cut c _ hfaulty
  · intro env' henv
    dsimp only [Disk.answer] at henv ⊢
    rw [hd.dir] at henv ⊢
    refine ⟨(Except.ok.inj henv).symm, ?_⟩
    rw [← hrows]
    exact hd.modify fun dir ↦ dir.data.or (some (some x.empty))
  · intro err herr
    dsimp only [Disk.answer] at herr
    rw [hd.dir] at herr
    cases herr

/-- The manifest is written last, over the rows of the job. -/
theorem triple_writeManifest :
    Triple (outcomes x faulty) (Allowed g format)
      (fun d ↦ d.Staged g format id job env (some (some (x.rows job))))
      (call (.writeManifest id (format.write ⟨id, SCHEMA_VERSION, job.record⟩)))
      (fun _ d ↦ d.Sound g format ∧ d.present = true ∧ d.Holds x format id job ∧
      d.current ≠ some (some id)) fun d ↦ faulty = true ∧ d.current ≠ some (some id) := by
  refine .of_forall fun d hd ↦ ?_
  have hallowed : Allowed g format
    (.writeManifest id (format.write ⟨id, SCHEMA_VERSION, job.record⟩)) d := by
    refine ⟨hd.unfinished, fun dir hdir ↦ ?_⟩
    rw [← Option.some.inj (hd.dir.symm.trans hdir)]
    exact ⟨rfl, rfl⟩
  refine triple_at hallowed ?_ ?_ fun c hfaulty ↦ hd.cut c _ hfaulty
  · rintro - -
    refine ⟨hd.sound.answer hallowed, ?_⟩
    dsimp only [Disk.answer]
    rw [if_pos hd.isSome]
    refine ⟨(Disk.modify_present _ _ _).trans hd.present, ⟨⟨env, job, some (some (x.rows job)),
      some (format.write ⟨id, SCHEMA_VERSION, job.record⟩)⟩, ?_, ⟨rfl, rfl⟩, rfl⟩, ?_⟩
    · rw [Disk.lookup_modify, if_pos rfl, hd.dir, Option.map_some]
    · rw [Disk.modify_current]
      exact hd.current_ne
  · intro err herr
    dsimp only [Disk.answer] at herr
    rw [if_pos hd.isSome] at herr
    cases herr

/-- **What is published is finished.** -/
theorem triple_fillSnapshot :
    Triple (outcomes x faulty) (Allowed g format) (fun d ↦ d.Staged g format id job env none)
      (fillSnapshot format id job) (fun _ ↦ Disk.Published g format id job)
      fun d ↦ faulty = true ∧ d.current ≠ some (some id) := by
  have hrows : (job.base.map some).or
    (some (some x.empty)) = some (some (job.base.getD x.empty)) := by
    rcases job.base with - | rows <;> rfl
  refine Triple.bind triple_startSnapshot fun _ ↦ Triple.bind (triple_openStaged hrows) fun env' ↦
    .of_forall fun d hd ↦ ?_
  obtain ⟨rfl, hd⟩ := hd
  refine Triple.bind ((triple_writes job job.writes).from_state ⟨_, hd, rfl⟩) fun _ ↦
    Triple.bind (triple_workspace.conseq (fun _ h ↦ h) (fun _ _ h ↦ h) ?_)
    fun _ ↦ Triple.bind triple_writeManifest fun _ ↦ .of_forall fun d hd ↦ ?_
  · rintro d ⟨hfaulty, hd⟩
    exact ⟨hfaulty, hd.current_ne⟩
  · refine ((triple_publishCurrent d.current).from_state ⟨hd.1, hd.2.1, hd.2.2.1, rfl⟩).conseq
      (fun _ h ↦ h)
      (fun _ _ h ↦ h) ?_
    rintro d' ⟨hfaulty, hcurrent⟩
    exact ⟨hfaulty, hcurrent ▸ hd.2.2.2⟩

/-- The directory is made, and nothing of that name was there. -/
theorem triple_createDir (hown : g.Own job)
    (hinputs : ∀ inputs, id = .of inputs → x.recorded job.record = inputs) :
    Triple (outcomes x faulty) (Allowed g format)
      (fun d ↦ d.Sound g format ∧ d.present = true ∧ d.snapshots.lookup id = none ∧
        ∀ n, id = .fresh n → n < d.made)
      (call (.createDir id job)) (fun _ d ↦ ∃ env, d.Staged g format id job env none)
      fun _ ↦ faulty = true := by
  refine .of_forall fun d hd ↦ ?_
  obtain ⟨hsound, hpresent, hnone, hfresh⟩ := hd
  have hallowed : Allowed g format (.createDir id job) d := ⟨hown, hinputs, hfresh⟩
  have hnew : (d.present && (d.snapshots.lookup id).isNone) = true := by
    rw [hpresent, hnone]
    rfl
  refine triple_at hallowed ?_ ?_ fun c hfaulty ↦ hfaulty
  · intro _ _
    have hcreated := hsound.answer hallowed
    dsimp only [Disk.answer] at hcreated ⊢
    rw [if_pos hnew] at hcreated ⊢
    exact ⟨d.made, hcreated, hpresent, AList.lookup_insert _⟩
  · intro err herr
    dsimp only [Disk.answer] at herr
    rw [if_pos hnew] at herr
    cases herr

/-- **A snapshot is staged and published**, and if that fails, removed. -/
theorem triple_stageSnapshot (hown : g.Own job)
    (hinputs : ∀ inputs, id = .of inputs → x.recorded job.record = inputs) :
    Triple (outcomes x faulty) (Allowed g format)
      (fun d ↦ d.Sound g format ∧ d.present = true ∧ d.snapshots.lookup id = none ∧
        ∀ n, id = .fresh n → n < d.made)
      (stageSnapshot format id job) (fun _ ↦ Disk.Published g format id job) fun _ ↦
      faulty = true := by
  refine Triple.bind (triple_createDir hown hinputs) fun _ ↦ .of_forall fun d hd ↦ ?_
  obtain ⟨env, hd⟩ := hd
  have hfill : Triple (outcomes x faulty) (Allowed g format) (· = d)
    (fillSnapshot format id job).attempt
      (fun r d' ↦ (r = .ok () → d'.Published g format id job) ∧
        ∀ err, r = .error err → faulty = true ∧ d'.current ≠ some (some id)) fun _ ↦
          faulty = true := by
    exact (triple_fillSnapshot.from_state hd).attempt (fun _ d' hd' ↦ ⟨fun _ ↦ hd', nofun⟩)
      fun err d' hd' ↦ ⟨nofun, fun _ _ ↦ hd'⟩
  refine Triple.bind hfill fun r ↦ ?_
  rcases r with err | -
  · refine .of_forall fun d' hd' ↦ ?_
    obtain ⟨hfaulty, hcurrent⟩ := hd'.2 err rfl
    refine Triple.bind (M := fun _ _ ↦ faulty = true) ?_ fun _ ↦ .fail fun _ h ↦ h
    exact (triple_at (o := .removeDir id) hcurrent (fun _ _ ↦ hfaulty) (fun _ _ ↦ hfaulty)
      fun _ _ ↦ hfaulty).attempt (fun _ _ h ↦ h) fun _ _ h ↦ h
  · exact .ret fun d' hd' ↦ hd'.1 rfl

/-! ### Pruning -/

/-- What is removed is not what is published. -/
theorem triple_removeDir {other : GraphId Inputs} (hne : other ≠ id) :
    Triple (outcomes x faulty) (Allowed g format) (Disk.Published g format id job)
      (call (.removeDir other)).attempt (fun _ ↦ Disk.Published g format id job) fun _ ↦
      faulty = true := by
  refine .of_forall fun d hd ↦ ?_
  have hallowed : Allowed g format (.removeDir other) d := by
    intro hcurrent
    exact hne (Option.some.inj (Option.some.inj (hcurrent.symm.trans hd.current)))
  obtain ⟨dir, hdir, hcomplete, rfl⟩ := hd.holds.dir
  have hanswer : Disk.Published g format id dir.job (Disk.answer x (.removeDir other) d).2 := by
    have hsound := hd.sound.answer hallowed
    dsimp only [Disk.answer] at hsound ⊢
    split_ifs at hsound ⊢
    · exact ⟨hsound, hd.current, dir, (AList.lookup_erase_ne hne.symm).trans hdir, hcomplete, rfl⟩
    · exact hd
  refine Triple.attempt (M := fun _ ↦ Disk.Published g format id dir.job)
    (triple_at (o := .removeDir other) hallowed (fun _ _ ↦ hanswer)
      (fun _ _ ↦ hanswer) fun c _ ↦ ?_)
    (fun _ _ h ↦ h) fun _ _ h ↦ h
  refine ⟨hd.sound.cut hallowed c, (Disk.cut_other d c _).1.trans hd.current, dir,
    ?_, hcomplete, rfl⟩
  dsimp only [Disk.cut]
  rw [Disk.lookup_modify, if_neg hne.symm, hdir]

/-- Other snapshots are removed, and what is published stays. -/
theorem triple_prune {isOpen : GraphId Inputs → Bool} :
    Triple (outcomes x faulty) (Allowed g format) (Disk.Published g format id job)
      (pruneSupersededSnapshots isOpen id) (fun _ ↦ Disk.Published g format id job)
      fun _ ↦ faulty = true := by
  refine Triple.bind (M := fun _ ↦ Disk.Published g format id job)
    (.of_forall fun d hd ↦ ?_) fun r ↦ ?_
  · refine (triple_read (o := .listSnapshots) trivial).attempt ?_ ?_
    · rintro _ _ ⟨rfl, -⟩
      exact hd
    · rintro _ _ ⟨rfl, -⟩
      exact hd
  · rcases r with err | entries
    · exact .ret fun _ h ↦ h
    · refine Triple.forEach (I := fun _ ↦ Disk.Published g format id job)
        (fun other rest ↦ ?_) entries
      split_ifs with hkeep
      · exact .ret fun _ h ↦ h
      · rw [Bool.or_eq_true, decide_eq_true_iff, not_or] at hkeep
        exact Triple.bind (triple_removeDir hkeep.1) fun _ ↦ .ret fun _ h ↦ h

/-! ### Builds -/

/-- The tree cannot be built: what is published is of other inputs, and the manifest under the id of
the inputs cannot be read. -/
def Disk.Blocked (x : Project Tree Inputs Record Rows) (format : ManifestFormat Byte Inputs Record)
    (d : Disk Byte Inputs Record Rows) (tree : Tree) : Prop :=
  ¬d.HasCurrent x (x.inputs tree) ∧ d.Torn format (.of (x.inputs tree))

/-- `CURRENT` names a snapshot of the tree. -/
def Disk.Shows (g : Judge x) (format : ManifestFormat Byte Inputs Record)
    (d : Disk Byte Inputs Record Rows) (id : GraphId Inputs) (tree : Tree) : Prop :=
  ∃ job, d.Published g format id job ∧ g.Good tree job

/-- An id that is new. -/
theorem triple_freshId :
    Triple (outcomes x faulty) (Allowed g format) (· = d)
      (call .freshId) (fun id d' ↦ id = .fresh d.made ∧ d' = { d with made := d.made + 1 })
      fun _ ↦ faulty = true := by
  refine triple_at (o := .freshId) trivial ?_ nofun fun _ hfaulty ↦ hfaulty
  intro id hid
  exact ⟨(Except.ok.inj hid).symm, rfl⟩

/-- A snapshot of the tree is staged under an id that is of its inputs. -/
theorem triple_stage (hagrees : g.Agrees e.tree)
    (hid : ∀ inputs, id = .of inputs → inputs = x.inputs e.tree) :
    Triple (outcomes x faulty) (Allowed g format)
      (fun d ↦ d.Sound g format ∧ d.present = true ∧ d.snapshots.lookup id = none ∧
        (∀ n, id = .fresh n → n < d.made) ∧
        ∀ id job, d.current = some (some id) → d.Holds x format id job → g.Covers e.tree job)
      (planJob x format e id >>= fun job ↦ stageSnapshot format id job >>= fun _ ↦
        pruneSupersededSnapshots e.isOpen id >>= fun _ ↦ pure (⟨id, false⟩ : BuildResult Inputs))
      (fun result d ↦ d.Shows g format result.graphId e.tree) fun _ ↦ faulty = true := by
  refine .of_forall fun d hd ↦ ?_
  obtain ⟨hsound, hpresent, hnone, hfresh, hcovers⟩ := hd
  refine Triple.bind (triple_planJob hsound hagrees hcovers) fun job ↦ .of_forall fun d' hd' ↦ ?_
  obtain ⟨rfl, hgood, hrecorded⟩ := hd'
  have hstage : Triple (outcomes x faulty) (Allowed g format) (· = d') (stageSnapshot format id job)
      (fun _ ↦ Disk.Published g format id job) fun _ ↦ faulty = true := by
    refine (triple_stageSnapshot (g.own hgood) fun inputs heq ↦ ?_).from_state
      ⟨hsound, hpresent, hnone, hfresh⟩
    exact hrecorded.trans (hid inputs heq).symm
  exact Triple.bind hstage fun _ ↦ Triple.bind triple_prune fun _ ↦ .ret fun d'' hd'' ↦
    ⟨job, hd'', hgood⟩

/-- **A build that reuses nothing.** -/
theorem triple_buildSnapshot (hcovered : d.Covered g format e.tree) (hsound : d.Sound g format)
    (hpresent : d.present = true) :
    Triple (outcomes x faulty) (Allowed g format) (· = d) (buildSnapshot x format e)
      (fun result d ↦ d.Shows g format result.graphId e.tree) fun _ ↦ faulty = true := by
  have hcovers : ∀ id job, d.current = some (some id) → d.Holds x format id job →
    g.Covers e.tree job := fun id job hcurrent ↦ hcovered.covers id job (.inl hcurrent)
  refine Triple.bind (triple_workspace.conseq (fun _ h ↦ h) (fun _ _ h ↦ h) fun _ h ↦ h.1) fun _ ↦
    Triple.bind (triple_workspace.conseq (fun _ h ↦ h) (fun _ _ h ↦ h) fun _ h ↦ h.1) fun _ ↦ ?_
  rcases hexists : (d.snapshots.lookup (.of (x.inputs e.tree))).isSome with - | -
  · refine triple_known (o := .snapshotExists _) trivial (congrArg Except.ok hexists) ?_
      fun hfaulty ↦ hfaulty
    refine (triple_stage hcovered.agrees fun inputs heq ↦ ?_).from_state
      ⟨hsound, hpresent, Option.not_isSome_iff_eq_none.1
        (by rw [hexists]; exact Bool.false_ne_true), nofun, hcovers⟩
    exact (GraphId.of.inj heq).symm
  · refine triple_known (o := .snapshotExists _) trivial (congrArg Except.ok hexists) ?_
      fun hfaulty ↦ hfaulty
    refine Triple.bind triple_freshId fun id ↦ .of_forall fun d' hd' ↦ ?_
    obtain ⟨rfl, rfl⟩ := hd'
    refine (triple_stage hcovered.agrees fun inputs heq ↦ ?_).from_state
      ⟨hsound.answer (o := .freshId) trivial, hpresent, ?_, ?_,
        fun id job hcurrent hholds ↦ hcovers id job hcurrent ⟨hholds.dir⟩⟩
    · cases heq
    · by_contra hsome
      obtain ⟨dir, hdir⟩ := Option.ne_none_iff_exists'.1 hsome
      exact Nat.lt_irrefl _ (hsound.fresh _ dir hdir)
    · rintro n ⟨rfl⟩
      exact Nat.lt_succ_self _

/-- **A build under the lock comes to a snapshot of the tree**, unless something fails, or the tree
is blocked. -/
theorem underLock_triple :
    Triple (outcomes x faulty) (Allowed g format)
      (fun d ↦ d.Sound g format ∧ d.present = true ∧ d.Covered g format e.tree ∧
        (e.forceRebuild = false → ¬d.Blocked x format e.tree ∨ faulty = true))
      (underLock x format e) (fun result d ↦ d.Shows g format result.graphId e.tree)
      fun _ ↦ faulty = true := by
  refine .of_forall fun d hd ↦ ?_
  obtain ⟨hsound, hpresent, hcovered, hblocked⟩ := hd
  refine Triple.bind (triple_workspace.conseq (fun _ h ↦ h) (fun _ _ h ↦ h) fun _ h ↦ h.1)
    fun _ ↦ ?_
  split_ifs with hforce
  · exact triple_buildSnapshot hcovered hsound hpresent
  refine Triple.bind (triple_reuseIdentity hsound) fun id ↦ .of_forall fun d' hd' ↦ ?_
  obtain ⟨rfl, hid⟩ := hd'
  have hreuse : Triple (outcomes x faulty) (Allowed g format) (· = d')
    (tryReuseExistingSnapshot format id)
      (fun r d'' ↦ d'' = d' ∧ ∀ result, r = some result →
        result.graphId = id ∧ ∃ job, d'.Holds x format id job) fun _ ↦ faulty = true := by
    refine (triple_tryReuse hsound).conseq (fun _ h ↦ h) (fun _ _ h ↦ h) fun _ h ↦ ?_
    rcases h with hfaulty | htorn
    · exact hfaulty
    rcases hid with ⟨hcurrent, -⟩ | ⟨rfl, hfaulty | hnot⟩
    · obtain ⟨job, hholds⟩ := hsound.holds_current hcurrent
      exact hholds.readable (.inr (.inr htorn))
    · exact hfaulty
    · exact (hblocked (Bool.not_eq_true _ ▸ hforce)).resolve_left (not_not.2 ⟨hnot, htorn⟩)
  refine Triple.bind hreuse fun r ↦ .of_forall fun d'' hd'' ↦ ?_
  obtain ⟨rfl, hr⟩ := hd''
  rcases r with - | result
  · exact triple_buildSnapshot hcovered hsound hpresent
  · obtain ⟨rfl, job, hholds⟩ := hr result rfl
    have hgood : g.Good e.tree job := by
      refine g.reused (hsound.own hholds) hcovered.agrees (hcovered.covers _ job ?_ hholds) ?_
      · exact hid.imp And.left And.left
      · obtain ⟨dir, hdir, -, rfl⟩ := hholds.dir
        rcases hid with ⟨hcurrent, id', dir', hcurrent', hdir', hinputs⟩ | ⟨heq, -⟩
        · obtain rfl := Option.some.inj (Option.some.inj (hcurrent.symm.trans hcurrent'))
          obtain rfl := Option.some.inj (hdir.symm.trans hdir')
          exact hinputs
        · exact (hsound.dirs _ dir hdir).inputs _ heq
    refine Triple.bind (triple_workspace.conseq (fun _ h ↦ h) (fun _ _ h ↦ h) fun _ h ↦ h.1) fun _ ↦
      Triple.bind (triple_publishCurrentIfChanged.from_state ⟨hsound, hpresent, hholds⟩)
        fun _ ↦ .ret ?_
    exact fun _ hpublished ↦ ⟨job, hpublished, hgood⟩

end RustCodeMcp.Graph
