import RustCodeMcp.Graph.Attempts
import RustCodeMcp.Graph.History

/-!
# Builds that are cut off

Builds of a workspace follow one another, and any of them may fail or be cut off at any call, in the
middle of what it writes. The next build that is not forced comes to a snapshot of the tree, except
for one case: a manifest that was cut off under the id of the tree's inputs makes every later build
of these inputs fail, until another tree has been built or a build has been forced.

A manifest is the last thing that is written of a snapshot, and whatever was cut off before it does
no harm: there is a directory nobody looks at, which the next build of another id leaves or removes.
**Cut off in the manifest itself, a snapshot is there and cannot be read**, under an id that the
next build of the same inputs computes again, looks up and trips over. That is the one case
(`Disk.Blocked`), and being forced gives a build another id.

The library of builds is generic in what a tree is; here it meets the loader, and what `CURRENT`
names is put in the words of a full build (`Disk.Names`).
-/

namespace RustCodeMcp.Graph

open Effect

/-! ### Any project -/

section

variable {Tree Inputs Record Rows Byte : Type} [DecidableEq Inputs]
    {x : Project Tree Inputs Record Rows}
  {g : Judge x} {format : ManifestFormat Byte Inputs Record} {faulty : Bool}
    {e : Attempt Tree Inputs}
  {d d' : Disk Byte Inputs Record Rows}

/-- What the graph directory may look like after builds of which each may have been cut off. -/
inductive History (g : Judge x) (format : ManifestFormat Byte Inputs Record) :
    Disk Byte Inputs Record Rows → Prop
  | start : History g format .empty
  | build {d d' : Disk Byte Inputs Record Rows} (h : History g format d) (e : Attempt Tree Inputs)
    (hcovered : d.Covered g format e.tree)
    (hbuild : Visits (outcomes x true) (buildAttempt x format e) d d') : History g format d'

/-- The directories, the lock file and the lock are none of what a build looks at. -/
theorem triple_prelude {o : Call Byte Inputs Record Rows}
    (ho : o = .ensureDirs ∨ o = .openLock ∨ ∃ n, o = .lock n)
    (hpresent : o = .openLock → d.present = true) (hsound : d.Sound g format) :
    Triple (outcomes x faulty) (Allowed g format) (· = d) (call o)
      (fun _ d' ↦ d'.Sound g format ∧ d'.current = d.current ∧ d'.snapshots = d.snapshots ∧
        (o = .ensureDirs ∨ d.present = true → d'.present = true)) fun _ ↦ faulty = true := by
  have hallowed : Allowed g format o d := by
    rcases ho with rfl | rfl | ⟨n, rfl⟩ <;> trivial
  refine triple_at hallowed (fun _ _ ↦ ⟨hsound.answer hallowed, ?_⟩) ?_ fun _ hfaulty ↦ hfaulty
  · rcases ho with rfl | rfl | ⟨n, rfl⟩
    · exact ⟨rfl, rfl, fun _ ↦ rfl⟩
    · dsimp only [Disk.answer]
      rw [if_pos (hpresent rfl)]
      split <;> exact ⟨rfl, rfl, fun _ ↦ hpresent rfl⟩
    · exact ⟨rfl, rfl, fun h ↦ h.resolve_left nofun⟩
  · intro err herr
    rcases ho with rfl | rfl | ⟨n, rfl⟩
    · cases herr
    · dsimp only [Disk.answer] at herr
      rw [if_pos (hpresent rfl)] at herr
      split at herr <;> cases herr
    · cases herr

/-- Two disks with the same snapshots, and the same one published. -/
structure Disk.Alike (d d' : Disk Byte Inputs Record Rows) : Prop where
  current : d'.current = d.current
  snapshots : d'.snapshots = d.snapshots

theorem Disk.Alike.covered (h : d.Alike d') {tree : Tree} (hcovered : d.Covered g format tree) :
    d'.Covered g format tree := by
  refine ⟨hcovered.agrees, fun id job hid hholds ↦ hcovered.covers id job (h.current ▸ hid) ⟨?_⟩⟩
  rw [← h.snapshots]
  exact hholds.dir

theorem Disk.Alike.blocked (h : d.Alike d') {tree : Tree} :
    d'.Blocked x format tree ↔ d.Blocked x format tree := by
  simp only [Disk.Blocked, Disk.HasCurrent, Disk.Torn, h.current, h.snapshots]

/-- **An attempt comes to a snapshot of the tree**, or to an error. -/
theorem buildAttempt_triple (hsound : d.Sound g format) (hcovered : d.Covered g format e.tree)
    (hblocked : e.forceRebuild = false → ¬d.Blocked x format e.tree ∨ faulty = true) :
    Triple (outcomes x faulty) (Allowed g format) (· = d) (buildAttempt x format e)
      (fun result d ↦ d.Shows g format result.graphId e.tree) fun _ ↦ faulty = true := by
  refine Triple.bind (triple_prelude (.inl rfl) nofun hsound) fun _ ↦ .of_forall fun d₁ hd₁ ↦ ?_
  obtain ⟨hsound₁, hcurrent₁, hsnapshots₁, hpresent₁⟩ := hd₁
  have hpresent₁ := hpresent₁ (.inl rfl)
  refine Triple.bind (triple_prelude (.inr (.inl rfl)) (fun _ ↦ hpresent₁) hsound₁) fun ino ↦
    .of_forall fun d₂ hd₂ ↦ ?_
  obtain ⟨hsound₂, hcurrent₂, hsnapshots₂, hpresent₂⟩ := hd₂
  refine Triple.bind (triple_prelude (.inr (.inr ⟨ino, rfl⟩)) nofun hsound₂) fun _ ↦
    .of_forall fun d₃ hd₃ ↦ ?_
  obtain ⟨hsound₃, hcurrent₃, hsnapshots₃, hpresent₃⟩ := hd₃
  have halike : d.Alike d₃ := ⟨hcurrent₃.trans (hcurrent₂.trans hcurrent₁),
    hsnapshots₃.trans (hsnapshots₂.trans hsnapshots₁)⟩
  refine underLock_triple.from_state ⟨hsound₃, hpresent₃ (.inr (hpresent₂ (.inr hpresent₁))),
    halike.covered hcovered, fun hforce ↦ ?_⟩
  rw [halike.blocked]
  exact hblocked hforce

/-- **Whatever is cut off, and where.** -/
theorem History.sound (h : History g format d) : d.Sound g format := by
  induction h with
  | start => exact ⟨nofun, nofun, nofun⟩
  | build h e hcovered hbuild ih =>
    have hguarded := (buildAttempt_triple (e := e) ih hcovered fun _ ↦ .inr rfl).guarded _ rfl
    exact hguarded.visits (Disk.Sound g format)
      (fun _ _ _ _ ho hstep hs ↦ hs.step ho hstep) ih hbuild

/-- A run in which nothing fails. -/
theorem executes_run {α : Type} (prog : GraphProg Byte Inputs Record Rows α)
    (d : Disk Byte Inputs Record Rows) :
    Executes (outcomes x false) prog d (run (Disk.answer x) prog d).1
    (run (Disk.answer x) prog d).2 :=
  .of_run (fun _ _ ↦ .inl rfl) rfl

/-- **A build that is not blocked and in which nothing fails.** -/
theorem build_of_not_blocked (hsound : d.Sound g format) (hcovered : d.Covered g format e.tree)
    (hblocked : ¬d.Blocked x format e.tree) : ∃ result,
    (run (Disk.answer x) (buildAttempt x format e) d).1 =
      .ok result ∧ (run (Disk.answer x) (buildAttempt x format e) d).2.Shows g format
      result.graphId e.tree := by
  have htriple : Triple (outcomes x false) (Allowed g format) (· = d) (buildAttempt x format e)
      (fun result d ↦ d.Shows g format result.graphId e.tree) fun _ ↦ false = true :=
    buildAttempt_triple hsound hcovered fun _ ↦ .inl hblocked
  have hexec := executes_run (x := x) (buildAttempt x format e) d
  rcases hr : (run (Disk.answer x) (buildAttempt x format e) d).1 with err | result
  · rw [hr] at hexec
    exact absurd (htriple.err d err _ rfl hexec) Bool.false_ne_true
  · rw [hr] at hexec
    exact ⟨result, rfl, htriple.post d result _ rfl hexec⟩

/-- The check for reuse fails on a manifest that cannot be read. -/
theorem run_tryReuse_of_torn {id : GraphId Inputs} (h : d.Torn format id) :
    ∃ err, run (Disk.answer x) (tryReuseExistingSnapshot format id) d = (.error err, d) := by
  obtain ⟨dir, bytes, err, hdir, hbytes, hread⟩ := h
  have hexists : Disk.answer x (.manifestExists id) d = (.ok true, d) := by
    dsimp only [Disk.answer]
    rw [hdir, Option.any_some, hbytes]
    rfl
  have hmanifest : Disk.answer x (.readManifest id) d = (.ok bytes, d) := by
    dsimp only [Disk.answer]
    rw [hdir, Option.bind_some, hbytes]
  refine ⟨"failed to parse manifest: " ++ err, ?_⟩
  unfold tryReuseExistingSnapshot
  rw [run_bind_ok ((run_perform _ _ _).trans hexists), if_pos rfl]
  refine run_bind_error ?_
  unfold readManifest
  rw [run_bind_ok ((run_perform _ _ _).trans hmanifest), parseManifest_error hread]
  rfl

theorem run_underLock_of_blocked (hsound : d.Sound g format) (hblocked : d.Blocked x format e.tree)
    (hforce : e.forceRebuild = false) : ∃ err,
    (run (Disk.answer x) (underLock x format e) d).1 = .error err := by
  have hworkspace : run (Disk.answer x) (call (.workspace "slice")) d = (.ok (), d) :=
    run_perform _ _ _
  unfold underLock
  rw [run_bind_ok hworkspace, hforce, if_neg Bool.false_ne_true]
  -- Nothing published is of these inputs, so the check looks under their id.
  have htriple : Triple (outcomes x false) (Allowed g format) (· = d)
      (reuseIdentity x format (x.inputs e.tree)) _ fun _ ↦ false = true :=
        triple_reuseIdentity hsound
  have hexec := executes_run (x := x) (reuseIdentity x format (x.inputs e.tree)) d
  rcases hr : run (Disk.answer x) (reuseIdentity x format (x.inputs e.tree)) d with ⟨err | id, d'⟩
  · rw [run_bind_error hr]
    exact ⟨err, rfl⟩
  · rw [hr] at hexec
    obtain ⟨rfl, ⟨-, hcurrent⟩ | ⟨rfl, -⟩⟩ := htriple.post d id d' rfl hexec
    · exact absurd hcurrent hblocked.1
    · obtain ⟨err, herr⟩ := run_tryReuse_of_torn (x := x) hblocked.2
      rw [run_bind_ok hr, run_bind_error herr]
      exact ⟨err, rfl⟩

theorem run_openLock (hpresent : d.present = true) :
    ∃ ino d', run (Disk.answer x) (call .openLock) d = (.ok ino, d') ∧ d.Alike d' := by
  rw [run_perform]
  dsimp only [Disk.answer]
  rw [if_pos hpresent]
  split
  · exact ⟨_, _, rfl, rfl, rfl⟩
  · exact ⟨_, _, rfl, rfl, rfl⟩

/-- **A blocked tree is not built.** -/
theorem build_of_blocked (hsound : d.Sound g format) (hblocked : d.Blocked x format e.tree)
    (hforce : e.forceRebuild = false) : ∃ err,
    (run (Disk.answer x) (buildAttempt x format e) d).1 = .error err := by
  have hdirs : run (Disk.answer x) (call .ensureDirs) d = (.ok (), { d with present := true }) :=
    run_perform _ _ _
  have hsound₁ : ({ d with present := true } : Disk Byte Inputs Record Rows).Sound g format :=
    hsound.answer (o := .ensureDirs) trivial
  obtain ⟨ino, d₂, hopen, halike⟩ := run_openLock (x := x) (d := { d with present := true }) rfl
  have hlock : run (Disk.answer x) (call (.lock ino)) d₂ = (.ok (), d₂) := run_perform _ _ _
  have hsound₂ : d₂.Sound g format := by
    have hanswer := hsound₁.answer (o := .openLock) trivial
    rw [run_perform] at hopen
    rwa [hopen] at hanswer
  unfold buildAttempt
  rw [run_bind_ok hdirs, run_bind_ok hopen, run_bind_ok hlock]
  refine run_underLock_of_blocked hsound₂ ?_ hforce
  rw [halike.blocked]
  exact hblocked

/-- **The next build succeeds exactly if its tree is not blocked.** -/
theorem build_ok_iff (hsound : d.Sound g format) (hcovered : d.Covered g format e.tree)
    (hforce : e.forceRebuild = false) :
    (∃ result, (run (Disk.answer x) (buildAttempt x format e) d).1 = .ok result ∧
      (run (Disk.answer x) (buildAttempt x format e) d).2.Shows g format result.graphId e.tree) ↔
      ¬d.Blocked x format e.tree := by
  refine ⟨fun ⟨result, hok, _⟩ hblocked ↦ ?_, build_of_not_blocked hsound hcovered⟩
  obtain ⟨err, herr⟩ := build_of_blocked hsound hblocked hforce
  rw [hok] at herr
  cases herr

/-- The builder is killed while it makes a call, and gets that far with it. -/
def Disk.killedAt (x : Project Tree Inputs Record Rows)
    (bad : Call Byte Inputs Record Rows → Bool) (c : Cut) :
    Handler String (@Call.Ret Byte Inputs Record Rows) (Disk Byte Inputs Record Rows)
  | .removeDir id, d => (.error "killed", d.cut ⟨false, 0, false, false⟩ (.removeDir id))
  | o, d => if bad o then (.error "killed", d.cut c o) else Disk.answer x o d

theorem visits_killed (bad : Call Byte Inputs Record Rows → Bool) (c : Disk.Cut)
    (e : Attempt Tree Inputs) (d : Disk Byte Inputs Record Rows) :
    Visits (outcomes x true) (buildAttempt x format e) d
      (run (Disk.killedAt x bad c) (buildAttempt x format e) d).2 := by
  refine Executes.visits (.of_run (h := Disk.killedAt x bad c) (fun o s ↦ ?_) rfl)
  unfold Disk.killedAt
  split
  · exact .inr ⟨rfl, _, _, rfl, rfl⟩
  · split_ifs
    · exact .inr ⟨rfl, _, c, rfl, rfl⟩
    · exact .inl rfl

end

/-! ### What is extracted -/

variable {Name Stub Row Value Content Byte : Type} [DecidableEq Name] [DecidableEq Stub]
  [DecidableEq Content]

/-- What the manifest says of a build. -/
structure BuildRecord (Name Content : Type) where
  /-- The tree it was built from. -/
  tree : Tree Content
  inputs : BuildInputs Content
  cratePackages : Finmap fun _ : Name ↦ Finset Path

/-- A tree, and the order in which its groups are written. -/
structure Workspace (Name Stub Row Value Content : Type) where
  tree : Tree Content
  order : Plan Name Stub Row Value Content → List Name

/-- The rows that a plan goes on from, if it does. -/
def Plan.copied : Plan Name Stub Row Value Content → Option (Tables Name Stub Row Value)
  | full => none
  | incremental base _ => some base.tables

/-- The snapshot of a manifest and its rows. -/
def BuildRecord.snapshot (record : BuildRecord Name Content) (tables : Tables Name Stub Row Value) :
    Snapshot Name Stub Row Value Content :=
  ⟨record.tree, record.inputs, tables, record.cratePackages⟩

namespace Loader

variable (x : Loader Name Stub Row Value Content)

/-- The plan of a build, on top of what is published. -/
def planOn (tree : Tree Content)
    (base : Option (BuildRecord Name Content × Tables Name Stub Row Value)) :
    Plan Name Stub Row Value Content :=
  x.planBuild (base.map fun base ↦ base.1.snapshot base.2) tree

/-- What builds are told of a workspace. -/
def project : Project (Workspace Name Stub Row Value Content) (BuildInputs Content)
    (BuildRecord Name Content) (Tables Name Stub Row Value) where
  inputs w := computeBuildInputs x.root w.tree
  recorded record := record.inputs
  empty := .empty
  job w base :=
    let plan := x.planOn w.tree base
    { base := plan.copied
      writes := (w.order plan).map fun krate tables ↦
        tables.rewrite krate (x.extractAll w.tree krate)
      record :=
        { tree := w.tree
          inputs := computeBuildInputs x.root w.tree
          cratePackages := x.recordPackages w.tree (x.dirtyOf w.tree plan) plan.keptPackages } }
  recorded_job _ _ := rfl

variable {x}

/-- What a job comes to is what the build does. -/
theorem snapshot_job (w : Workspace Name Stub Row Value Content)
    (base : Option (BuildRecord Name Content × Tables Name Stub Row Value)) :
    (x.project.job w base).record.snapshot (x.project.rows (x.project.job w base)) =
      x.buildAttempt w.tree (x.planOn w.tree base) (w.order (x.planOn w.tree base)) := by
  have hrows : x.project.rows (x.project.job w base) =
      (x.planOn w.tree base).baseTables.writeByCrate (x.extractAll w.tree)
        (w.order (x.planOn w.tree base)) := by
    show ((w.order (x.planOn w.tree base)).map fun krate tables ↦
      Tables.rewrite tables krate _).foldl
      (fun rows write ↦ write rows) ((x.planOn w.tree base).copied.getD .empty) = _
    rw [List.foldl_map]
    rcases x.planOn w.tree base with - | ⟨snapshot, dirty⟩ <;> rfl
  rw [hrows]
  rfl

/-- Which jobs come to the rows of a tree: those of a snapshot that a full build of it gives. -/
def judge (hx : x.Lawful) (record : Tree Content → Stub → StubRecord Value) : Judge x.project where
  Good w job := (job.record.snapshot (x.project.rows job)).Matches x record w.tree ∧
    (job.record.snapshot (x.project.rows job)).Matches x record job.record.tree
  Own job := (job.record.snapshot (x.project.rows job)).Matches x record job.record.tree
  Agrees w := x.Agrees record w.tree ∧ ∀ plan, (w.order plan).Perm (x.dirtyOf w.tree plan)
  Covers w job := (job.record.snapshot (x.project.rows job)).Covers x w.tree
  own h := h.2
  full {w} hagrees := by
    have hmatches := Snapshot.Matches.full hagrees.1 (hagrees.2 .full)
    exact and_self_iff.2 (snapshot_job w none ▸ hmatches)
  reused hown hagrees hcovers hinputs := ⟨hown.reused hx hcovers hagrees.1 hinputs, hown⟩
  onto {w job} hown hagrees hcovers := by
    refine and_self_iff.2 ?_
    rw [snapshot_job]
    have hperm := hagrees.2 (x.planOn w.tree (some (job.record, x.project.rows job)))
    rcases hplan : x.planOn w.tree (some (job.record, x.project.rows job)) with - | ⟨base, dirty⟩
    · rw [hplan] at hperm
      exact Snapshot.Matches.full hagrees.1 hperm
    · rw [hplan] at hperm
      obtain rfl := Option.some.inj (Snapshot.eq_of_planBuild hplan)
      exact Snapshot.Matches.incremental hx hown hplan hcovers hagrees.1 hperm

end Loader

variable {x : Loader Name Stub Row Value Content} {record : Tree Content → Stub → StubRecord Value}
  {format : ManifestFormat Byte (BuildInputs Content) (BuildRecord Name Content)}
  {d : Disk Byte (BuildInputs Content) (BuildRecord Name Content) (Tables Name Stub Row Value)}
  {e : Attempt (Workspace Name Stub Row Value Content) (BuildInputs Content)}

/-- `CURRENT` names a whole snapshot, with the rows of a full build of the tree. -/
def Disk.Names (x : Loader Name Stub Row Value Content)
    (format : ManifestFormat Byte (BuildInputs Content) (BuildRecord Name Content))
    (d : Disk Byte (BuildInputs Content) (BuildRecord Name Content) (Tables Name Stub Row Value))
    (id : GraphId (BuildInputs Content)) (tree : Tree Content) : Prop :=
  d.current = some (some id) ∧ ∃ dir tables, d.snapshots.lookup id = some dir ∧
    dir.manifest = some (dir.manifestOf format id) ∧ dir.data = some (some tables) ∧
      ∀ order, order.Perm (x.names tree) → tables = (x.buildAttempt tree .full order).tables

theorem Disk.Shows.names (hx : x.Lawful) {w : Workspace Name Stub Row Value Content}
    {id : GraphId (BuildInputs Content)} (hagrees : x.Agrees record w.tree)
    (h : d.Shows (Loader.judge hx record) format id w) : d.Names x format id w.tree := by
  obtain ⟨job, hpublished, hgood⟩ := h
  obtain ⟨dir, hdir, hcomplete, rfl⟩ := hpublished.holds.dir
  refine ⟨hpublished.current, dir, _, hdir, hcomplete.manifest, hcomplete.data,
    fun order horder ↦ ?_⟩
  exact hgood.1.tables.unique (Snapshot.Matches.full hagrees horder).tables

/-- **After builds of which any may have been cut off, the next one succeeds exactly if its tree is
not blocked**, and then shows the rows of the tree. Each build, the next one included, sees what has
changed since what it may take rows from was built (`Disk.Covered`). -/
theorem next_build (hx : x.Lawful) (h : History (Loader.judge hx record) format d)
    (hcovered : d.Covered (Loader.judge hx record) format e.tree)
    (hforce : e.forceRebuild = false) :
    (∃ result, (run (Disk.answer x.project) (buildAttempt x.project format e) d).1 = .ok result ∧
      (run (Disk.answer x.project) (buildAttempt x.project format e) d).2.Names x
      format result.graphId
        e.tree.tree) ↔ ¬d.Blocked x.project format e.tree := by
  rw [← build_ok_iff h.sound hcovered hforce]
  constructor
  · rintro ⟨result, hok, -⟩
    by_contra hnot
    rw [build_ok_iff h.sound hcovered hforce, not_not] at hnot
    obtain ⟨err, herr⟩ := build_of_blocked h.sound hnot hforce
    rw [hok] at herr
    cases herr
  · rintro ⟨result, hok, hshows⟩
    exact ⟨result, hok, hshows.names hx hcovered.agrees.1⟩

/-! ### A manifest that is cut off -/

/-- Manifests between two marks. -/
abbrev sharingManifests :
    ManifestFormat (Option (GraphManifest (BuildInputs String) (BuildRecord String String)))
      (BuildInputs String) (BuildRecord String String) :=
  .marked _

/-- A disk of such builds. -/
abbrev SharingDisk : Type :=
  Disk (Option (GraphManifest (BuildInputs String) (BuildRecord String String)))
    (BuildInputs String)
    (BuildRecord String String) (Tables String String String String)

/-- A build of the library, not forced. -/
def buildOf (lib : String) : Attempt (Workspace String String String String String)
    (BuildInputs String) where
  tree :=
    { tree := missing lib
      order := sharing.dirtyOf (missing lib) }
  forceRebuild := false
  isOpen _ := false

/-- Nothing is recorded. -/
def noRecord (_ : Tree String) (_ : String) : StubRecord String :=
  ⟨"", none, none⟩

theorem sharing_allowed (lib : String) :
    (Loader.judge sharing_lawful noRecord).Agrees (buildOf lib).tree :=
  ⟨sharing_agrees _ _, fun _ ↦ List.Perm.refl _⟩

theorem covered_empty (lib : String) :
    (Disk.empty : SharingDisk).Covered (Loader.judge sharing_lawful noRecord) sharingManifests
      (buildOf lib).tree :=
  ⟨sharing_allowed lib, fun _ _ _ hholds ↦ nomatch hholds.dir⟩

/-- The builder is killed in the middle of the manifest: the tree is not built again, nor after
that. -/
theorem blocked_for_good : ∃ d : SharingDisk,
    History (Loader.judge sharing_lawful noRecord) sharingManifests d ∧
    ∃ err, run (Disk.answer sharing.project)
      (buildAttempt sharing.project sharingManifests (buildOf "mod shared;"))
      d = (.error err, d) := by
  refine ⟨_, .build .start (buildOf "mod shared;") (covered_empty _) (visits_killed
    (fun o ↦ match o with | .writeManifest _ _ => true | _ => false) ⟨true, 1, false, false⟩ _ _),
      ?_⟩
  exact ⟨_, rfl⟩

/-- The builder is killed while it writes rows: the next build is one of the tree. -/
theorem next_build_killed : ∃ d : SharingDisk, d.snapshots.keys.length = 1 ∧ d.current = none ∧
    ∃ result, (run (Disk.answer sharing.project) (buildAttempt sharing.project sharingManifests
      (buildOf "mod shared;")) d).1 = .ok result ∧
        (run (Disk.answer sharing.project) (buildAttempt sharing.project sharingManifests
          (buildOf "mod shared;")) d).2.Names sharing sharingManifests result.graphId
          (missing "mod shared;") := by
  have hkilled := History.build .start (buildOf "mod shared;") (covered_empty _) (visits_killed
    (fun o ↦ match o with | .writeCrate _ _ _ => true | _ => false) ⟨true, 1, false, false⟩ _ _)
  refine ⟨_, rfl, rfl, (next_build sharing_lawful hkilled ⟨sharing_allowed _, ?_⟩ rfl).2 ?_⟩
  · rintro id job (hid | rfl) ⟨dir, hdir, hcomplete, -⟩
    · cases hid
    · cases hdir
      cases hcomplete.manifest
  · rintro ⟨-, dir, bytes, err, hdir, hbytes, -⟩
    cases hdir
    cases hbytes

end RustCodeMcp.Graph
