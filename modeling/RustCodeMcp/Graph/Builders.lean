import RustCodeMcp.Graph.Attempts
import RustCodeMcp.Machine.Pool
import RustCodeMcp.Machine.Runs

/-!
# Builders side by side

Any number of processes build one workspace, call by call, and any of them may fail or end anywhere.
What keeps them apart is a lock on the file that `BUILD.lock` was when they opened it.
`clear_workspace_snapshots` takes no lock and removes that file with the others, so what holds of
the builders holds as long as no clear removes anything while a builder has the file open, and none
stops halfway.

**A process is its program and what it holds.** A builder is given as what is left of
`build_attempt` after the calls it has made, together with the files it has open and the lock it
has; so a step of it is one call, answered by the disk, and a process that dies is one whose program
is gone and whose files are closed. The lock is of a file, not of a name: two processes that have
opened the name at different times may have two files open, if a clear came between.

The invariant says of each builder at which stage it is, and of all but the one with the lock that
they occupy nothing (`Inv.move`).
-/

namespace RustCodeMcp.Graph

open Effect Machine

variable {Tree Inputs Record Rows Byte : Type} [DecidableEq Inputs]

/-! ### Builders and clears -/

/-- A process that runs `build_attempt`. -/
structure Builder (Byte Inputs Record Rows : Type) where
  /-- What is left of its program. -/
  prog : GraphProg Byte Inputs Record Rows (BuildResult Inputs)
  /-- The lock file that it has open. -/
  lockFile : Option ℕ
  holds : Bool
  /-- The directory it has made and not published. -/
  staged : Option (GraphId Inputs)

/-- `remove_dir_all`, which begins with nothing removed. -/
inductive Clear
  | waiting
  | removing
  | ended
  deriving DecidableEq

/-- What it removes, in any order. -/
inductive Entry (Inputs : Type)
  | lock
  | current
  | tmp
  | files (id : GraphId Inputs) (data manifest : Bool)
  | snapshot (id : GraphId Inputs)
  | root

/-- The disk, the processes that build and those that clear. -/
structure Builders (Byte Inputs Record Rows : Type) where
  disk : Disk Byte Inputs Record Rows
  builders : List (Builder Byte Inputs Record Rows)
  clears : List Clear

/-- The snapshot that a call writes into or removes. -/
def Call.touches : Call Byte Inputs Record Rows → Option (GraphId Inputs)
  | createDir id _ | copyToPath id _ | openStaged id | writeCrate id _ _ | writeManifest id
    _ | removeDir id => some id
  | _ => none

/-- A process that has ended has nothing open. -/
def Builder.ended (prog : GraphProg Byte Inputs Record Rows (BuildResult Inputs)) :
    Builder Byte Inputs Record Rows :=
  { prog, lockFile := none, holds := false, staged := none }

/-- What a call opens. -/
def Call.opens : (o : Call Byte Inputs Record Rows) → Except String o.Ret → Option ℕ → Option ℕ
  | .openLock, .ok ino, _ => some ino
  | _, _, lockFile => lockFile

/-- Whether a process has the lock after a call, given whether it had it before. -/
def Call.locks : (o : Call Byte Inputs Record Rows) → Except String o.Ret → Bool → Bool
  | .lock _, .ok _, _ => true
  | _, _, holds => holds

/-- The snapshot that a process has staged after a call. -/
def Call.stages : (o : Call Byte Inputs Record Rows) → Except String o.Ret →
    Option (GraphId Inputs) → Option (GraphId Inputs)
  | .createDir id _, .ok _, _ => some id
  | .renameTmp, .ok _, _ => none
  | _, _, staged => staged

/-- A builder goes on with what its call answers. -/
def Builder.after (b : Builder Byte Inputs Record Rows) (o : Call Byte Inputs Record Rows)
    (r : Except String o.Ret) (prog : GraphProg Byte Inputs Record Rows (BuildResult Inputs)) :
    Builder Byte Inputs Record Rows :=
  match prog with
  | .call o' k =>
    { prog := .call o' k
      lockFile := o.opens r b.lockFile
      holds := o.locks r b.holds
      staged := o.stages r b.staged }
  | prog => .ended prog

/-- It is writing into the snapshot or removing it: it has staged it, or its next call is one on it.
-/
def Builder.Occupies (b : Builder Byte Inputs Record Rows) (id : GraphId Inputs) : Prop :=
  b.staged = some id ∨ ∃ o k, b.prog = .call o k ∧ o.touches = some id

/-- What is removed; a directory only when it is empty. -/
def Disk.remove (d : Disk Byte Inputs Record Rows) : Entry Inputs → Disk Byte Inputs Record Rows
  | .lock => { d with lock := none }
  | .current => { d with current := none }
  | .tmp => { d with tmp := none }
  | .files id data manifest => d.cut ⟨true, 0, data, manifest⟩ (.removeDir id)
  | .snapshot id =>
    if (d.snapshots.lookup id).any fun dir ↦ dir.data.isNone && dir.manifest.isNone then
      { d with snapshots := d.snapshots.erase id }
    else d
  | .root =>
    if d.lock.isNone && d.current.isNone && d.tmp.isNone && d.snapshots.keys.isEmpty then
      { d with present := false }
    else d

/-- A process begins, goes on or is killed; or a clear does. -/
inductive BuilderEvent (Tree Inputs : Type)
  | spawn (e : Attempt Tree Inputs)
  /-- A builder makes its next call, which may fail. -/
  | call (i : ℕ) (fault : Option (String × Disk.Cut))
  /-- A builder ends in the middle of its next call. -/
  | die (i : ℕ) (c : Disk.Cut)
  | clear
  | remove (j : ℕ) (entry : Entry Inputs)
  /-- A clear ends, whether it has removed everything or not. -/
  | clearEnds (j : ℕ)

namespace Builders

variable (x : Project Tree Inputs Record Rows) (format : ManifestFormat Byte Inputs Record)
  (s : Builders Byte Inputs Record Rows)

/-- A lock is waited for while another process holds it. -/
def waits : Call Byte Inputs Record Rows → Bool
  | .lock ino => s.builders.any fun b ↦ b.holds && b.lockFile == some ino
  | _ => false

/-- What a call answers, and leaves. -/
def outcome (o : Call Byte Inputs Record Rows) :
    Option (String × Disk.Cut) → Except String o.Ret × Disk Byte Inputs Record Rows
  | none => Disk.answer x o s.disk
  | some (err, c) => (.error err, s.disk.cut c o)

/-- What a process that is killed leaves. -/
def leaves (b : Builder Byte Inputs Record Rows) (c : Disk.Cut) : Disk Byte Inputs Record Rows :=
  match b.prog with
  | .call o _ => s.disk.cut c o
  | _ => s.disk

/-- One step of a builder or of a clear; none if it has to wait. -/
def step : BuilderEvent Tree Inputs → Option (Builders Byte Inputs Record Rows)
  | .spawn e => some { s with builders := s.builders ++
    [⟨buildAttempt x format e, none, false, none⟩] }
  | .call i fault =>
    s.builders[i]?.bind fun b ↦
      match b.prog with
      | .call o k =>
        if fault.isNone && s.waits o then none
        else some { s with
          disk := (s.outcome x o fault).2
          builders := s.builders.set i
            (b.after o (s.outcome x o fault).1 (k (s.outcome x o fault).1)) }
      | _ => none
  | .die i c =>
    s.builders[i]?.map fun b ↦
      { s with
        disk := s.leaves b c
        builders := s.builders.set i (.ended (.fail "killed")) }
  | .clear => some { s with clears := s.clears ++ [.waiting] }
  | .remove j entry =>
    s.clears[j]?.bind fun c ↦
      if c = .ended then none
      else some { s with
        disk := s.disk.remove entry
        clears := s.clears.set j .removing }
  | .clearEnds j =>
    s.clears[j]?.bind fun c ↦
      if c = .ended then none else some { s with clears := s.clears.set j .ended }

end Builders

/-- Nobody runs, and nothing is on disk. -/
def builderMachine (x : Project Tree Inputs Record Rows)
    (format : ManifestFormat Byte Inputs Record) :
    Machine (Builders Byte Inputs Record Rows) (BuilderEvent Tree Inputs) where
  start := { disk := .empty, builders := [], clears := [] }
  step := Builders.step x format

/-- Nothing is left of what was published. -/
def Disk.Cleared (d : Disk Byte Inputs Record Rows) : Prop :=
  d.current = none ∧ d.snapshots.keys = []

/-- The builder is about to open the lock file. -/
def Builders.isOpening (s : Builders Byte Inputs Record Rows) (i : ℕ) : Bool :=
  s.builders[i]?.any fun b ↦
    match b.prog with
    | .call .openLock _ => true
    | _ => false

/-- The step is none of a clear that meets a build, or stops halfway: no builder opens the lock file
while a clear is removing, none has it open when something is removed, and a clear that has removed
something ends when all is gone. -/
def Builders.Apart (s : Builders Byte Inputs Record Rows) : BuilderEvent Tree Inputs → Prop
  | .call i _ => s.isOpening i = true → .removing ∉ s.clears
  | .remove _ _ => ∀ b ∈ s.builders, b.lockFile = none
  | .clearEnds j => s.clears[j]? = some .removing → s.disk.Cleared
  | _ => True

instance (d : Disk Byte Inputs Record Rows) : Decidable d.Cleared :=
  inferInstanceAs (Decidable (_ ∧ _))

instance (s : Builders Byte Inputs Record Rows) : (e : BuilderEvent Tree Inputs) →
    Decidable (s.Apart e)
  | .call _ _ => inferInstanceAs (Decidable (_ → _))
  | .remove _ _ => inferInstanceAs (Decidable (∀ b ∈ s.builders, b.lockFile = none))
  | .clearEnds _ => inferInstanceAs (Decidable (_ → _))
  | .spawn _ | .die _ _ | .clear => inferInstanceAs (Decidable True)

/-! ### What is kept up -/

variable {x : Project Tree Inputs Record Rows} {format : ManifestFormat Byte Inputs Record}
  {d d' : Disk Byte Inputs Record Rows} {b b' : Builder Byte Inputs Record Rows} {i : ℕ}
  {s s' : Builders Byte Inputs Record Rows} {o : Call Byte Inputs Record Rows}
  {r : Except String o.Ret}

/-- No call takes the lock file away, or the directory. -/
theorem outcomes_lock {faulty : Bool} (h : outcomes x faulty o d r d') :
    (∀ ino, d.lock = some ino → d'.lock = some ino) ∧ (d.present = true → d'.present = true) := by
  rcases h with hanswer | ⟨-, -, c, -, rfl⟩
  · obtain rfl : (Disk.answer x o d).2 = d' := congrArg Prod.snd hanswer
    clear hanswer
    cases o with
    | ensureDirs => exact ⟨fun _ h ↦ h, fun _ ↦ rfl⟩
    | openLock =>
      dsimp only [Disk.answer]
      split_ifs
      · split
        · exact ⟨fun _ h ↦ h, fun h ↦ h⟩
        next hnone => exact ⟨fun ino h ↦ absurd (hnone.symm.trans h) nofun, fun h ↦ h⟩
      · exact ⟨fun _ h ↦ h, fun h ↦ h⟩
    | copyToPath id _ | writeManifest id _ | createDir id _ | writeTmp id | removeDir id =>
      dsimp only [Disk.answer]
      split_ifs <;> simp
    | openStaged id | renameTmp | readCurrent | readManifest id | openEnv id =>
      dsimp only [Disk.answer]
      split <;> simp
    | listSnapshots =>
      dsimp only [Disk.answer]
      split_ifs <;> simp
    | writeCrate id _ _ =>
      dsimp only [Disk.answer]
      simp
    | _ => exact ⟨fun _ h ↦ h, fun h ↦ h⟩
  · obtain ⟨-, -, hpresent, hlock⟩ := Disk.cut_other d c o
    rw [hpresent, hlock]
    exact ⟨fun _ h ↦ h, fun h ↦ h⟩

/-- Where a builder is. -/
inductive Builder.Stage (x : Project Tree Inputs Record Rows)
    (format : ManifestFormat Byte Inputs Record)
    (d : Disk Byte Inputs Record Rows) : Builder Byte Inputs Record Rows → Prop
  | dirs (e : Attempt Tree Inputs) : Stage x format d ⟨buildAttempt x format e, none, false, none⟩
  | opening (e : Attempt Tree Inputs) : Stage x format d
    ⟨call .openLock >>= fun ino ↦ call (.lock ino) >>= fun _ ↦
    underLock x format e, none, false, none⟩
  | locking (e : Attempt Tree Inputs) (ino : ℕ) : Stage x format d
    ⟨call (.lock ino) >>= fun _ ↦ underLock x format e, some ino, false, none⟩
  | working (prog) (ino : ℕ) (staged : Option (GraphId Inputs))
    (hguarded : Guarded (outcomes x true) (Allowed (Judge.any x) format) prog d) :
    Stage x format d ⟨prog, some ino, true, staged⟩
  | ended (prog) (hended : ∀ o k, prog ≠ .call o k) : Stage x format d (.ended prog)

theorem Builder.Stage.of_not_holds (h : b.Stage x format d) (hholds : b.holds = false) :
    b.Stage x format d' := by
  cases h with
  | dirs e => exact .dirs e
  | opening e => exact .opening e
  | locking e ino => exact .locking e ino
  | working prog ino staged hguarded => cases hholds
  | ended prog hended => exact .ended prog hended

/-- Whoever occupies a snapshot holds the lock. -/
theorem Builder.Stage.holds_of_occupies (h : b.Stage x format d) {id : GraphId Inputs}
    (hoccupies : b.Occupies id) : b.holds = true := by
  rcases hoccupies with hstaged | ⟨o, k, hprog, htouches⟩
  · cases h with
    | working => rfl
    | _ => cases hstaged
  · cases h with
    | working => rfl
    | ended prog hended => exact absurd hprog (hended o k)
    | _ => cases hprog; cases htouches

namespace Builders

/-- What is kept up, as long as clears keep apart. -/
structure Inv (x : Project Tree Inputs Record Rows) (format : ManifestFormat Byte Inputs Record)
    (s : Builders Byte Inputs Record Rows) : Prop where
  sound : .removing ∉ s.clears → s.disk.Sound (Judge.any x) format
  closed : .removing ∈ s.clears → ∀ (i : ℕ) b, s.builders[i]? = some b → b.lockFile = none
  opened : ∀ (i : ℕ) b ino, s.builders[i]? = some b → b.lockFile = some ino →
    s.disk.lock = some ino ∧ s.disk.present = true
  apart : ∀ (i j : ℕ) b b', s.builders[i]? = some b → s.builders[j]? = some b' → b.holds = true →
    b'.holds = true → i = j
  stage : ∀ (i : ℕ) b, s.builders[i]? = some b → b.Stage x format s.disk

/-- Who holds the lock has the file open. -/
theorem Inv.lockFile (h : s.Inv x format) (hb : s.builders[i]? = some b) (hholds : b.holds = true) :
    ∃ ino, b.lockFile = some ino := by
  cases h.stage i b hb with
  | working prog ino staged hguarded => exact ⟨ino, rfl⟩
  | _ => cases hholds

/-- A builder moves: while another holds the lock, it leaves the disk alone. -/
theorem Inv.move (h : s.Inv x format) (hb : s.builders[i]? = some b)
    (hsound : .removing ∉ s.clears → d'.Sound (Judge.any x) format)
    (hclosed : .removing ∈ s.clears → b'.lockFile = none)
    (hopened : ∀ ino, b'.lockFile = some ino → d'.lock = some ino ∧ d'.present = true)
    (hlock : ∀ ino, s.disk.lock = some ino → d'.lock = some ino)
    (hpresent : s.disk.present = true → d'.present = true)
    (hholds : b'.holds = true → b.holds = true ∨
    ∀ (j : ℕ) c, s.builders[j]? = some c → c.holds = false) (hstage : b'.Stage x format d')
    (halone : b.holds = true ∨ ∀ (j : ℕ) c, s.builders[j]? = some c →
    c.holds = true → d' = s.disk) :
    ({ s with disk := d', builders := s.builders.set i b' } :
    Builders Byte Inputs Record Rows).Inv x format := by
  refine ⟨hsound, fun hremoving j c hc ↦ ?_, fun j c ino hc hino ↦
    ?_, fun j k c c' hc hc' hj hk ↦ ?_, fun j c hc ↦ ?_⟩
  · rcases Pool.getElem?_set_cases hc with ⟨-, rfl⟩ | ⟨-, hold⟩
    · exact hclosed hremoving
    · exact h.closed hremoving j c hold
  · rcases Pool.getElem?_set_cases hc with ⟨-, rfl⟩ | ⟨-, hold⟩
    · exact hopened ino hino
    · obtain ⟨hlock', hpresent'⟩ := h.opened j c ino hold hino
      exact ⟨hlock ino hlock', hpresent hpresent'⟩
  · have hother : ∀ (l : ℕ) a, s.builders[l]? = some a → a.holds = true →
      b'.holds = true → l = i := by
      intro l a ha hla hi
      rcases hholds hi with hold | hnone
      · exact h.apart l i a b ha hb hla hold
      · rw [hnone l a ha] at hla
        cases hla
    rcases Pool.getElem?_set_cases hc with ⟨rfl, rfl⟩ | ⟨-, hold⟩ <;>
      rcases Pool.getElem?_set_cases hc' with ⟨rfl, rfl⟩ | ⟨-, hold'⟩
    · rfl
    · exact (hother k c' hold' hk hj).symm
    · exact hother j c hold hj hk
    · exact h.apart j k c c' hold hold' hj hk
  · rcases Pool.getElem?_set_cases hc with ⟨-, rfl⟩ | ⟨hne, hold⟩
    · exact hstage
    · rcases hc' : c.holds with - | -
      · exact (h.stage j c hold).of_not_holds hc'
      · rcases halone with hi | hsame
        · exact absurd (h.apart j i c b hold hb hc' hi) hne
        · rw [hsame j c hold hc']
          exact h.stage j c hold

/-- The prelude of a build leaves the disk of one that has the lock alone. -/
theorem Inv.unchanged (h : s.Inv x format) (hstep : outcomes x true o s.disk r d')
    (ho : o = .ensureDirs ∨ o = .openLock ∨ ∃ ino, o = .lock ino) :
    ∀ (j : ℕ) c, s.builders[j]? = some c → c.holds = true → d' = s.disk := by
  intro j c hc hholds
  obtain ⟨ino, hino⟩ := h.lockFile hc hholds
  obtain ⟨hlock, hpresent⟩ := h.opened j c ino hc hino
  rcases hstep with hanswer | ⟨-, err, c, -, rfl⟩
  · obtain rfl : (Disk.answer x o s.disk).2 = d' := congrArg Prod.snd hanswer
    rcases ho with rfl | rfl | ⟨ino', rfl⟩
    · show ({ s.disk with present := true } : Disk Byte Inputs Record Rows) = s.disk
      rw [← hpresent]
    · dsimp only [Disk.answer]
      rw [if_pos hpresent, hlock]
    · rfl
  · rcases ho with rfl | rfl | ⟨ino', rfl⟩ <;> rfl

/-- A builder that has ended takes nothing with it. -/
theorem Inv.leave (h : s.Inv x format) (hb : s.builders[i]? = some b)
    {prog : GraphProg Byte Inputs Record Rows (BuildResult Inputs)}
    (hended : ∀ o k, prog ≠ .call o k)
    (hsound : .removing ∉ s.clears → d'.Sound (Judge.any x) format)
    (hlock : ∀ ino, s.disk.lock = some ino → d'.lock = some ino)
    (hpresent : s.disk.present = true → d'.present = true)
    (halone : b.holds = true ∨ ∀ (j : ℕ) c, s.builders[j]? = some c →
    c.holds = true → d' = s.disk) :
    ({ s with disk := d', builders := s.builders.set i (.ended prog) } :
      Builders Byte Inputs Record Rows).Inv x format :=
  h.move hb hsound (fun _ ↦ rfl) nofun hlock hpresent nofun (.ended prog hended) halone

/-- What has the file open keeps it open. -/
theorem opens_eq {ino : ℕ} (hstep : outcomes x true o d r d') (hlock : d.lock = some ino) :
    o.opens r (some ino) = some ino := by
  cases o with
  | openLock =>
    rcases r with err | ino'
    · rfl
    · rcases hstep with hanswer | ⟨-, err, c, hr, -⟩
      · dsimp only [Disk.answer] at hanswer
        rw [hlock] at hanswer
        split_ifs at hanswer
        · show some ino' = some ino
          rw [Except.ok.inj (congrArg Prod.fst hanswer)]
        · cases congrArg Prod.fst hanswer
      · cases hr
  | _ => rfl

omit [DecidableEq Inputs] in
theorem locks_true : o.locks r true = true := by
  cases o <;> first | rfl | (rcases r with err | a <;> rfl)

/-- **A call of a builder keeps it up.** -/
theorem Inv.call (h : s.Inv x format) (hb : s.builders[i]? = some b)
    {k : Except String o.Ret → GraphProg Byte Inputs Record Rows (BuildResult Inputs)}
    (hprog : b.prog = .call o k) (hstep : outcomes x true o s.disk r d')
    (hfree : (∃ a, r = .ok a) → s.waits o = false) (hopen : o = .openLock → .removing ∉ s.clears) :
    ({ s with disk := d', builders := s.builders.set i (b.after o r (k r)) } :
      Builders Byte Inputs Record Rows).Inv x format := by
  obtain ⟨hlock, hpresent⟩ := outcomes_lock hstep
  cases h.stage i b hb with
  -- Not yet at the lock file: the call changes nothing that another builder sees.
  | dirs e =>
    cases hprog
    have halone := h.unchanged hstep (.inl rfl)
    have hsound := fun hnot ↦ (h.sound hnot).step (o := .ensureDirs) trivial hstep
    rcases r with err | _
    · exact h.leave hb nofun hsound hlock hpresent (.inr halone)
    · exact h.move hb hsound (fun _ ↦ rfl) nofun hlock hpresent nofun (.opening e) (.inr halone)
  | opening e =>
    cases hprog
    have halone := h.unchanged hstep (.inr (.inl rfl))
    have hsound := fun hnot ↦ (h.sound hnot).step (o := .openLock) trivial hstep
    rcases r with err | ino
    · exact h.leave hb nofun hsound hlock hpresent (.inr halone)
    · refine h.move hb hsound (fun hremoving ↦ absurd hremoving (hopen rfl)) ?_ hlock hpresent nofun
        (.locking e ino) (.inr halone)
      -- Either there was a lock file, and it is that one, or this call made it.
      intro ino' hino'
      obtain rfl : ino = ino' := Option.some.inj hino'
      rcases hstep with hanswer | ⟨-, err, c, hr, -⟩
      · dsimp only [Disk.answer] at hanswer
        split_ifs at hanswer with hthere
        · split at hanswer
          next hsome =>
            cases hanswer
            exact ⟨hsome, hthere⟩
          next hnone =>
            cases hanswer
            exact ⟨rfl, hthere⟩
        · cases congrArg Prod.fst hanswer
      · cases hr
  | locking e ino =>
    cases hprog
    have halone := h.unchanged hstep (.inr (.inr ⟨ino, rfl⟩))
    have hsound := fun hnot ↦ (h.sound hnot).step (o := .lock ino) trivial hstep
    -- A builder that has the lock file open keeps the removing clears away.
    have hclear : .removing ∉ s.clears := fun hremoving ↦ nomatch h.closed hremoving i _ hb
    rcases r with err | _
    · exact h.leave hb nofun hsound hlock hpresent (.inr halone)
    · obtain ⟨hino, hthere⟩ := h.opened i _ ino hb rfl
      refine h.move hb hsound (fun hremoving ↦ absurd hremoving hclear) ?_ hlock hpresent
        (fun _ ↦ .inr ?_)
        (.working _ ino _ ?_) (.inr halone)
      · rintro _ ⟨rfl⟩
        exact ⟨hlock ino hino, hpresent hthere⟩
      · -- Whoever holds a lock holds that one.
        intro j c hc
        by_contra hholds
        have hholds : c.holds = true := by simpa using hholds
        obtain ⟨ino', hino'⟩ := h.lockFile hc hholds
        obtain rfl := Option.some.inj (hino.symm.trans (h.opened j c ino' hc hino').1)
        have hwaits := hfree ⟨(), rfl⟩
        rw [waits, List.any_eq_false] at hwaits
        refine hwaits c (List.mem_of_getElem? hc) ?_
        rw [hino', hholds]
        exact beq_self_eq_true _
      -- From here on the build is under the lock, where its triple holds.
      · have htriple : Triple (outcomes x true) (Allowed (Judge.any x) format) _
          (underLock x format e)
            (fun result d ↦ d.Shows (Judge.any x) format result.graphId e.tree) fun _ ↦
              true = true :=
          underLock_triple
        exact htriple.guarded d' ⟨hsound hclear, hpresent hthere, ⟨trivial, fun _ _ _ _ ↦ trivial⟩,
          fun _ ↦ .inr rfl⟩
  | working prog ino staged hguarded =>
    dsimp only at hprog
    subst hprog
    have hclear : .removing ∉ s.clears := fun hremoving ↦ nomatch h.closed hremoving i _ hb
    obtain ⟨hino, hthere⟩ := h.opened i _ ino hb rfl
    have hsound := (h.sound hclear).step hguarded.1 hstep
    have hrest := hguarded.2 r d' hstep
    rcases hk : k r with result | err | ⟨o', k'⟩
    -- The program has ended, in a result or in an error, and its lock goes with it.
    · exact h.leave hb nofun (fun _ ↦ hsound) hlock hpresent (.inl rfl)
    · exact h.leave hb nofun (fun _ ↦ hsound) hlock hpresent (.inl rfl)
    · rw [hk] at hrest
      refine h.move hb (fun _ ↦ hsound) (fun hremoving ↦ absurd hremoving hclear) ?_ hlock hpresent
        (fun _ ↦ .inl rfl) ?_ (.inl rfl)
      · intro ino' hino'
        rw [show (Builder.after _ o r (.call o' k')).lockFile = o.opens r (some ino) from rfl,
          opens_eq hstep hino] at hino'
        rw [← Option.some.inj hino']
        exact ⟨hlock ino hino, hpresent hthere⟩
      · have hworking : Builder.Stage x format _ ⟨_, some ino, true, o.stages r staged⟩ :=
          .working _ ino (o.stages r staged) hrest
        rw [← opens_eq hstep hino, ← locks_true (o := o) (r := r)] at hworking
        exact hworking
  | ended prog hended => exact absurd hprog (hended o k)

/-- A process that is killed leaves what its call may leave. -/
theorem Inv.die (h : s.Inv x format) (hb : s.builders[i]? = some b) (c : Disk.Cut) :
    ({ s with disk := s.leaves b c, builders := s.builders.set i (.ended (.fail "killed")) } :
      Builders Byte Inputs Record Rows).Inv x format := by
  rcases hprog : b.prog with result | err | ⟨o, k⟩
  · rw [show s.leaves b c = s.disk by rw [leaves, hprog]]
    exact h.leave hb nofun h.sound (fun _ h ↦ h) (fun h ↦ h) (.inr fun _ _ _ _ ↦ rfl)
  · rw [show s.leaves b c = s.disk by rw [leaves, hprog]]
    exact h.leave hb nofun h.sound (fun _ h ↦ h) (fun h ↦ h) (.inr fun _ _ _ _ ↦ rfl)
  · rw [show s.leaves b c = s.disk.cut c o by rw [leaves, hprog]]
    have hstep : outcomes x true o s.disk (.error "killed") (s.disk.cut c o) :=
      .inr ⟨rfl, _, c, rfl, rfl⟩
    obtain ⟨hlock, hpresent⟩ := outcomes_lock hstep
    have hmove (hsound : .removing ∉ s.clears → (s.disk.cut c o).Sound (Judge.any x) format)
        (hlock : ∀ ino, s.disk.lock = some ino → (s.disk.cut c o).lock = some ino)
        (hpresent : s.disk.present = true → (s.disk.cut c o).present = true)
        (halone : b.holds = true ∨ ∀ (j : ℕ) other, s.builders[j]? = some other →
          other.holds = true → s.disk.cut c o = s.disk) :
        ({ s with
          disk := s.disk.cut c o
          builders := s.builders.set i (.ended (.fail "killed")) } :
          Builders Byte Inputs Record Rows).Inv x format :=
      h.leave hb nofun hsound hlock hpresent halone
    cases h.stage i b hb with
    | dirs e =>
      cases hprog
      exact hmove h.sound hlock hpresent (.inr fun _ _ _ _ ↦ rfl)
    | opening e =>
      cases hprog
      exact hmove h.sound hlock hpresent (.inr fun _ _ _ _ ↦ rfl)
    | locking e ino =>
      cases hprog
      exact hmove h.sound hlock hpresent (.inr fun _ _ _ _ ↦ rfl)
    | working prog ino staged hguarded =>
      dsimp only at hprog
      subst hprog
      exact hmove (fun hnot ↦ (h.sound hnot).step hguarded.1 hstep) hlock hpresent (.inl rfl)
    | ended prog hended => exact absurd hprog (hended o k)

theorem sound_of_cleared (hcleared : d.Cleared) : d.Sound (Judge.any x) format := by
  have hnone : ∀ id dir, d.snapshots.lookup id ≠ some dir := by
    intro id dir hdir
    have hmem : id ∈ d.snapshots.keys :=
      AList.mem_keys.1 (AList.lookup_isSome.1 (by rw [hdir]; rfl))
    rw [hcleared.2] at hmem
    cases hmem
  refine ⟨fun id dir hdir ↦ absurd hdir (hnone id dir), fun id hid ↦ ?_, fun n dir hdir ↦
    absurd hdir (hnone _ dir)⟩
  rw [hcleared.1] at hid
  cases hid

/-- Clears move, and nobody has the lock file open if one is removing. -/
theorem Inv.clears (h : s.Inv x format) {clears : List Clear}
    (hsound : .removing ∉ clears → d'.Sound (Judge.any x) format)
    (hclosed : .removing ∈ clears → ∀ (i : ℕ) b, s.builders[i]? = some b → b.lockFile = none)
    (hdisk : d' = s.disk ∨ ∀ (i : ℕ) b, s.builders[i]? = some b → b.lockFile = none) :
    ({ s with disk := d', clears := clears } : Builders Byte Inputs Record Rows).Inv x format := by
  refine ⟨hsound, hclosed, fun j c ino hc hino ↦ ?_, h.apart, fun j c hc ↦ ?_⟩
  · rcases hdisk with rfl | hnone
    · exact h.opened j c ino hc hino
    · rw [hnone j c hc] at hino
      cases hino
  · rcases hdisk with rfl | hnone
    · exact h.stage j c hc
    · refine (h.stage j c hc).of_not_holds (Bool.not_eq_true _ ▸ fun hholds ↦ ?_)
      obtain ⟨ino, hino⟩ := h.lockFile hc hholds
      rw [hnone j c hc] at hino
      cases hino

/-- **Every step keeps it up** in which clears keep apart. -/
theorem Inv.step (h : s.Inv x format) {e : BuilderEvent Tree Inputs} (hapart : s.Apart e)
    (hstep : s.step x format e = some s') : s'.Inv x format := by
  cases e with
  | spawn e =>
    cases hstep
    refine ⟨h.sound, fun hremoving j c hc ↦ ?_, fun j c ino hc hino ↦
      ?_, fun j k c c' hc hc' hj hk ↦ ?_, fun j c hc ↦ ?_⟩
    -- The new builder has opened nothing and holds nothing.
    · rcases Pool.getElem?_concat_cases hc with hold | rfl
      · exact h.closed hremoving j c hold
      · rfl
    · rcases Pool.getElem?_concat_cases hc with hold | rfl
      · exact h.opened j c ino hold hino
      · cases hino
    · rcases Pool.getElem?_concat_cases hc with hold | rfl
      · rcases Pool.getElem?_concat_cases hc' with hold' | rfl
        · exact h.apart j k c c' hold hold' hj hk
        · cases hk
      · cases hj
    · rcases Pool.getElem?_concat_cases hc with hold | rfl
      · exact h.stage j c hold
      · exact .dirs e
  | call i fault =>
    obtain ⟨b, hb, hmove⟩ := Option.bind_eq_some_iff.1 hstep
    split at hmove
    next o k hprog =>
      split_ifs at hmove with hwaits
      cases hmove
      -- A call that failed may answer at once; one that succeeds was not waiting for a lock.
      refine h.call hb hprog ?_ (fun hok ↦ ?_) fun ho ↦ hapart ?_
      · rcases fault with - | ⟨err, c⟩
        · exact .inl rfl
        · exact .inr ⟨rfl, err, c, rfl, rfl⟩
      · rcases fault with - | ⟨err, c⟩
        · simpa using hwaits
        · obtain ⟨a, ha⟩ := hok
          cases ha
      · subst ho
        rw [isOpening, hb, Option.any_some, hprog]
    next => cases hmove
  | die i c =>
    obtain ⟨b, hb, rfl⟩ := Option.map_eq_some_iff.1 hstep
    exact h.die hb c
  | clear =>
    cases hstep
    have hmem : .removing ∈ s.clears ++ [Clear.waiting] ↔ .removing ∈ s.clears := by simp
    exact h.clears (fun hnot ↦ h.sound fun hin ↦ hnot (hmem.2 hin))
      (fun hin ↦ h.closed (hmem.1 hin)) (.inl rfl)
  | remove j entry =>
    obtain ⟨c, hc, hmove⟩ := Option.bind_eq_some_iff.1 hstep
    split_ifs at hmove
    cases hmove
    have hin : .removing ∈ s.clears.set j .removing :=
      List.mem_set (List.getElem?_eq_some_iff.1 hc).1 _
    -- The condition on the step: no builder has the lock file open.
    have hclosed : ∀ (i : ℕ) b, s.builders[i]? = some b → b.lockFile = none :=
      fun i b hb ↦ hapart b (List.mem_of_getElem? hb)
    exact h.clears (fun hnot ↦ absurd hin hnot) (fun _ ↦ hclosed) (.inr hclosed)
  | clearEnds j =>
    obtain ⟨c, hc, hmove⟩ := Option.bind_eq_some_iff.1 hstep
    split_ifs at hmove with hended
    cases hmove
    have hof : .removing ∈ s.clears.set j .ended → .removing ∈ s.clears := fun hin ↦
      (List.mem_or_eq_of_mem_set hin).resolve_right nofun
    refine h.clears (fun hnot ↦ ?_) (fun hin ↦ h.closed (hof hin)) (.inl rfl)
    -- Only a clear that was removing gives the disk back, and it leaves it sound.
    by_cases hremoving : c = .removing
    · exact sound_of_cleared (hapart (hremoving ▸ hc))
    · refine h.sound fun hin ↦ hnot ?_
      obtain ⟨k, hk⟩ := List.mem_iff_getElem?.1 hin
      have hne : j ≠ k := by
        rintro rfl
        exact hremoving (Option.some.inj (hc.symm.trans hk))
      exact List.mem_of_getElem? ((List.getElem?_set_ne hne).trans hk)

end Builders

/-- **While clears keep apart from builds**, `CURRENT` names a whole snapshot whenever no clear is
in progress, and no two builders write into a snapshot, or remove it, at the same time. -/
theorem builders_of_reachable (h : (builderMachine x format).Reachable Builders.Apart s) :
    ((∀ c ∈ s.clears, c = .ended) → ∀ current, s.disk.current = some current → ∃ id dir,
      current = some id ∧ s.disk.snapshots.lookup id = some dir ∧
        dir.manifest = some (dir.manifestOf format id) ∧ dir.data = some (some (x.rows dir.job))) ∧
    ∀ (i j : ℕ) b b' id, s.builders[i]? = some b → s.builders[j]? = some b' → b.Occupies id →
      b'.Occupies id → i = j := by
  have hinv : s.Inv x format := by
    refine h.invariant ⟨fun _ ↦ ⟨nofun, nofun, nofun⟩, nofun, nofun, nofun, nofun⟩
      fun t e u hok hstep hinv ↦ ?_
    exact hinv.step hok hstep
  refine ⟨fun hended current hcurrent ↦ ?_, fun i j b b' id hb hb' hoccupies hoccupies' ↦ ?_⟩
  · have hclear : .removing ∉ s.clears := fun hin ↦ nomatch hended _ hin
    obtain ⟨id, dir, rfl, hdir, hcomplete⟩ := (hinv.sound hclear).current current hcurrent
    exact ⟨id, dir, rfl, hdir, hcomplete.manifest, hcomplete.data⟩
  · exact hinv.apart i j b b' hb hb' ((hinv.stage i b hb).holds_of_occupies hoccupies)
      ((hinv.stage j b' hb').holds_of_occupies hoccupies')

/-! ### A clear in the middle of a build -/

/-- A tree that is one crate, of one row. -/
def plain : Project String String String (List String) where
  inputs tree := tree
  recorded record := record
  empty := []
  job tree _ :=
    { base := none
      writes := [fun rows ↦ rows ++ [tree]]
      record := tree }
  recorded_job _ _ := rfl

/-- A manifest between two marks. -/
def plainManifests : ManifestFormat (Option (GraphManifest String String)) String String :=
  .marked _

/-- Builders of plain trees. -/
abbrev PlainBuilders : Type :=
  Builders (Option (GraphManifest String String)) String String (List String)

/-- A build of a tree, not forced. -/
def attemptOf (tree : String) : Attempt String String where
  tree
  forceRebuild := false
  isOpen _ := false

/-- So many calls of a builder. -/
def calls (i n : ℕ) : List (BuilderEvent String String) :=
  List.replicate n (.call i none)

/-- One builder has the lock when the directory is cleared. The next makes the lock file anew, and
publishes; the first one publishes after it, and what it has published is what the second removes.
-/
theorem current_removed : ∃ s : PlainBuilders,
    (builderMachine plain plainManifests).Reachable Any s ∧
    s.clears = [.ended] ∧ s.disk.current = some (some (.of "a")) ∧
      s.disk.snapshots.lookup (.of "a") = none := by
  have hreach := reachable_get (by decide +kernel : ((builderMachine plain plainManifests).run
    (builderMachine plain plainManifests).start ([.spawn (attemptOf "a")] ++ calls 0 3 ++
      [.clear, .remove 0 .lock, .remove 0 .root, .clearEnds 0, .spawn (attemptOf "b")] ++
        calls 1 20 ++
        calls 0 24 ++ calls 1 2)).isSome = true)
  exact ⟨_, hreach, by decide +kernel, by decide +kernel, by decide +kernel⟩

/-- A build, a clear, and another build that is writing rows. -/
theorem builders_of_reachable_cleared : ∃ s : PlainBuilders,
    s.disk.current = none ∧ s.clears = [.ended] ∧
    s.builders[1]?.bind Builder.staged = some (.of "b") ∧
      ∀ (i j : ℕ) b b' id, s.builders[i]? = some b → s.builders[j]? = some b' → b.Occupies id →
        b'.Occupies id → i = j := by
  have hrun := Option.some_get (by decide +kernel : ((builderMachine plain plainManifests).runIf
    (fun s e ↦ s.Apart e) (builderMachine plain plainManifests).start
      ([.spawn (attemptOf "a")] ++ calls 0 21 ++
      [.clear, .remove 0 .lock, .remove 0 .current, .remove 0 (.files (.of "a") true true),
        .remove 0 (.snapshot (.of "a")), .remove 0 .root, .clearEnds 0, .spawn (attemptOf "b")] ++
        calls 1 15)).isSome = true)
  have hreach : (builderMachine plain plainManifests).Reachable Builders.Apart _ :=
    ⟨_, runs_of_runIf (fun _ _ h ↦ of_decide_eq_true h) hrun.symm⟩
  exact ⟨_, by decide +kernel, by decide +kernel, by decide +kernel,
    (builders_of_reachable hreach).2⟩

end RustCodeMcp.Graph
