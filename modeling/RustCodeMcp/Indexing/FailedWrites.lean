import RustCodeMcp.Indexing.Footprints

/-!
# Writes that fail

A run goes on after a write that failed, and counts the files of that write among those to retry;
but it counts others among them too, whose preparation failed, or whose record could not be
forgotten. To say of which files a *write* failed, the calls are taken notes of: the files whose
chunks have been touched since the last probe for disk space, which comes before whatever is to be
written next, and, when a call that touches a store fails, all of these as failed (`Call.note`).

**A write that fails half-way has failed for the files it touched** (`TakesDown`), and whatever it
did not touch is as it was (`Untouched`). A call that touches no store notes nothing, and neither
does one that succeeds take any file down.

The notes are no part of the program: they are taken beside it, of any execution there is
(`executes_noted`), and two executions that make the same calls have the same notes. What a theorem
says of the files of failed writes is thereby about every run.
-/

namespace RustCodeMcp

open Effect

variable {D α β : Type} {env : Env D}

/-! ### Notes of a run -/

/-- The files that have been touched since the last probe, and those whose write failed. -/
structure Noted where
  current : List PathBuf := []
  failed : List PathBuf := []

/-- The files whose chunks a call changes in a store. -/
def Call.touched : Call D → Option (List PathBuf)
  | deleteFile path => some [path]
  | deleteByFilePaths paths => some paths
  | addDocument document => some [document.filePath]
  | insertRows rows => some (rows.map Row.filePath)
  | _ => none

/-- The probe for disk space. -/
def Call.isProbe : Call D → Bool
  | ensureDiskHeadroom => true
  | _ => false

/-- What a store is asked to change is noted, and taken down with the call if that fails. -/
def Call.note (call : Call D) (answer : Except String call.Ret) (noted : Noted) : Noted :=
  match call.touched with
  | some paths =>
    { current := noted.current ++ paths
      failed := if answer.isOk then noted.failed
        else noted.failed ++ (noted.current ++ paths) }
  | none => { noted with current := if call.isProbe then [] else noted.current }

/-- The calls of a run when any of them may fail, with notes of the writes. -/
abbrev World.noted (env : Env D) : Outcomes String (@Call.Ret D) (World D × Noted) :=
  (World.mayFail env).noting Call.note

/-- Every execution can be taken such notes of. -/
theorem executes_noted {x : Task D α} {w w' : World D} {r : Except String α} :
    Executes (World.mayFail env) x w r w' ↔
      ∃ notes, Executes (World.noted env) x (w, {}) r (w', notes) :=
  executes_noting

/-- What a touching call notes: its files, and all of them as failed if it fails. -/
theorem Call.note_touched {call : Call D} {paths : List PathBuf} {noted : Noted}
    {answer : Except String call.Ret} (h : call.touched = some paths) :
    call.note answer noted =
      { current := noted.current ++ paths
        failed := if answer.isOk then noted.failed
          else noted.failed ++ (noted.current ++ paths) } := by
  unfold note
  rw [h]

theorem Call.note_untouched {call : Call D} {noted : Noted} {answer : Except String call.Ret}
    (h : call.touched = none) :
    call.note answer noted =
      { noted with current := if call.isProbe then [] else noted.current } := by
  unfold note
  rw [h]

/-- A call that touches no store, or succeeds, takes no file down. -/
theorem Call.failed_note {call : Call D} {noted : Noted} {answer : Except String call.Ret}
    (h : call.touched = none ∨ answer.isOk = true) :
    (call.note answer noted).failed = noted.failed := by
  rcases htouched : call.touched with - | paths
  · rw [note_untouched htouched]
  · rw [note_touched htouched]
    exact if_pos (h.resolve_left (by simp [htouched]))

/-! ### Calls that touch no store -/

section Untouching

variable {s t : World D × Noted} {x : Task D α}

/-- A program that touches no store fails no write. -/
theorem failed_of_untouching (hx : Only (fun call ↦ call.touched = none) x)
    (h : Visits (World.noted env) x s t) : t.2.failed = s.2.failed :=
  hx.visits (fun t ↦ t.2.failed = s.2.failed)
    (fun call u r t hcall hstep hu ↦ by
      rw [hstep.2, Call.failed_note (.inl hcall), hu]) rfl h

/-- A program that does not probe either changes no note. -/
theorem notes_eq_of_silent (hx : Only (fun call ↦ call.touched = none ∧ call.isProbe = false) x)
    (h : Visits (World.noted env) x s t) : t.2 = s.2 :=
  hx.visits (fun t ↦ t.2 = s.2)
    (fun call u r t hcall hstep hu ↦ by
      rw [hstep.2, Call.note_untouched hcall.1, hcall.2, hu]
      rfl) rfl h

/-- It touches no file. -/
theorem current_of_untouching (hx : Only (fun call ↦ call.touched = none) x)
    (h : Visits (World.noted env) x s t) (hs : s.2.current = []) : t.2.current = [] :=
  hx.visits (fun t ↦ t.2.current = [])
    (fun call u r t hcall hstep hu ↦ by
      rw [hstep.2, Call.note_untouched hcall, hu]
      exact ite_self _) hs h

theorem untouching_of_reads (hx : Only Call.Reads x) :
    Only (fun call ↦ call.touched = none) x :=
  hx.mono fun call h ↦ by
    cases call <;> first | rfl | exact h.elim

theorem untouching_of_keepsStores (hx : Only Call.KeepsStores x) :
    Only (fun call ↦ call.touched = none) x :=
  hx.mono fun call h ↦ by
    cases call <;> first | rfl | exact h.elim

/-- **A program that passes every error on fails no write if it ends well.** -/
theorem failed_of_failFast (hx : FailFast x) {a : α}
    (h : Executes (World.noted env) x s (.ok a) t) : t.2.failed = s.2.failed := by
  induction x generalizing s with
  | ret b => rw [h.2]
  | fail e => cases h.1
  | call call k ih =>
    obtain ⟨answer, u, hstep, h⟩ := h
    rcases answer with e | b
    · obtain ⟨e', hk⟩ := hx.1 e
      rw [hk] at h
      cases h.1
    · rw [ih _ (hx.2 b) h, hstep.2, Call.failed_note (.inr rfl)]

end Untouching

/-! ### Calls that touch a store -/

section Touching

variable {s t u : World D × Noted}

/-- If it fails, whatever has been touched is down with it. -/
def TakesDown (env : Env D) (x : Task D α) : Prop :=
  ∀ s e t, Executes (World.noted env) x s (.error e) t → t.2.current ⊆ t.2.failed

theorem takesDown_pure {a : α} : TakesDown env (pure a : Task D α) :=
  fun _ _ _ h ↦ by cases h.1

theorem takesDown_request {call : Call D} {paths : List PathBuf} (h : call.touched = some paths) :
    TakesDown env (request call) := by
  intro s e t hexec
  have hnote : t.2 = call.note (.error e) s.2 := (executes_perform.1 hexec).2
  rw [Call.note_touched h] at hnote
  rw [hnote]
  exact List.subset_append_right _ _

theorem TakesDown.mapError {x : Task D α} (hx : TakesDown env x) (f : String → String) :
    TakesDown env (x.mapError f) := by
  intro s e t h
  obtain ⟨r, hr, h⟩ := executes_mapError.1 h
  rcases r with e' | a
  · exact hx s e' t h
  · cases hr

/-- One program after the other: either part may be the one that fails. -/
theorem TakesDown.bind {x : Task D α} {f : α → Task D β} (hx : TakesDown env x)
    (hf : ∀ a, TakesDown env (f a)) : TakesDown env (x >>= f) := by
  intro s e t h
  rcases executes_bind.1 h with ⟨a, u, -, h⟩ | ⟨e', h, -⟩
  · exact hf a u e t h
  · exact hx s e' t h

theorem TakesDown.forEach {f : β → Task D Unit} (hf : ∀ b, TakesDown env (f b)) (bs : List β) :
    TakesDown env (Prog.forEach f bs) := by
  induction bs with
  | nil => exact takesDown_pure
  | cons b bs ih => exact (hf b).bind fun _ ↦ ih

/-- What has not been touched in between is as it was. -/
structure Untouched (s t : World D × Noted) : Prop where
  current : s.2.current ⊆ t.2.current
  entry : ∀ path, path ∉ t.2.current → t.1.entry path = s.1.entry path

/-- The calls that change a store, of files among `paths`. -/
def Call.Touches (paths : List PathBuf) (call : Call D) : Prop :=
  ∃ touched, call.touched = some touched ∧ touched ⊆ paths

/-- A call changes the stores at the files it touches only. -/
theorem Call.within_touched {touched : List PathBuf} {call : Call D}
    (h : call.touched = some touched) : call.Within fun path ↦ path ∈ touched := by
  cases call with
  | deleteFile path =>
    obtain rfl := Option.some.inj h
    exact List.mem_singleton_self _
  | deleteByFilePaths removed =>
    obtain rfl := Option.some.inj h
    exact fun _ hpath ↦ hpath
  | addDocument document =>
    obtain rfl := Option.some.inj h
    exact List.mem_singleton_self _
  | insertRows rows =>
    obtain rfl := Option.some.inj h
    exact fun row hrow ↦ List.mem_map_of_mem hrow
  | _ => cases h

/-- **A program that touches files leaves the others as they were**, and notes those it touches. -/
theorem untouched_of_touches {paths : List PathBuf} {x : Task D α}
    (hx : Only (Call.Touches paths) x) (h : Visits (World.noted env) x s t) :
    Untouched s t ∧ t.2.current ⊆ s.2.current ++ paths ∧
      t.2.failed ⊆ s.2.failed ++ (s.2.current ++ paths) ∧ s.2.failed ⊆ t.2.failed := by
  refine hx.visits (fun t ↦ Untouched s t ∧ t.2.current ⊆ s.2.current ++ paths ∧
    t.2.failed ⊆ s.2.failed ++ (s.2.current ++ paths) ∧ s.2.failed ⊆ t.2.failed)
    (fun call u r t ⟨touched, htouched, hpaths⟩ hstep hu ↦ ?_)
    ⟨⟨fun _ h ↦ h, fun _ _ ↦ rfl⟩, List.subset_append_left _ _, List.subset_append_left _ _,
      fun _ h ↦ h⟩ h
  obtain ⟨huntouched, hcurrent, hfailed, hbefore⟩ := hu
  have hnote := hstep.2
  rw [Call.note_touched htouched] at hnote
  have hcurrent' : t.2.current = u.2.current ++ touched := by rw [hnote]
  have hnow : u.2.current ++ touched ⊆ s.2.current ++ paths := List.append_subset.2
    ⟨hcurrent, fun path hpath ↦ List.mem_append_right _ (hpaths hpath)⟩
  refine ⟨⟨?_, fun path hpath ↦ ?_⟩, ?_, ?_, ?_⟩
  · rw [hcurrent']
    exact fun path hpath ↦ List.mem_append_left _ (huntouched.current hpath)
  · rw [hcurrent', List.mem_append, not_or] at hpath
    have hsame : u.1.SameBut (fun path ↦ path ∈ touched) t.1 :=
      Handler.orFails.preserves (u.1.SameBut _) hstep.1 (.refl _)
        fun h ↦ sameBut_of_within (Call.within_touched htouched) h
    rw [hsame.entry path hpath.2, huntouched.entry path hpath.1]
  · rw [hcurrent']
    exact hnow
  · rw [hnote]
    dsimp only
    split
    · exact hfailed
    · exact List.append_subset.2
        ⟨hfailed, fun path hpath ↦ List.mem_append_right _ (hnow hpath)⟩
  · rw [hnote]
    dsimp only
    split
    · exact hbefore
    · exact fun path hpath ↦ List.mem_append_left _ (hbefore hpath)

end Touching

end RustCodeMcp
