import RustCodeMcp.Semantic.Refresh

/-!
# A stamp that has not changed

The stamps of a context are collected before its texts are read. An edit that falls between them
leaves a stamp behind that the file no longer has, and as long as no stamp comes back (`Fresh`) it
never will: where the stored stamp is the file's, the text of the database is the file's too
(`Faithful`). What the analysis does not know or excludes has a stamp all the same, and no text.

The invariant is about stamps, not about time. A context says of each path which stamp it had when
the stamps were collected; the file may have had others before and since, but as none comes back, a
file that has that stamp now has not been written since. What was read for it then, or later, is
what it holds.

The delicate case is a patch that fails half-way. Some texts have been pushed by then and the stamps
are still the old ones, so the context goes, and a reload follows (`Reloading`).
-/

namespace RustCodeMcp.SemanticService

open Machine

/-! ### The updates of a refresh -/

/-- After the updates a text is one that was pushed, or the one that was there. -/
theorem lookup_applyUpdates {updates : List (PathBuf × String)} {vfs : PathMap VfsFile}
    {p : PathBuf} {v : VfsFile} (h : (applyUpdates vfs updates).lookup p = some v) :
    (∃ t, (p, t) ∈ updates ∧ v.text = some t) ∨ (∀ t, (p, t) ∉ updates) ∧
    vfs.lookup p = some v := by
  induction updates generalizing vfs with
  | nil => exact .inr ⟨fun t ↦ List.not_mem_nil, h⟩
  | cons u updates ih =>
    rcases ih h with ⟨t, hmem, ht⟩ | ⟨hnot, hv⟩
    · exact .inl ⟨t, List.mem_cons_of_mem u hmem, ht⟩
    · by_cases hp : p = u.1
      · subst hp
        rw [AList.lookup_insert] at hv
        obtain rfl := Option.some.inj hv
        exact .inl ⟨u.2, List.mem_cons_self, rfl⟩
      · rw [AList.lookup_insert_ne hp] at hv
        refine .inr ⟨fun t hmem ↦ ?_, hv⟩
        rcases List.mem_cons.1 hmem with heq | hmem
        · exact hp (congrArg Prod.fst heq)
        · exact hnot t hmem

/-- Of the files collected anew, those that are not edited have the stamp they had. -/
theorem lookup_of_edited {old new : PathMap FileStamp} {paths : List PathBuf} {p : PathBuf}
    {m : FileStamp} (h : classifyStaleness old new = .edited paths) (hp : new.lookup p = some m) :
    old.lookup p = some m ∨ p ∈ paths := by
  unfold classifyStaleness at h
  split_ifs at h
  dsimp only at h
  split_ifs at h
  obtain rfl := Staleness.edited.inj h
  by_cases hold : old.lookup p = some m
  · exact .inl hold
  · refine .inr ((List.mem_insertionSort _).2
      (List.mem_map.2 ⟨⟨p, m⟩, List.mem_filter.2 ⟨?_, ?_⟩, rfl⟩))
    · exact AList.mem_lookup_iff.1 hp
    · simpa using hold

namespace Project

/-! ### The invariant -/

/-- If the file still has the stamp, it has the text. -/
def Agrees (files : PathMap FileEntry) (p : PathBuf) (m : FileStamp)
    (text : Option String) : Prop :=
  ∀ f, files.lookup p = some f → stampOf f = m → text = String.fromUTF8? f.bytes

/-- The files of the database that still have their stored stamps have the texts on disk. -/
def Faithful (files : PathMap FileEntry) (stamps : PathMap FileStamp)
    (vfs : PathMap VfsFile) : Prop :=
  ∀ p m v, stamps.lookup p = some m → vfs.lookup p = some v → v.excluded = false →
    Agrees files p m v.text

/-- Every stored stamp is one the file has had. -/
def Borne (borne : PathBuf → List FileStamp) (stamps : PathMap FileStamp) : Prop :=
  ∀ p m, stamps.lookup p = some m → m ∈ borne p

/-- What holds of the work in progress. -/
def Underway (files : PathMap FileEntry) (borne : PathBuf → List FileStamp)
    (context : Option ProjectContext) : Progress → Prop
  | .stamping _ _ _ stamps => Borne borne stamps
  | .patching _ todo updates current => Borne borne current ∧
      (∀ p t m, (p, t) ∈ updates → current.lookup p = some m → Agrees files p m (some t)) ∧
      ∀ c, context = some c → ∀ p m, current.lookup p = some m →
        c.stamps.lookup p = some m ∨ p ∈ todo ∨ ∃ t, (p, t) ∈ updates
  | .loading _ stamps vfs => Borne borne stamps ∧ Faithful files stamps vfs
  | _ => True

/-- The context is faithful, its stamps are ones the files have had, and so is the work in
progress. -/
structure Inv (s : Project) : Prop where
  files : ∀ p f, s.files.lookup p = some f → stampOf f ∈ s.borne p
  borne : ∀ c, s.context = some c → Borne s.borne c.stamps
  faithful : ∀ c, s.context = some c → Faithful s.files c.stamps c.vfs
  load : ∀ c, s.context = some c → c.load ≤ s.loads
  underway : Underway s.files s.borne s.context s.progress

/-- An edit gives the file a stamp it never had. -/
def Fresh (s : Project) : Event → Prop
  | .write path file => stampOf file ∉ s.borne path
  | _ => True

variable {s s' : Project} {e : Event} {files : PathMap FileEntry}

/-! ### Edits -/

theorem Agrees.write {borne : PathBuf → List FileStamp} {path p : PathBuf}
    {file : FileEntry} {m : FileStamp} {text : Option String} (h : Agrees files p m text)
    (hm : m ∈ borne p) (hfresh : stampOf file ∉ borne path) :
    Agrees (files.insert path file) p m text := by
  intro f hf hstamp
  by_cases hp : p = path
  · subst hp
    rw [AList.lookup_insert] at hf
    obtain rfl := Option.some.inj hf
    exact absurd (hstamp ▸ hm) hfresh
  · rw [AList.lookup_insert_ne hp] at hf
    exact h f hf hstamp

theorem Agrees.remove {path p : PathBuf} {m : FileStamp}
    {text : Option String} (h : Agrees files p m text) : Agrees (files.erase path) p m text := by
  intro f hf hstamp
  by_cases hp : p = path
  · subst hp
    rw [AList.lookup_erase] at hf
    cases hf
  · rw [AList.lookup_erase_ne hp] at hf
    exact h f hf hstamp

/-- The disk changes behind the service's back. -/
theorem Inv.edit (h : s.Inv) {borne : PathBuf → List FileStamp}
    (hfiles : ∀ p f, files.lookup p = some f → stampOf f ∈ borne p)
    (hborne : ∀ p m, m ∈ s.borne p → m ∈ borne p)
    (hagrees : ∀ p m text, m ∈ s.borne p → Agrees s.files p m text → Agrees files p m text) :
    ({ s with files, borne } : Project).Inv := by
  have hstored : ∀ {stamps}, Borne s.borne stamps → Borne borne stamps :=
    fun hb p m hm ↦ hborne p m (hb p m hm)
  have hfaithful : ∀ {stamps vfs}, Borne s.borne stamps → Faithful s.files stamps vfs →
      Faithful files stamps vfs :=
    fun hb hf p m v hm hv hex ↦ hagrees p m v.text (hb p m hm) (hf p m v hm hv hex)
  refine ⟨hfiles, fun c hc ↦ hstored (h.borne c hc),
    fun c hc ↦ hfaithful (h.borne c hc) (h.faithful c hc), h.load, ?_⟩
  have hunder := h.underway
  show Underway files borne s.context s.progress
  cases hprogress : s.progress with
  | stamping reload requested todo stamps =>
    rw [hprogress] at hunder
    exact hstored hunder
  | patching requested todo updates current =>
    rw [hprogress] at hunder
    obtain ⟨hb, hupdates, htodo⟩ := hunder
    exact ⟨hstored hb, fun p t m hp hm ↦ hagrees p m _ (hb p m hm) (hupdates p t m hp hm), htodo⟩
  | loading requested stamps vfs =>
    rw [hprogress] at hunder
    exact ⟨hstored hunder.1, hfaithful hunder.1 hunder.2⟩
  | _ => trivial

/-- The work goes on, the context as it was. -/
theorem Inv.proceed (h : s.Inv) {progress : Progress}
    (hunder : Underway s.files s.borne s.context progress) : ({ s with progress } : Project).Inv :=
  ⟨h.files, h.borne, h.faithful, h.load, hunder⟩

theorem Inv.unload (h : s.Inv) {requested : LoadKind} {stamps : PathMap FileStamp}
    (hb : Borne s.borne stamps) : ({ s with
      context := none
      progress := .loading requested stamps ∅
      loads := s.loads + 1 } : Project).Inv :=
  ⟨h.files, nofun, nofun, nofun, hb, fun _ _ _ _ hv ↦ by rw [AList.lookup_empty] at hv; cases hv⟩

theorem agrees_readEdit {vfs : PathMap VfsFile} {path : PathBuf}
    {text : String} {m : FileStamp} {fails : Bool}
    (h : (if fails then none else readEdit files vfs path) = some text) :
    Agrees files path m (some text) := by
  intro f hf _
  split_ifs at h
  unfold readEdit at h
  split at h
  next v hv =>
    split_ifs at h
    rw [hf, Option.bind_some] at h
    exact h.symm
  next => cases h

/-- What a patched database says is what was read, or what it said where nothing was edited. -/
theorem Inv.patch (h : s.Inv) {requested : LoadKind} {updates : List (PathBuf × String)}
    {current : PathMap FileStamp} {c : ProjectContext}
    (hprogress : s.progress = .patching requested [] updates current) (hc : s.context = some c) :
    ({ s with
        context := some { c with vfs := applyUpdates c.vfs updates, stamps := current }
        progress := .idle } : Project).Inv := by
  have hunder := h.underway
  rw [hprogress] at hunder
  obtain ⟨hb, hupdates, htodo⟩ := hunder
  refine ⟨h.files, ?_, ?_, ?_, trivial⟩
  · rintro _ ⟨⟩
    exact hb
  · rintro _ ⟨⟩ p m v hm hv hex
    rcases lookup_applyUpdates hv with ⟨t, hmem, ht⟩ | ⟨hnot, hold⟩
    · rw [ht]
      exact hupdates p t m hmem hm
    · rcases htodo c hc p m hm with hsame | hnil | ⟨t, hmem⟩
      · exact h.faithful c hc p m v hsame hold hex
      · cases hnil
      · exact absurd hmem (hnot t)
  · rintro _ ⟨⟩
    exact h.load c hc

/-- **Every step keeps the context faithful**, as long as no stamp comes back. -/
theorem Inv.step (h : s.Inv) (hfresh : Fresh s e) (hstep : s.step e = some s') : s'.Inv := by
  cases e with
  | write path file =>
    obtain rfl := Option.some.inj hstep
    -- A save adds the new stamp to those its path has borne and takes none away.
    have hborne : ∀ p m, m ∈ s.borne p →
        m ∈ Function.update s.borne path (stampOf file :: s.borne path) p := by
      intro p m hm
      by_cases hp : p = path
      -- This file's text is what the load read, whatever stamp was taken of it before.
      · subst hp
        rw [Function.update_self]
        exact List.mem_cons_of_mem _ hm
      · rwa [Function.update_of_ne hp]
    refine h.edit (fun p f hf ↦ ?_) hborne fun p m text hm ha ↦ ha.write hm hfresh
    by_cases hp : p = path
    · subst hp
      rw [AList.lookup_insert] at hf
      obtain rfl := Option.some.inj hf
      rw [Function.update_self]
      exact List.mem_cons_self
    · rw [AList.lookup_insert_ne hp] at hf
      exact hborne p _ (h.files p f hf)
  | remove path =>
    obtain rfl := Option.some.inj hstep
    -- A removed file keeps the stamps it has borne, so nothing that was read comes undone.
    refine h.edit (fun p f hf ↦ ?_) (fun _ _ hm ↦ hm) fun p m text _ ha ↦ ha.remove
    by_cases hp : p = path
    · subst hp
      rw [AList.lookup_erase] at hf
      cases hf
    · rw [AList.lookup_erase_ne hp] at hf
      exact h.files p f hf
  | bringUpToDate requested =>
    simp only [Project.step] at hstep
    split at hstep
    next =>
      obtain rfl := Option.some.inj hstep
      -- A read that fails has everything loaded anew, by a walk that has taken no stamp yet.
      exact h.proceed trivial
    next => cases hstep
  | walk paths =>
    simp only [Project.step] at hstep
    split at hstep
    next =>
      obtain rfl := Option.some.inj hstep
      -- The walk starts with no stamp taken.
      exact h.proceed fun p m hm ↦ by rw [AList.lookup_empty] at hm; cases hm
    next => cases hstep
  | stat =>
    simp only [Project.step] at hstep
    split at hstep
    next reload requested path todo stamps hprogress =>
      obtain rfl := Option.some.inj hstep
      have hunder := h.underway
      rw [hprogress] at hunder
      refine h.proceed ?_
      -- The stamp taken now is the file's present one, which the path has borne.
      show Borne _ _
      split
      next file hfile =>
        intro p m hm
        by_cases hp : p = path
        · subst hp
          rw [AList.lookup_insert] at hm
          obtain rfl := Option.some.inj hm
          exact h.files p file hfile
        · rw [AList.lookup_insert_ne hp] at hm
          exact hunder p m hm
      next => exact hunder
    next => cases hstep
  | stamped =>
    have hunder := h.underway
    simp only [Project.step] at hstep
    split at hstep
    next _ requested stamps hprogress =>
      obtain rfl := Option.some.inj hstep
      rw [hprogress] at hunder
      exact h.unload hunder
    next requested stamps c hprogress hc =>
      obtain rfl := Option.some.inj hstep
      rw [hprogress] at hunder
      refine h.proceed ?_
      -- Nothing edited: the context stays. Files added or removed: everything is loaded anew. Else
      -- every path whose stamp moved is on the list of files to read.
      unfold refreshIfStale
      split
      next => trivial
      next => trivial
      next paths hedited =>
        refine ⟨hunder, fun p t m hmem ↦ (nomatch hmem), fun c' hc' p m hm ↦ ?_⟩
        obtain rfl := Option.some.inj (hc.symm.trans hc')
        rcases lookup_of_edited hedited hm with hsame | hmem
        · exact .inl hsame
        · exact .inr (.inl hmem)
    next => cases hstep
  | readEdit fails =>
    have hunder := h.underway
    simp only [Project.step] at hstep
    split at hstep
    next requested path todo updates current c hprogress hc =>
      split at hstep
      next text hread =>
        obtain rfl := Option.some.inj hstep
        rw [hprogress] at hunder
        obtain ⟨hb, hupdates, htodo⟩ := hunder
        refine h.proceed ⟨hb, fun p t m hmem hm ↦ ?_, fun c' hc' p m hm ↦ ?_⟩
        · rcases List.mem_append.1 hmem with hmem | hmem
          · exact hupdates p t m hmem hm
          · -- The text was read just now, so it is the file's whatever its stamp.
            obtain ⟨rfl, rfl⟩ := Prod.mk.inj (List.mem_singleton.1 hmem)
            exact agrees_readEdit hread
        · rcases htodo c' hc' p m hm with hsame | hmem | ⟨t, hmem⟩
          · exact .inl hsame
          · rcases List.mem_cons.1 hmem with rfl | hmem
            · exact .inr (.inr ⟨text, List.mem_append_right _ (List.mem_singleton.2 rfl)⟩)
            · exact .inr (.inl hmem)
          · exact .inr (.inr ⟨t, List.mem_append_left _ hmem⟩)
      next =>
        obtain rfl := Option.some.inj hstep
        exact h.proceed trivial
    next => cases hstep
  | applyChange =>
    simp only [Project.step] at hstep
    split at hstep
    next requested updates current c hprogress hc =>
      obtain rfl := Option.some.inj hstep
      exact h.patch hprogress hc
    next => cases hstep
  | loadFile path excluded =>
    have hunder := h.underway
    simp only [Project.step] at hstep
    split at hstep
    next requested stamps vfs hprogress =>
      obtain ⟨file, hfile, rfl⟩ := Option.map_eq_some_iff.1 hstep
      rw [hprogress] at hunder
      refine h.proceed ⟨hunder.1, fun p m v hm hv hex ↦ ?_⟩
      by_cases hp : p = path
      · subst hp
        rw [AList.lookup_insert] at hv
        obtain rfl := Option.some.inj hv
        intro f hf _
        obtain rfl := Option.some.inj (hfile.symm.trans hf)
        exact if_neg (by simpa using hex)
      · rw [AList.lookup_insert_ne hp] at hv
        exact hunder.2 p m v hm hv hex
    next => cases hstep
  | loaded ok =>
    have hunder := h.underway
    simp only [Project.step] at hstep
    split at hstep
    next requested stamps vfs hprogress =>
      obtain rfl := Option.some.inj hstep
      rw [hprogress] at hunder
      cases ok with
      | false => exact ⟨h.files, nofun, nofun, nofun, trivial⟩
      | true =>
        refine ⟨h.files, ?_, ?_, ?_, trivial⟩ <;> rintro _ ⟨⟩
        · exact hunder.1
        · exact hunder.2
        · exact Nat.le_refl _
    next => cases hstep

theorem inv_start : projectMachine.start.Inv :=
  ⟨fun _ _ hf ↦ (nomatch hf), nofun, nofun, nofun, trivial⟩

theorem inv_of_reachable (h : projectMachine.Reachable Fresh s) : s.Inv :=
  h.invariant inv_start fun _ _ _ hfresh hstep hinv ↦ hinv.step hfresh hstep

/-! ### When a patch fails -/

/-- Between a failed patch and the end of the reload that follows it: `n` loads had begun when it
failed. -/
def Reloading (n : ℕ) (s : Project) : Prop :=
  match s.progress with
  | .walking true _ | .stamping true _ _ _ => s.loads = n
  | .loading _ _ _ => s.loads = n + 1 ∧ s.context = none
  | .idle => s.context = none ∨ ∃ c, s.context = some c ∧ c.load = n + 1
  | _ => False

/-- The work goes on to the reload, whatever happens meanwhile. -/
theorem Reloading.step {n : ℕ} (h : s.Reloading n) (hbusy : s.progress ≠ .idle)
    (hstep : s.step e = some s') : s'.Reloading n := by
  cases e with
  | write path file | remove path =>
    obtain rfl := Option.some.inj hstep
    exact h
  | bringUpToDate requested =>
    -- Nobody else begins while the slot is held.
    simp only [Project.step] at hstep
    cases hstep
  | walk paths =>
    simp only [Project.step] at hstep
    split at hstep
    next reload requested hprogress =>
      obtain rfl := Option.some.inj hstep
      rw [Reloading, hprogress] at h
      cases reload with
      | false => exact h.elim
      | true => exact h
    next => cases hstep
  | stat =>
    simp only [Project.step] at hstep
    split at hstep
    next reload requested path todo stamps hprogress =>
      obtain rfl := Option.some.inj hstep
      rw [Reloading, hprogress] at h
      cases reload with
      | false => exact h.elim
      | true => exact h
    next => cases hstep
  | stamped =>
    simp only [Project.step] at hstep
    split at hstep
    next _ requested stamps hprogress =>
      obtain rfl := Option.some.inj hstep
      rw [Reloading, hprogress] at h
      exact ⟨congrArg (· + 1) h, rfl⟩
    next hprogress _ =>
      rw [Reloading, hprogress] at h
      exact h.elim
    next => cases hstep
  | readEdit fails | applyChange =>
    simp only [Project.step] at hstep
    split at hstep
    next hprogress _ =>
      rw [Reloading, hprogress] at h
      exact h.elim
    next => cases hstep
  | loadFile path excluded =>
    simp only [Project.step] at hstep
    split at hstep
    next requested stamps vfs hprogress =>
      obtain ⟨file, -, rfl⟩ := Option.map_eq_some_iff.1 hstep
      rw [Reloading, hprogress] at h
      exact h
    next => cases hstep
  | loaded ok =>
    simp only [Project.step] at hstep
    split at hstep
    next requested stamps vfs hprogress =>
      obtain rfl := Option.some.inj hstep
      rw [Reloading, hprogress] at h
      cases ok with
      | false => exact .inl rfl
      | true => exact .inr ⟨_, rfl, h.1⟩
    next => cases hstep

end Project

end RustCodeMcp.SemanticService
