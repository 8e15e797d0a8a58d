import RustCodeMcp.Semantic.Service

/-!
# Who is unloaded

After a use of a project the registry drops projects until no more than `maxProjects` are left. The
project in use stays, and so does every project another call is using; of the rest the least
recently used goes first (`use_evicts_least_recent`). A bound of `0` means none.

The loop takes one project out at a time, the victim of that moment, so what it leaves is told by
what went and what stayed: everything that went is idle and was used no later than anything idle
that stayed (`Evicted`). When it stops before the bound holds, nothing idle is left but the project
in use.
-/

namespace RustCodeMcp.SemanticService.Registry

variable {K : Type}

/-- Another call is using the project of this entry: its slot's lock is taken. -/
def Busy (slots : List ProjectSlot) (e : Entry) : Prop :=
  (slots[e.slot]?.bind (·.holder)).isSome

variable [DecidableEq K] {slots : List ProjectSlot} {keep key : K} {r : Registry K}

/-- **A victim is idle, is not kept, and was used no later than any other such project.** -/
theorem victim_spec (h : r.victim slots keep = some key) :
    ∃ e, r.projects.lookup key = some e ∧ key ≠ keep ∧ ¬ Busy slots e ∧
      ∀ key' e', r.projects.lookup key' = some e' → key' ≠ keep → ¬ Busy slots e' →
        e.lastUsed ≤ e'.lastUsed := by
  obtain ⟨⟨key, e⟩, hmin, rfl⟩ := Option.map_eq_some_iff.1 h
  obtain ⟨hmem, hidle⟩ := List.mem_filter.1 (List.argmin_mem hmin)
  rw [Bool.and_eq_true, decide_eq_true_iff, Option.isNone_iff_eq_none] at hidle
  have hnot : ¬ Busy slots e := by
    rw [Busy, hidle.2]
    exact Bool.false_ne_true
  refine ⟨e, AList.mem_lookup_iff.2 hmem, hidle.1, hnot, fun key' e' hlookup hne hidle' ↦ ?_⟩
  refine List.le_of_mem_argmin (f := fun e : Σ _ : K, Entry ↦ e.2.lastUsed)
    (a := ⟨key', e'⟩) (List.mem_filter.2 ⟨AList.mem_lookup_iff.1 hlookup, ?_⟩) hmin
  rw [Bool.and_eq_true, decide_eq_true_iff]
  refine ⟨hne, ?_⟩
  rw [Busy, Bool.not_eq_true, Option.isSome_eq_false_iff] at hidle'
  exact hidle'

/-- Without a victim every other project is in use. -/
theorem busy_of_victim_eq_none (h : r.victim slots keep = none) {e : Entry}
    (he : r.projects.lookup key = some e) (hne : key ≠ keep) : Busy slots e := by
  by_contra hidle
  have hnil := List.argmin_eq_none.1 (Option.map_eq_none_iff.1 h)
  refine List.not_mem_nil (hnil ▸ List.mem_filter.2 ⟨AList.mem_lookup_iff.1 he, ?_⟩)
  rw [Busy, Bool.not_eq_true, Option.isSome_eq_false_iff] at hidle
  rw [Bool.and_eq_true, decide_eq_true_iff]
  exact ⟨hne, hidle⟩

/-- What an eviction makes of a registry: `r` before, `r'` after. -/
structure Evicted (slots : List ProjectSlot) (keep : K) (r r' : Registry K) : Prop where
  /-- What stays is unchanged. -/
  stays : ∀ key e, r'.projects.lookup key = some e → r.projects.lookup key = some e
  /-- The project to keep stays. -/
  keeps : r'.projects.lookup keep = r.projects.lookup keep
  /-- What goes was idle. -/
  idle : ∀ key e, r.projects.lookup key = some e → r'.projects.lookup key = none → ¬ Busy slots e
  /-- What goes was used no later than what stays, apart from what is kept or in use. -/
  older : ∀ key e key' e', r.projects.lookup key = some e → r'.projects.lookup key = none →
    r'.projects.lookup key' = some e' → key' ≠ keep → ¬ Busy slots e' → e.lastUsed ≤ e'.lastUsed

theorem Evicted.refl : Evicted slots keep r r where
  stays _ _ h := h
  keeps := rfl
  idle key e h hnone := by
    rw [h] at hnone
    cases hnone
  older key e key' e' h hnone := by
    rw [h] at hnone
    cases hnone

/-- **One turn of the loop**, before the turns that follow. -/
theorem Evicted.cons {r' : Registry K} (hvictim : r.victim slots keep = some key)
    (h : Evicted slots keep { r with projects := r.projects.erase key } r') :
    Evicted slots keep r r' := by
  obtain ⟨e, he, hne, hidle, hleast⟩ := victim_spec hvictim
  have herase : ∀ key' e', (r.projects.erase key).lookup key' = some e' →
      r.projects.lookup key' = some e' ∧ key' ≠ key := by
    intro key' e' h'
    by_cases heq : key' = key
    · rw [heq, AList.lookup_erase] at h'
      cases h'
    · rw [AList.lookup_erase_ne heq] at h'
      exact ⟨h', heq⟩
  have hstays : ∀ key' e', r'.projects.lookup key' = some e' →
      r.projects.lookup key' = some e' := fun key' e' h' ↦ (herase key' e' (h.stays key' e' h')).1
  refine ⟨hstays, ?_, fun key' e' he' hnone ↦
    ?_, fun key' e' other o he' hnone ho hother hfree ↦ ?_⟩
  · rw [h.keeps]
    exact AList.lookup_erase_ne (Ne.symm hne)
  · by_cases heq : key' = key
    · subst heq
      rw [he] at he'
      exact Option.some.inj he' ▸ hidle
    · exact h.idle key' e' ((AList.lookup_erase_ne heq).trans he') hnone
  · by_cases heq : key' = key
    · -- The victim itself: it was least among all that were idle.
      subst heq
      rw [he] at he'
      exact Option.some.inj he' ▸ hleast other o (hstays other o ho) hother hfree
    · exact h.older key' e' other o ((AList.lookup_erase_ne heq).trans he') hnone ho hother hfree

theorem length_erase_of_lookup {projects : AList fun _ : K ↦ Entry} {e : Entry}
    (h : projects.lookup key = some e) :
    (projects.erase key).entries.length + 1 = projects.entries.length := by
  have hmem : key ∈ projects.keys := AList.mem_keys.1 (AList.lookup_isSome.1 (h ▸ rfl))
  have hkeys : ∀ projects : AList fun _ : K ↦ Entry,
      projects.entries.length = projects.keys.length := fun _ ↦ (List.length_map _).symm
  rw [hkeys, hkeys, AList.keys_erase, List.length_erase_of_mem hmem]
  exact Nat.sub_add_cancel (List.length_pos_of_mem hmem)

/-- **The loop evicts until the bound holds or everything else is in use.** -/
theorem evict_spec (n : ℕ) (r : Registry K) (hn : r.projects.entries.length ≤ n) :
    Evicted slots keep r (r.evict slots keep n) ∧
      ((r.evict slots keep n).projects.entries.length ≤ r.maxProjects ∨
        ∀ key e, (r.evict slots keep n).projects.lookup key = some e → key ≠ keep →
          Busy slots e) := by
  induction n generalizing r with
  | zero => exact ⟨.refl, Or.inl (hn.trans (Nat.zero_le _))⟩
  | succ n ih =>
    rw [evict]
    split
    · split
      next key hvictim =>
        obtain ⟨e, he, -⟩ := victim_spec hvictim
        have hlength := length_erase_of_lookup he
        obtain ⟨hevicted, hend⟩ := ih { r with projects := r.projects.erase key }
          (show (r.projects.erase key).entries.length ≤ n by omega)
        exact ⟨hevicted.cons hvictim, hend⟩
      next hvictim =>
        exact ⟨.refl, Or.inr fun key e he hne ↦ busy_of_victim_eq_none hvictim he hne⟩
    next hbound => exact ⟨.refl, Or.inl (Nat.not_lt.1 hbound)⟩

/-- **After a use of a project** whose slot the caller holds: the project is still loaded, the bound
holds if there is one, unless every other project is in use, only idle projects were unloaded, and
each was used no later than every idle project that stays. -/
theorem use_evicts_least_recent {e : Entry} (he : r.projects.lookup key = some e)
    (hheld : Busy slots e) :
    (∃ e', (r.use slots key e.slot).projects.lookup key = some e' ∧ e'.slot = e.slot) ∧
    (r.maxProjects = 0 ∨
      (r.use slots key e.slot).projects.entries.length ≤ r.maxProjects ∨
      ∀ key' e', (r.use slots key e.slot).projects.lookup key' = some e' → key' ≠ key →
        Busy slots e') ∧
    (∀ gone g, r.projects.lookup gone = some g →
      (r.use slots key e.slot).projects.lookup gone = none → ¬ Busy slots g ∧
        ∀ key' e', (r.use slots key e.slot).projects.lookup key' = some e' → ¬ Busy slots e' →
          g.lastUsed ≤ e'.lastUsed) := by
  -- The registry with the use recorded: the other entries are as they were.
  let used : Registry K :=
    { r with
      clock := r.clock + 1
      projects := r.projects.insert key { e with lastUsed := r.clock + 1 } }
  have hused : used.projects.lookup key = some { e with lastUsed := r.clock + 1 } :=
    AList.lookup_insert _
  have hother : ∀ key', key' ≠ key → used.projects.lookup key' = r.projects.lookup key' :=
    fun _ hne ↦ AList.lookup_insert_ne hne
  have huse : r.use slots key e.slot = used.evictToCapacity slots key := by
    simp only [use, he, if_true]
    rfl
  have hevicted : Evicted slots key used (used.evictToCapacity slots key) ∧
      (r.maxProjects = 0 ∨
        (used.evictToCapacity slots key).projects.entries.length ≤ r.maxProjects ∨
        ∀ key' e', (used.evictToCapacity slots key).projects.lookup key' = some e' →
          key' ≠ key → Busy slots e') := by
    rw [evictToCapacity]
    split
    next hzero => exact ⟨.refl, Or.inl hzero⟩
    · have hloop : Evicted slots key used (used.evict slots key _) ∧ _ := evict_spec _ used le_rfl
      exact ⟨hloop.1, Or.inr hloop.2⟩
  rw [huse]
  obtain ⟨hevicted, hbound⟩ := hevicted
  refine ⟨⟨_, hevicted.keeps.trans hused, rfl⟩, hbound, fun gone g hg hnone ↦ ?_⟩
  have hne : gone ≠ key := by
    rintro rfl
    rw [hevicted.keeps, hused] at hnone
    cases hnone
  have hg' := (hother gone hne).trans hg
  refine ⟨hevicted.idle gone g hg' hnone, fun key' e' he' hidle ↦ ?_⟩
  refine hevicted.older gone g key' e' hg' hnone he' ?_ hidle
  -- The project in use is not idle.
  rintro rfl
  rw [hevicted.keeps, hused, Option.some.injEq] at he'
  subst he'
  exact hidle hheld

/-- Three loaded projects, and a bound. -/
def threeProjects (maxProjects : ℕ) : Registry ℕ where
  projects := ((AList.singleton 0 ⟨0, 1⟩).insert 1 ⟨1, 2⟩).insert 2 ⟨2, 3⟩
  maxProjects
  clock := 3

/-- Their slots; a call holds the first. -/
def firstHeld : List ProjectSlot :=
  [⟨some .full, some 0⟩, ⟨some .full, none⟩, ⟨some .full, none⟩]

/-- The first project is used, and of the idle ones the one used earlier is unloaded. -/
theorem use_evicts_least_recent_second :
    let used := (threeProjects 2).use firstHeld 0 0
    (∃ e', used.projects.lookup 0 = some e' ∧ e'.slot = 0) ∧
      (used.maxProjects = 2 ∧ used.projects.entries.length ≤ 2) ∧
      used.projects.lookup 1 = none ∧ ¬ Busy firstHeld ⟨1, 2⟩ ∧
      ∀ key' e', used.projects.lookup key' = some e' → ¬ Busy firstHeld e' → 2 ≤ e'.lastUsed := by
  obtain ⟨hkept, -, hgone⟩ :=
    @use_evicts_least_recent ℕ _ firstHeld 0 (threeProjects 2) ⟨0, 1⟩ rfl rfl
  obtain ⟨hidle, holder⟩ := hgone 1 ⟨1, 2⟩ rfl rfl
  exact ⟨hkept, ⟨rfl, by decide⟩, rfl, hidle, holder⟩

/-- **A bound of zero bounds nothing**: the other projects stay, though they are idle. -/
theorem unbounded_at_zero :
    ¬ (((threeProjects 0).use firstHeld 0 0).projects.entries.length ≤
          (threeProjects 0).maxProjects ∨
      ∀ key e, ((threeProjects 0).use firstHeld 0 0).projects.lookup key = some e → key ≠ 0 →
        Busy firstHeld e) := by
  rintro (h | h)
  · exact absurd h (by decide)
  · have hbusy := h 1 ⟨1, 2⟩ rfl (by decide)
    exact Bool.false_ne_true hbusy

end RustCodeMcp.SemanticService.Registry
