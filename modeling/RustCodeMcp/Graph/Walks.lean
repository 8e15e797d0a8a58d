import RustCodeMcp.Graph.Slice

/-!
# What a walk has seen

The tasks of a walk divide among them what it has yet to see (`Distinct`), whatever becomes of the
tree meanwhile: no entry is taken twice. What a walk of stamps has taken is closed, as far as the
stamps still hold: an entry that a stamped directory names is stamped too, or among the tasks
(`Closed`). When nothing is left to do, every entry that the walk goes into has a stamp
(`Closed.exists_stamp`), and two trees for which all of them hold have the same entries there
(`Closed.entry_eq`).

The stamp of a link is that of what it led to when it was looked at, and it may lead elsewhere by
now without any stamp having changed. So `Closed` says nothing about it.

The lemmas to cite are these:

* `Distinct.step`: a step of a walk sees nothing twice;
* `Closed.entry`: entries with a stamp are where they were seen;
* `Closed.entry_eq`: two trees for which all stamps of a closed walk hold have the same entries.
-/

namespace RustCodeMcp.Graph

open FileTree

variable {Content V : Type}

/-! ### Tasks -/

/-- The entries that a task leads to. -/
def Task.Covers : Task → Path → Prop
  | visit p _, q => p <+: q
  | list p, q => p <+: q ∧ q ≠ p

/-- Nothing is seen twice. -/
structure Distinct (tasks : List Task) (keys : List Path) : Prop where
  apart : tasks.Pairwise fun a b ↦ ∀ q, ¬(a.Covers q ∧ b.Covers q)
  seen : ∀ task ∈ tasks, ∀ p ∈ keys, ¬task.Covers p
  nodup : keys.Nodup

section Distinct

variable {walk : Walk Content V} {tree : FileTree String Content} {task : Task}
    {tasks instead : List Task}
  {keys : List Path} {taken seen : List (Path × V)} {p q : Path} {type : FileType}

theorem distinct_start : Distinct Walk.start [] :=
  ⟨List.pairwise_singleton _ _, fun _ _ _ hp ↦ absurd hp List.not_mem_nil, List.nodup_nil⟩

/-- What a visit comes to. -/
theorem Walk.step_visit (h : walk.step tree (.visit p type) = .ok (instead, taken)) :
    walk.visible p = false ∧ instead = [] ∧ taken = [] ∨
      walk.visible p = true ∧ ∃ value, walk.look tree p type = .ok value ∧
        instead = (if type = .dir then [.list p] else []) ∧
        taken = value.toList.map fun v ↦ (p, v) := by
  rw [Walk.step] at h
  by_cases hvisible : walk.visible p = true
  · rw [if_pos hvisible] at h
    rcases hlook : walk.look tree p type with e | value
    · rw [hlook] at h
      cases h
    · rw [hlook] at h
      obtain ⟨rfl, rfl⟩ := Prod.mk.inj (Except.ok.inj h)
      exact .inr ⟨hvisible, value, rfl, rfl, rfl⟩
  · rw [if_neg hvisible] at h
    obtain ⟨rfl, rfl⟩ := Prod.mk.inj (Except.ok.inj h)
    exact .inl ⟨Bool.eq_false_of_not_eq_true hvisible, rfl, rfl⟩

/-- The visits that a listing comes to. -/
def visits (tree : FileTree String Content) (p : Path) (i : ℕ) : List Task :=
  (tree.entries i).entries.map fun entry ↦ .visit (p ++ [entry.1]) entry.2.fileType

theorem Walk.step_list (h : walk.step tree (.list p) = .ok (instead, taken)) :
    ∃ i, tree.resolve p = some (.dir i) ∧ instead = visits tree p i ∧ taken = [] := by
  rw [Walk.step] at h
  rcases hp : tree.resolve p with - | ⟨i⟩ | ⟨i⟩
  · rw [hp] at h
    cases h
  · rw [hp] at h
    obtain ⟨rfl, rfl⟩ := Prod.mk.inj (Except.ok.inj h)
    exact ⟨i, rfl, rfl, rfl⟩
  · rw [hp] at h
    cases h

/-- There is a visit for each name in the directory. -/
theorem mem_visits {i : ℕ} : task ∈ visits tree p i ↔
    ∃ c e, (tree.entries i).lookup c = some e ∧ task = .visit (p ++ [c]) e.fileType := by
  rw [visits, List.mem_map]
  constructor
  · rintro ⟨⟨c, e⟩, hmem, rfl⟩
    exact ⟨c, e, AList.mem_lookup_iff.2 hmem, rfl⟩
  · rintro ⟨c, e, hlookup, rfl⟩
    exact ⟨⟨c, e⟩, AList.mem_lookup_iff.1 hlookup, rfl⟩

theorem concat_prefix (c : String) (h : p ++ [c] <+: q) : p <+: q ∧ q ≠ p := by
  refine ⟨(List.prefix_append p [c]).trans h, ?_⟩
  rintro rfl
  have := h.length_le
  simp at this

theorem visits_apart (tree : FileTree String Content) (p : Path) (i : ℕ) :
    (visits tree p i).Pairwise fun a b ↦ ∀ q, ¬(a.Covers q ∧ b.Covers q) := by
  refine List.Pairwise.map _ (fun entry entry' hne q ↦ ?_)
    (List.pairwise_map.1 (tree.entries i).nodupKeys)
  rintro ⟨⟨rest, hrest⟩, ⟨rest', hrest'⟩⟩
  have heq : p ++ (entry.1 :: rest) = p ++ (entry'.1 :: rest') := by
    simpa using hrest.trans hrest'.symm
  exact hne (List.cons.inj (List.append_cancel_left heq)).1

/-- What replaces a task leads nowhere the task did not. -/
theorem Walk.covers_of_step (h : walk.step tree task = .ok (instead, taken)) {a : Task}
    (ha : a ∈ instead) (hq : a.Covers q) : task.Covers q := by
  cases task with
  | visit p type =>
    rcases Walk.step_visit h with ⟨-, rfl, -⟩ | ⟨-, value, -, rfl, -⟩
    · exact absurd ha List.not_mem_nil
    · split_ifs at ha
      · obtain rfl := List.mem_singleton.1 ha
        exact hq.1
      · exact absurd ha List.not_mem_nil
  | list p =>
    obtain ⟨i, -, rfl, -⟩ := Walk.step_list h
    obtain ⟨c, n, -, rfl⟩ := mem_visits.1 ha
    exact concat_prefix c hq

/-- What is taken is what the task was to visit, and nothing more leads there. -/
theorem Walk.taken_of_step (h : walk.step tree task = .ok (instead, taken)) {v : V}
    (hv : (q, v) ∈ taken) : taken = [(q, v)] ∧ task.Covers q ∧ ∀ a ∈ instead, ¬a.Covers q := by
  cases task with
  | visit p type =>
    rcases Walk.step_visit h with ⟨-, -, rfl⟩ | ⟨-, value, -, rfl, rfl⟩
    · exact absurd hv List.not_mem_nil
    · obtain ⟨v', hv', heq⟩ := List.mem_map.1 hv
      obtain ⟨rfl, rfl⟩ := Prod.mk.inj heq
      obtain rfl := Option.mem_toList.1 hv'
      refine ⟨rfl, List.prefix_refl p, fun a ha hcovers ↦ ?_⟩
      split_ifs at ha
      · obtain rfl := List.mem_singleton.1 ha
        exact hcovers.2 rfl
      · exact absurd ha List.not_mem_nil
  | list p =>
    obtain ⟨i, -, -, rfl⟩ := Walk.step_list h
    exact absurd hv List.not_mem_nil

/-- Neither do the tasks that replace one. -/
theorem Walk.apart_of_step (h : walk.step tree task = .ok (instead, taken)) :
    instead.Pairwise fun a b ↦ ∀ q, ¬(a.Covers q ∧ b.Covers q) := by
  cases task with
  | visit p type =>
    rcases Walk.step_visit h with ⟨-, rfl, -⟩ | ⟨-, value, -, rfl, -⟩
    · exact List.Pairwise.nil
    · split_ifs
      · exact List.pairwise_singleton _ _
      · exact List.Pairwise.nil
  | list p =>
    obtain ⟨i, -, rfl, -⟩ := Walk.step_list h
    exact visits_apart tree p i

/-- **A step of a walk sees nothing twice.** -/
theorem Distinct.step (h : Distinct (task :: tasks) (seen.map Prod.fst))
    (hstep : walk.step tree task = .ok (instead, taken)) :
    Distinct (instead ++ tasks) ((taken ++ seen).map Prod.fst) := by
  have hrest := List.pairwise_cons.1 h.apart
  have htask := List.mem_cons_self (a := task) (l := tasks)
  have hmem : ∀ p, p ∈ (taken ++ seen).map Prod.fst → (∃ v, (p, v) ∈ taken) ∨
    p ∈ seen.map Prod.fst := by
    intro p hp
    rw [List.map_append, List.mem_append] at hp
    rcases hp with hp | hp
    · obtain ⟨⟨_, v⟩, hv, rfl⟩ := List.mem_map.1 hp
      exact .inl ⟨v, hv⟩
    · exact .inr hp
  refine ⟨?_, fun a ha p hp hcovers ↦ ?_, ?_⟩
  · refine List.pairwise_append.2 ⟨Walk.apart_of_step hstep, hrest.2, fun a ha b hb q hq ↦ ?_⟩
    exact hrest.1 b hb q ⟨Walk.covers_of_step hstep ha hq.1, hq.2⟩
  · rcases hmem p hp with ⟨v, hv⟩ | hp
    · obtain ⟨-, htaken, hnone⟩ := Walk.taken_of_step hstep hv
      rcases List.mem_append.1 ha with ha | ha
      · exact hnone a ha hcovers
      · exact hrest.1 a ha p ⟨htaken, hcovers⟩
    · rcases List.mem_append.1 ha with ha | ha
      · exact h.seen task htask p hp (Walk.covers_of_step hstep ha hcovers)
      · exact h.seen a (List.mem_cons_of_mem _ ha) p hp hcovers
  · rcases htaken : taken with - | ⟨⟨p, v⟩, _⟩
    · exact h.nodup
    · have hv : (p, v) ∈ taken := htaken ▸ List.mem_cons_self
      obtain ⟨heq, hcovers, -⟩ := Walk.taken_of_step hstep hv
      rw [← htaken, heq]
      exact List.nodup_cons.2 ⟨fun hp ↦ h.seen task htask p hp hcovers, h.nodup⟩

theorem lookup_of_mem {l : List (Path × V)} (hnodup : (l.map Prod.fst).Nodup) {v : V}
    (h : (p, v) ∈ l) : l.lookup p = some v := by
  induction l with
  | nil => exact absurd h List.not_mem_nil
  | cons x l ih =>
    rw [List.map_cons, List.nodup_cons] at hnodup
    rcases List.mem_cons.1 h with rfl | hmem
    · rw [List.lookup_cons_self]
    · have hne : (p == x.1) = false := beq_eq_false_iff_ne.2 fun heq ↦
        hnodup.1 (heq ▸ List.mem_map_of_mem hmem)
      rw [List.lookup_cons, hne]
      exact ih hnodup.2 hmem

theorem mem_of_lookup {l : List (Path × V)} {v : V} (h : l.lookup p = some v) : (p, v) ∈ l := by
  obtain ⟨l₁, l₂, rfl, -⟩ := List.lookup_eq_some_iff.1 h
  exact List.mem_append_right _ List.mem_cons_self

/-- Equal stamps are found in both. -/
theorem mem_of_sameStamps {stamps current : Stamps} (h : sameStamps stamps current = true)
    (hnodup : (stamps.map Prod.fst).Nodup) {x : Path × Stamp} (hx : x ∈ stamps) : x ∈ current := by
  have heq := of_decide_eq_true (List.all_eq_true.1 h x.1
    (List.mem_append_left _ (List.mem_map_of_mem hx)))
  exact mem_of_lookup (heq ▸ lookup_of_mem hnodup hx)

end Distinct

/-! ### Stamps -/

/-- Some stamp does not hold any more. -/
def Lost (stamps : Stamps) (tree : FileTree String Content) : Prop :=
  ∃ x ∈ stamps, ¬tree.Has x.2

/-- What the walk of stamps takes. -/
def isStamped (rel : Path) (e : FileTree.Entry String) : Bool :=
  e.fileType = .dir || isFingerprinted rel

/-- A stamp of the entry, whatever it is if that is a link. -/
def StampOf (stamps : Stamps) (p : Path) (e : FileTree.Entry String) : Prop :=
  ∃ x, (p, x) ∈ stamps ∧ ∀ n, e = .node n → x.node = n

/-- A directory with a stamp. -/
def StampedDir (stamps : Stamps) (tree : FileTree String Content) (p : Path) (i : ℕ) : Prop :=
  tree.entry p = some (.node (.dir i)) ∧ StampOf stamps p (.node (.dir i))

/-- A name in a directory with a stamp. -/
def Listed (stamps : Stamps) (tree : FileTree String Content) (p : Path)
    (e : FileTree.Entry String) : Prop :=
  ∃ q c i, p = q ++ [c] ∧ StampedDir stamps tree q i ∧ (tree.entries i).lookup c = some e

/-- Whatever a stamped directory names is stamped, or yet to be visited; whatever is stamped was
named. -/
structure Closed (visible : Path → Bool) (tasks : List Task) (stamps : Stamps)
    (tree : FileTree String Content) : Prop where
  root : visible [] = true → .visit [] .dir ∈ tasks ∨ StampOf stamps [] (.node (.dir 0))
  entries : ∀ p i, StampedDir stamps tree p i → .list p ∈ tasks ∨
    ∀ c e, (tree.entries i).lookup c = some e → visible (p ++ [c]) = true →
      isStamped (p ++ [c]) e = true →
      .visit (p ++ [c]) e.fileType ∈ tasks ∨ StampOf stamps (p ++ [c]) e
  stamped : ∀ p x, (p, x) ∈ stamps → visible p = true ∧ (p = [] ∧ x.node = .dir 0 ∨
    ∃ e, Listed stamps tree p e ∧ isStamped p e = true ∧ ∀ n, e = .node n → x.node = n)
  visits : ∀ p type, .visit p type ∈ tasks → p = [] ∧ type = .dir ∨
    ∃ e, Listed stamps tree p e ∧ type = e.fileType
  lists : ∀ p, .list p ∈ tasks → ∃ i, StampedDir stamps tree p i

section Closed

variable {visible : Path → Bool} {tree tree' : FileTree String Content} {stamps stamps' : Stamps}
  {tasks : List Task} {p q : Path} {e : FileTree.Entry String} {i : ℕ} {type : FileType}

theorem Listed.entry (h : Listed stamps tree p e) : tree.entry p = some e := by
  obtain ⟨q, c, i, rfl, ⟨hq, -⟩, hc⟩ := h
  exact entry_concat_eq_some.2 ⟨i, hq, hc⟩

theorem StampOf.mono (h : StampOf stamps p e) (hsubset : stamps ⊆ stamps') :
    StampOf stamps' p e := by
  obtain ⟨x, hx, hnode⟩ := h
  exact ⟨x, hsubset hx, hnode⟩

/-- A directory with a stamp that still holds is the same. -/
theorem StampOf.dirs_eq (h : StampOf stamps p (.node (.dir i)))
    (hsame : ∀ x ∈ stamps, tree.SameAt tree' x.2.node) : tree.dirs i = tree'.dirs i := by
  obtain ⟨x, hx, hnode⟩ := h
  have hdir := hsame _ hx
  rw [show x.node = _ from hnode _ rfl] at hdir
  exact hdir

theorem Listed.mono (h : Listed stamps tree p e) (hsubset : stamps ⊆ stamps') :
    Listed stamps' tree p e := by
  obtain ⟨q, c, i, rfl, ⟨hq, hstamp⟩, hc⟩ := h
  exact ⟨q, c, i, rfl, ⟨hq, hstamp.mono hsubset⟩, hc⟩

/-- At first nothing is stamped, and the root is to be visited. -/
theorem closed_start (tree : FileTree String Content) : Closed visible Walk.start [] tree where
  root _ := .inl List.mem_cons_self
  entries _ _ h := by
    obtain ⟨-, x, hx, -⟩ := h
    exact absurd hx List.not_mem_nil
  stamped _ _ h := absurd h List.not_mem_nil
  visits p type h := by
    obtain ⟨rfl, rfl⟩ := Task.visit.inj (List.mem_singleton.1 h)
    exact .inl ⟨rfl, rfl⟩
  lists p h := nomatch List.mem_singleton.1 h

/-- **Stamped entries are where they were seen.** -/
theorem Closed.entry (h : Closed visible tasks stamps tree) {x : Stamp} (hmem : (p, x) ∈ stamps) :
    visible p = true ∧ ∃ e, tree.entry p = some e ∧ isStamped p e = true ∧
      ∀ n, e = .node n → x.node = n := by
  obtain ⟨hvisible, ⟨rfl, hnode⟩ | ⟨e, hnamed, hstamped, hnode⟩⟩ := h.stamped p x hmem
  · refine ⟨hvisible, .node (.dir 0), rfl, rfl, fun n hn ↦ ?_⟩
    exact hnode.trans (FileTree.Entry.node.inj hn)
  · exact ⟨hvisible, e, hnamed.entry, hstamped, hnode⟩

/-- When nothing is left to do, every entry that the walk goes into is stamped. -/
theorem Closed.exists_stamp (h : Closed visible [] stamps tree)
    (hvisible : ∀ q, q <+: p → visible q = true) (hp : tree.entry p = some e)
    (he : isStamped p e = true) : StampOf stamps p e := by
  induction p using List.reverseRecOn generalizing e with
  | nil =>
    obtain rfl := Option.some.inj hp
    exact (h.root (hvisible [] (List.prefix_refl _))).resolve_left List.not_mem_nil
  | append_singleton q c ih =>
    obtain ⟨i, hq, hc⟩ := entry_concat_eq_some.1 hp
    have hdir := ih (fun r hr ↦ hvisible r (hr.trans (List.prefix_append q [c]))) hq rfl
    exact ((h.entries q i ⟨hq, hdir⟩).resolve_left List.not_mem_nil c e hc
      (hvisible _ (List.prefix_refl _)) he).resolve_left List.not_mem_nil

/-- **Trees for which all stamps hold have the same entries.** -/
theorem Closed.entry_eq (h : Closed visible [] stamps tree)
    (hsame : ∀ x ∈ stamps, tree.SameAt tree' x.2.node)
    (hvisible : ∀ q, q <+: p → q ≠ p → visible q = true) : tree'.entry p = tree.entry p := by
  induction p using List.reverseRecOn with
  | nil => rfl
  | append_singleton q c ih =>
    have hq : ∀ r, r <+: q → visible r = true := by
      intro r hr
      refine hvisible r (hr.trans (List.prefix_append q [c])) ?_
      rintro rfl
      have hlength := hr.length_le
      rw [List.length_append, List.length_singleton] at hlength
      omega
    rw [entry_concat, entry_concat, ih fun r hr _ ↦ hq r hr]
    rcases he : tree.entry q with - | (i | i) | ⟨start, target⟩
    · rfl
    · show (tree'.dirs i).2.entries.lookup c = (tree.dirs i).2.entries.lookup c
      rw [(h.exists_stamp hq he rfl).dirs_eq hsame]
    · rfl
    · rfl

/-- What is stamped has not changed. -/
theorem StampedDir.congr (h : Closed visible tasks stamps tree)
    (hsame : ∀ x ∈ stamps, tree.SameAt tree' x.2.node) (hp : StampedDir stamps tree p i) :
    StampedDir stamps tree' p i ∧ tree'.entries i = tree.entries i := by
  obtain ⟨hentry, hstamp⟩ := hp
  induction p using List.reverseRecOn generalizing i with
  | nil =>
    exact ⟨⟨hentry, hstamp⟩, congrArg (fun d ↦ d.2.entries) (hstamp.dirs_eq hsame).symm⟩
  | append_singleton q c ih =>
    have hdir := hstamp.dirs_eq hsame
    obtain ⟨x, hmem, hnode⟩ := hstamp
    obtain ⟨-, ⟨heq, -⟩ | ⟨e, ⟨q', c', j, heq, hq, hc⟩, -⟩⟩ := h.stamped _ x hmem
    · exact absurd heq (List.append_ne_nil_of_right_ne_nil q (List.cons_ne_nil c []))
    · obtain ⟨rfl, hlast⟩ := List.append_inj' heq rfl
      obtain rfl := (List.cons.inj hlast).1
      obtain ⟨⟨hq', -⟩, hentries⟩ := ih hq.1 hq.2
      obtain rfl := Option.some.inj ((entry_concat_eq_some.2 ⟨j, hq.1, hc⟩).symm.trans hentry)
      exact ⟨⟨entry_concat_eq_some.2 ⟨j, hq', hentries ▸ hc⟩, x, hmem, hnode⟩,
        congrArg (fun d ↦ d.2.entries) hdir.symm⟩

theorem Listed.congr (h : Closed visible tasks stamps tree)
    (hsame : ∀ x ∈ stamps, tree.SameAt tree' x.2.node) (hp : Listed stamps tree p e) :
    Listed stamps tree' p e := by
  obtain ⟨q, c, i, rfl, hq, hc⟩ := hp
  obtain ⟨hq', hentries⟩ := StampedDir.congr h hsame hq
  exact ⟨q, c, i, rfl, hq', hentries ▸ hc⟩

/-- A directory that has its stamp in the one tree has it in the other. -/
theorem StampedDir.congr_symm (h : Closed visible tasks stamps tree)
    (hsame : ∀ x ∈ stamps, tree.SameAt tree' x.2.node) (hp : StampedDir stamps tree' p i) :
    StampedDir stamps tree p i := by
  obtain ⟨hentry, hstamp⟩ := hp
  obtain ⟨x, hmem, hnode⟩ := hstamp
  refine ⟨?_, x, hmem, hnode⟩
  obtain ⟨-, ⟨rfl, -⟩ | ⟨e, hnamed, -⟩⟩ := h.stamped _ x hmem
  · exact hentry
  · rw [hnamed.entry, ← (hnamed.congr h hsame).entry, hentry]

/-- What is closed in a tree is so in one where the stamped nodes are the same. -/
theorem Closed.congr (h : Closed visible tasks stamps tree)
    (hsame : ∀ x ∈ stamps, tree.SameAt tree' x.2.node) : Closed visible tasks stamps tree' where
  root := h.root
  entries p i hp := by
    have hold := hp.congr_symm h hsame
    rw [(hold.congr h hsame).2]
    exact h.entries p i hold
  stamped p x hmem := by
    obtain ⟨hvisible, hroot | ⟨e, hnamed, hrest⟩⟩ := h.stamped p x hmem
    · exact ⟨hvisible, .inl hroot⟩
    · exact ⟨hvisible, .inr ⟨e, hnamed.congr h hsame, hrest⟩⟩
  visits p type hmem := by
    rcases h.visits p type hmem with hroot | ⟨e, hnamed, htype⟩
    · exact .inl hroot
    · exact .inr ⟨e, hnamed.congr h hsame, htype⟩
  lists p hmem := by
    obtain ⟨i, hp⟩ := h.lists p hmem
    exact ⟨i, (hp.congr h hsame).1⟩

/-- What a visit finds is what the directory named. -/
theorem Closed.entry_visit (h : Closed visible tasks stamps tree) (hmem : .visit p type ∈ tasks) :
    ∃ e, tree.entry p = some e ∧ e.fileType = type := by
  rcases h.visits p type hmem with ⟨rfl, rfl⟩ | ⟨e, hnamed, rfl⟩
  · exact ⟨.node (.dir 0), rfl, rfl⟩
  · exact ⟨e, hnamed.entry, rfl⟩

/-- An entry that the walk does not go into, or does not take. -/
theorem Closed.skip (h : Closed visible (.visit p type :: tasks) stamps tree)
    (hskip : visible p = false ∨ type ≠ .dir ∧ isFingerprinted p = false) :
    Closed visible tasks stamps tree where
  root hroot := by
    rcases h.root hroot with hmem | hstamped
    · rcases List.mem_cons.1 hmem with heq | hmem
      · obtain ⟨rfl, rfl⟩ := Task.visit.inj heq
        rcases hskip with hskip | ⟨hskip, -⟩
        · rw [hroot] at hskip
          cases hskip
        · exact absurd rfl hskip
      · exact .inl hmem
    · exact .inr hstamped
  entries q i hq := by
    rcases h.entries q i hq with hmem | hall
    · exact .inl ((List.mem_cons.1 hmem).resolve_left nofun)
    · refine .inr fun c e hc hvisible hstamped ↦ ?_
      rcases hall c e hc hvisible hstamped with hmem | hstamp
      · rcases List.mem_cons.1 hmem with heq | hmem
        · obtain ⟨rfl, rfl⟩ := Task.visit.inj heq
          rcases hskip with hskip | ⟨hdir, hfile⟩
          · rw [hvisible] at hskip
            cases hskip
          · rw [isStamped, hfile, Bool.or_false, decide_eq_true_iff] at hstamped
            exact absurd hstamped hdir
        · exact .inl hmem
      · exact .inr hstamp
  stamped := h.stamped
  visits q type' hq := h.visits q type' (List.mem_cons_of_mem _ hq)
  lists q hq := h.lists q (List.mem_cons_of_mem _ hq)

/-- An entry that is stamped. -/
theorem Closed.take (h : Closed visible (.visit p type :: tasks) stamps tree) {n : Node}
    (hvisible : visible p = true) (htype : type = .dir ∨ isFingerprinted p = true)
    (hn : tree.resolve p = some n) :
    Closed visible ((if type = .dir then [.list p] else []) ++ tasks)
    ((p, tree.stamp n) :: stamps) tree := by
  obtain ⟨e, he, htypeOf⟩ := h.entry_visit List.mem_cons_self
  have hsubset : stamps ⊆ (p, tree.stamp n) :: stamps := List.subset_cons_self _ _
  have hnode : ∀ m, e = .node m → n = m := by
    rintro m rfl
    rw [resolve_of_entry he] at hn
    exact (Option.some.inj hn).symm
  have hstamp : StampOf ((p, tree.stamp n) :: stamps) p e :=
    ⟨tree.stamp n, List.mem_cons_self, hnode⟩
  -- Whoever asks for the entry that was visited finds it stamped.
  have hvisit : ∀ q e', .visit q e'.fileType ∈ (.visit p type :: tasks : List Task) →
    tree.entry q = some e' →
      .visit q e'.fileType ∈ (if type = .dir then [Task.list p] else []) ++ tasks ∨
        StampOf ((p, tree.stamp n) :: stamps) q e' := by
    intro q e' hmem he'
    rcases List.mem_cons.1 hmem with heq | hmem
    · obtain ⟨rfl, -⟩ := Task.visit.inj heq
      obtain rfl := Option.some.inj (he.symm.trans he')
      exact .inr hstamp
    · exact .inl (List.mem_append_right _ hmem)
  refine ⟨fun hroot ↦ ?_, fun q i hq ↦ ?_, fun q x hq ↦ ?_, fun q type' hq ↦ ?_, fun q hq ↦ ?_⟩
  · rcases h.root hroot with hmem | hstamped
    · exact hvisit [] (.node (.dir 0)) hmem rfl
    · exact .inr (hstamped.mono hsubset)
  · obtain ⟨hdir, x, hx, hxnode⟩ := hq
    rcases List.mem_cons.1 hx with heq | hx
    · obtain ⟨rfl, -⟩ := Prod.mk.inj heq
      obtain rfl := Option.some.inj (he.symm.trans hdir)
      rw [← htypeOf]
      exact .inl List.mem_cons_self
    · rcases h.entries q i ⟨hdir, x, hx, hxnode⟩ with hmem | hall
      · exact .inl (List.mem_append_right _ ((List.mem_cons.1 hmem).resolve_left nofun))
      · refine .inr fun c e' hc hvisible hstamped ↦ ?_
        rcases hall c e' hc hvisible hstamped with hmem | hstamped
        · exact hvisit _ e' hmem (entry_concat_eq_some.2 ⟨i, hdir, hc⟩)
        · exact .inr (hstamped.mono hsubset)
  · rcases List.mem_cons.1 hq with heq | hq
    · obtain ⟨rfl, rfl⟩ := Prod.mk.inj heq
      refine ⟨hvisible, ?_⟩
      rcases h.visits q type List.mem_cons_self with ⟨rfl, -⟩ | ⟨e', hnamed, -⟩
      · exact .inl ⟨rfl, hnode _ (Option.some.inj he).symm⟩
      · obtain rfl := Option.some.inj (he.symm.trans hnamed.entry)
        refine .inr ⟨e, hnamed.mono hsubset, ?_, hnode⟩
        rw [isStamped, htypeOf, Bool.or_eq_true, decide_eq_true_iff]
        exact htype
    · obtain ⟨hvisible', hroot | ⟨e', hnamed, hrest⟩⟩ := h.stamped q x hq
      · exact ⟨hvisible', .inl hroot⟩
      · exact ⟨hvisible', .inr ⟨e', hnamed.mono hsubset, hrest⟩⟩
  · have hmem : .visit q type' ∈ tasks := by
      rcases List.mem_append.1 hq with hlist | hmem
      · split_ifs at hlist
        · exact nomatch List.mem_singleton.1 hlist
        · exact absurd hlist List.not_mem_nil
      · exact hmem
    rcases h.visits q type' (List.mem_cons_of_mem _ hmem) with hroot | ⟨e', hnamed, htype'⟩
    · exact .inl hroot
    · exact .inr ⟨e', hnamed.mono hsubset, htype'⟩
  · rcases List.mem_append.1 hq with hlist | hmem
    · split_ifs at hlist with hdir
      · obtain rfl := Task.list.inj (List.mem_singleton.1 hlist)
        rw [hdir] at htypeOf
        rcases e with (i | i) | ⟨start, target⟩
        · exact ⟨i, he, hstamp⟩
        · cases htypeOf
        · cases htypeOf
      · exact absurd hlist List.not_mem_nil
    · obtain ⟨i, hdir, hstamped⟩ := h.lists q (List.mem_cons_of_mem _ hmem)
      exact ⟨i, hdir, hstamped.mono hsubset⟩

/-- A directory that is listed. -/
theorem Closed.expand (h : Closed visible (.list p :: tasks) stamps tree)
    (hp : tree.resolve p = some (.dir i)) :
    Closed visible (Graph.visits tree p i ++ tasks) stamps tree := by
  obtain ⟨j, hlisted⟩ := h.lists p List.mem_cons_self
  obtain rfl : j = i := by
    rw [resolve_of_entry hlisted.1] at hp
    exact Node.dir.inj (Option.some.inj hp)
  have htask : ∀ q type, .visit q type ∈ (.list p :: tasks : List Task) →
      .visit q type ∈ Graph.visits tree p j ++ tasks := fun q type hmem ↦
    List.mem_append_right _ ((List.mem_cons.1 hmem).resolve_left nofun)
  refine ⟨fun hroot ↦ (h.root hroot).imp_left (htask _ _), fun q k hq ↦ ?_, h.stamped,
    fun q type hq ↦ ?_, fun q hq ↦ ?_⟩
  · rcases h.entries q k hq with hmem | hall
    · rcases List.mem_cons.1 hmem with heq | hmem
      · obtain rfl := Task.list.inj heq
        obtain rfl : k = j := by
          have heq := hq.1.symm.trans hlisted.1
          exact Node.dir.inj (FileTree.Entry.node.inj (Option.some.inj heq))
        exact .inr fun c e hc _ _ ↦ .inl (List.mem_append_left _ (mem_visits.2 ⟨c, e, hc, rfl⟩))
      · exact .inl (List.mem_append_right _ hmem)
    · exact .inr fun c e hc hvisible hstamped ↦ (hall c e hc hvisible hstamped).imp_left (htask _ _)
  · rcases List.mem_append.1 hq with hnew | hold
    · obtain ⟨c, e, hc, heq⟩ := mem_visits.1 hnew
      obtain ⟨rfl, rfl⟩ := Task.visit.inj heq
      exact .inr ⟨e, ⟨p, c, j, rfl, hlisted, hc⟩, rfl⟩
    · exact h.visits q type (List.mem_cons_of_mem _ hold)
  · rcases List.mem_append.1 hq with hnew | hold
    · obtain ⟨c, e, -, heq⟩ := mem_visits.1 hnew
      cases heq
    · exact h.lists q (List.mem_cons_of_mem _ hold)

end Closed

end RustCodeMcp.Graph
