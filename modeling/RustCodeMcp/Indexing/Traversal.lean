import RustCodeMcp.Order.Grouping
import RustCodeMcp.Tree.Rose
import Mathlib.Data.List.Infix
import Mathlib.Data.List.Nodup
import Mathlib.Data.Nat.Find

/-!
# Which files belong to a project

The walk of a project goes through the tree of its files and collects the Rust files. It leaves out
the directories with certain names, and what is marked as a project of its own. So a Rust file is
collected for the innermost project around it, or for none (`collected_once`).

The walker is the source's, with its rules on names as they are there: `SKIPPED_DIRS` are left out
at any depth, a marked directory is left out unless the walk began with it, and an entry whose kind
cannot be read is an error that is counted. Links are not followed.

**Every file belongs somewhere.** The whole tree is a project, so among the projects around a file
there is an innermost one. It collects the file if the way down to it is clear, and no other does:
an outer project meets the mark of the inner one on the way.
-/

namespace RustCodeMcp.Traversal

/-- A path, from the top of the tree, by its components. -/
abbrev Path := List String

/-- What an entry is. -/
inductive Kind
  | file
  /-- `marked`: it has a `.rmcroot`. The entries of a directory that is not `readable` are not
  seen. -/
  | dir (marked readable : Bool)
  /-- A link, for one. -/
  | other
  /-- Not even its kind can be read. -/
  | unreadable
  deriving DecidableEq

/-- An entry of a directory. -/
structure Entry where
  name : String
  kind : Kind
  deriving DecidableEq

/-- A directory tree; only directories have anything below them. -/
abbrev FileTree := Rose Entry

/-! ### The walk -/

/-- The names of the directories that no walk goes into. -/
def SKIPPED_DIRS : List String :=
  ["target", "vendor", ".git", ".jj", ".direnv", ".skeleton"]

/-- Whether a directory is left out for its name. -/
def isSkippedDirName (name : String) : Bool :=
  name ∈ SKIPPED_DIRS

/-- What comes after the last dot, unless the name begins with it. -/
def extension (name : String) : Option (List Char) :=
  if name = ".." then none
  else
    match name.toList.reverse.span (· ≠ '.') with
    | (_, []) | (_, [_]) => none
    | (after, _ :: _ :: _) => some after.reverse

/-- What the walker gives for an entry. -/
inductive Item
  | entry (path : Path) (isFile : Bool)
  | error
  deriving DecidableEq

mutual

/-- The entry at a path and what is below it. The directory that the walk starts from, the `top`,
may be marked. -/
def walk (path : Path) (top : Bool) : FileTree → List Item
  | .node entry entries =>
    match entry.kind with
    | .file => [.entry path true]
    | .other => [.entry path false]
    | .unreadable => [.error]
    | .dir marked readable =>
      if isSkippedDirName entry.name then []
      else if !top && marked then []
      else .entry path false :: if readable then walkAll path entries else [.error]

/-- The entries of a directory, one after the other. -/
def walkAll (path : Path) : List FileTree → List Item
  | [] => []
  | t :: ts => walk (path ++ [t.label.name]) false t ++ walkAll path ts

end

/-- The path of a Rust file. -/
def rustFile : Item → Option Path
  | .entry path isFile =>
    if isFile && (path.getLast?.bind extension = some ['r', 's']) then some path else none
  | .error => none

/-- The Rust files, and how many entries could not be read. -/
def collectProjectRustFiles (root : Path) (t : FileTree) : List Path × ℕ :=
  let walked := walk root true t
  (walked.filterMap rustFile, walked.countP (· = .error))

/-! ### Projects -/

/-- A directory that the walk goes into. -/
def Opens (top : Prop) (t : FileTree) : Prop :=
  ∃ marked, t.label.kind = .dir marked true ∧ isSkippedDirName t.label.name = false ∧
    (marked = true → top)

/-- What is at a path below. -/
def entryAt : Path → FileTree → Option FileTree
  | [], t => some t
  | name :: path, t => (t.children.find? fun child ↦ child.label.name = name).bind (entryAt path)

/-- The entries of a directory have different names, here and below. -/
def Distinct (t : FileTree) : Prop :=
  ∀ u ∈ t.subtrees, (u.children.map fun child ↦ child.label.name).Nodup

/-- A directory on a disk. -/
structure Disk where
  tree : FileTree
  isDir : ∃ marked readable, tree.label.kind = .dir marked readable
  distinct : Distinct tree

namespace Disk

variable (disk : Disk)

/-- The whole, or a directory that is marked. -/
def IsProject (r : Path) : Prop :=
  r = [] ∨ ∃ t readable, entryAt r disk.tree = some t ∧ t.label.kind = .dir true readable

/-- What the walk of a project collects. -/
def filesOf (r : Path) : List Path :=
  ((entryAt r disk.tree).map fun t ↦ (collectProjectRustFiles r t).1).getD []

/-- There is a file at the path, and it is a Rust file. -/
def IsRustFile (f : Path) : Prop :=
  ∃ t name, entryAt f disk.tree = some t ∧ f.getLast? = some name ∧ t.label.kind = .file ∧
    extension name = some ['r', 's']

/-- The project is around the file, and no other is between them. -/
def Innermost (r f : Path) : Prop :=
  disk.IsProject r ∧ r <+: f ∧ r ≠ f ∧
    ∀ r', disk.IsProject r' → r' <+: f → r' ≠ f → r' <+: r

/-- The directories from the project on down to the file can be read, and have other names than
those that are skipped. -/
def Clear (r f : Path) : Prop :=
  ∀ d, r <+: d → d <+: f → d ≠ f → ∃ t marked, entryAt d disk.tree = some t ∧
    t.label.kind = .dir marked true ∧ isSkippedDirName t.label.name = false

end Disk

/-! ### What a walk finds -/

/-- A Rust file at a path, below directories that are gone into. -/
def Found : Bool → FileTree → Path → Path → Prop
  | _, t, path, [] => t.label.kind = .file ∧ path.getLast?.bind extension = some ['r', 's']
  | top, t, path, name :: s => Opens (top = true) t ∧
      ∃ child ∈ t.children, child.label.name = name ∧ Found false child (path ++ [name]) s

variable {t : FileTree} {top : Bool} {path f s r : Path} {name : String}

theorem walkAll_eq (path : Path) (ts : List FileTree) :
    walkAll path ts = ts.flatMap fun t ↦ walk (path ++ [t.label.name]) false t := by
  induction ts with
  | nil => rfl
  | cons t ts ih => rw [walkAll, ih, List.flatMap_cons]

/-- The Rust files of a walk. -/
def rustFiles (path : Path) (top : Bool) (t : FileTree) : List Path :=
  (walk path top t).filterMap rustFile

/-- What is collected of a directory, if it is gone into at all. -/
theorem rustFiles_dir {entries : List FileTree} {marked readable : Bool} :
    rustFiles path top (.node ⟨name, .dir marked readable⟩ entries) =
      if isSkippedDirName name ∨ (top = false ∧ marked = true) ∨ readable = false then []
      else entries.flatMap fun child ↦ rustFiles (path ++ [child.label.name]) false child := by
  rw [rustFiles, walk]
  cases hskip : isSkippedDirName name with
  | true => simp
  | false =>
    cases top <;> cases marked <;> cases readable <;>
      simp [walkAll_eq, rustFile, List.filterMap_flatMap, rustFiles]

/-- What is found below a directory is found below one of its entries, if it is gone into. -/
theorem found_cons {entries : List FileTree} {marked readable : Bool} :
    Found top (.node ⟨name, .dir marked readable⟩ entries) path s ↔
      ¬ (isSkippedDirName name ∨ (top = false ∧ marked = true) ∨ readable = false) ∧
        ∃ child ∈ entries, ∃ rest, s = child.label.name :: rest ∧
          Found false child (path ++ [child.label.name]) rest := by
  cases s with
  | nil => simp [Found, Rose.label]
  | cons first rest =>
    have hopens : Opens (top = true) (.node ⟨name, .dir marked readable⟩ entries) ↔
        ¬ (isSkippedDirName name ∨ (top = false ∧ marked = true) ∨ readable = false) := by
      simp only [Opens, Rose.label, Kind.dir.injEq]
      cases top <;> cases marked <;> cases readable <;> simp
    rw [Found, hopens]
    refine and_congr_right fun _ ↦ exists_congr fun child ↦ and_congr_right fun _ ↦ ?_
    constructor
    · rintro ⟨rfl, hfound⟩
      exact ⟨rest, rfl, hfound⟩
    · rintro ⟨_, heq, hfound⟩
      obtain ⟨rfl, rfl⟩ := List.cons.inj heq
      exact ⟨rfl, hfound⟩

theorem not_found (hfile : t.label.kind ≠ .file)
    (hdir : ∀ marked readable, t.label.kind ≠ .dir marked readable) : ¬ Found top t path s := by
  cases s with
  | nil => exact fun h ↦ hfile h.1
  | cons first rest =>
    rintro ⟨⟨marked, hkind, -⟩, -⟩
    exact hdir _ _ hkind

/-- **The walk collects** the Rust files below directories that it goes into. -/
theorem mem_rustFiles (t : FileTree) : ∀ path top, f ∈ rustFiles path top t ↔
    ∃ s, f = path ++ s ∧ Found top t path s := by
  induction t using Rose.induction with
  | h entry entries ih =>
    intro path top
    obtain ⟨name, kind⟩ := entry
    cases kind with
    | file =>
      have hfound : ∀ s, Found top (.node ⟨name, .file⟩ entries) path s ↔
          s = [] ∧ path.getLast?.bind extension = some ['r', 's'] := by
        rintro (_ | ⟨first, rest⟩) <;> simp [Found, Opens, Rose.label]
      have hwalk : rustFiles path top (.node ⟨name, .file⟩ entries) =
          if path.getLast?.bind extension = some ['r', 's'] then [path] else [] := by
        show [Item.entry path true].filterMap rustFile = _
        by_cases hext : path.getLast?.bind extension = some ['r', 's'] <;> simp [rustFile, hext]
      rw [hwalk]
      simp only [hfound]
      split_ifs with hext <;> simp [hext]
    | dir marked readable =>
      rw [rustFiles_dir]
      split_ifs with hclosed
      · simp [found_cons, hclosed]
      · simp only [List.mem_flatMap, found_cons, hclosed, not_false_eq_true, true_and]
        constructor
        · rintro ⟨child, hchild, hf⟩
          obtain ⟨rest, rfl, hfound⟩ := (ih child hchild _ _).1 hf
          exact ⟨_, by rw [List.append_assoc]; rfl, child, hchild, rest, rfl, hfound⟩
        · rintro ⟨_, rfl, child, hchild, rest, rfl, hfound⟩
          exact ⟨child, hchild, (ih child hchild _ _).2 ⟨rest, by simp, hfound⟩⟩
    | other | unreadable =>
      refine ⟨fun h ↦ by simp [rustFiles, walk, rustFile] at h, ?_⟩
      rintro ⟨s, -, hfound⟩
      exact absurd hfound (not_found Kind.noConfusion fun _ _ ↦ Kind.noConfusion)

/-! ### Paths -/

theorem Distinct.child {child : FileTree} (h : Distinct t) (hchild : child ∈ t.children) :
    Distinct child := by
  obtain ⟨entry, entries⟩ := t
  intro u hu
  refine h u ?_
  rw [Rose.subtrees, Rose.subtreesAll_eq]
  exact List.mem_cons_of_mem _ (List.mem_flatMap.2 ⟨child, hchild, hu⟩)

theorem Distinct.nodup (h : Distinct t) : (t.children.map fun child ↦ child.label.name).Nodup := by
  obtain ⟨entry, entries⟩ := t
  exact h _ (by rw [Rose.subtrees]; exact List.mem_cons_self)

theorem Distinct.find?_name (h : Distinct t) {child : FileTree} :
    t.children.find? (fun child ↦ child.label.name = name) = some child ↔
      child ∈ t.children ∧ child.label.name = name :=
  Grouping.find?_key_eq_some h.nodup

/-- The directories on the way to a file below are this one and those below it. -/
theorem forall_prefix_cons {P : Path → Prop} :
    (∀ d, d <+: name :: s → d ≠ name :: s → P d) ↔
      P [] ∧ ∀ d, d <+: s → d ≠ s → P (name :: d) := by
  constructor
  · intro h
    refine ⟨h [] List.nil_prefix (List.cons_ne_nil _ _).symm, fun d hd hne ↦ ?_⟩
    exact h _ ((List.prefix_cons_inj name).2 hd) fun heq ↦ hne (List.cons.inj heq).2
  · rintro ⟨hnil, hcons⟩ d hd hne
    cases d with
    | nil => exact hnil
    | cons first d =>
      obtain ⟨rfl, hpre⟩ := List.cons_prefix_cons.1 hd
      exact hcons d hpre fun heq ↦ hne (heq ▸ rfl)

/-- **What is found** is a Rust file, and the directories down to it are gone into. -/
theorem found_iff (h : Distinct t) : Found top t path s ↔
    (∃ u, entryAt s t = some u ∧ u.label.kind = .file ∧
      (path ++ s).getLast?.bind extension = some ['r', 's']) ∧
    ∀ d, d <+: s → d ≠ s → ∃ u, entryAt d t = some u ∧ Opens (top = true ∧ d = []) u := by
  induction s generalizing t top path with
  | nil =>
    simp [Found, entryAt]
  | cons name s ih =>
    have hchildren : (∃ child ∈ t.children, child.label.name = name ∧
        Found false child (path ++ [name]) s) ↔ ∃ child, t.children.find?
          (fun child ↦ child.label.name = name) = some child ∧
          Found false child (path ++ [name]) s := by
      simp only [h.find?_name, and_assoc]
    rw [forall_prefix_cons, Found, hchildren]
    cases hchild : t.children.find? fun child ↦ child.label.name = name with
    | none => simp [entryAt, hchild]
    | some child =>
      have hih := @ih child false (path ++ [name]) (h.child (h.find?_name.1 hchild).1)
      have hbelow : ∀ d, entryAt (name :: d) t = entryAt d child := fun d ↦ by
        rw [entryAt, hchild, Option.bind_some]
      simp only [Option.some.injEq, exists_eq_left', hih, hbelow, List.append_assoc,
        List.singleton_append, Bool.false_eq_true, false_and, reduceCtorEq, and_false]
      rw [entryAt]
      simp only [Option.some.injEq, exists_eq_left', and_true]
      tauto

theorem entryAt_append (r s : Path) (t : FileTree) :
    entryAt (r ++ s) t = (entryAt r t).bind (entryAt s) := by
  induction r generalizing t with
  | nil => rfl
  | cons name r ih =>
    rw [List.cons_append, entryAt, entryAt, Option.bind_assoc]
    exact congrArg _ (funext ih)

theorem Distinct.of_entryAt (h : Distinct t) {u : FileTree} (hu : entryAt r t = some u) :
    Distinct u := by
  induction r generalizing t with
  | nil => exact Option.some.inj hu ▸ h
  | cons name r ih =>
    obtain ⟨child, hchild, hu⟩ := Option.bind_eq_some_iff.1 hu
    exact ih (h.child (h.find?_name.1 hchild).1) hu

/-- A walk names a file once. -/
theorem Distinct.nodup_rustFiles (t : FileTree) :
    Distinct t → ∀ path top, (rustFiles path top t).Nodup := by
  induction t using Rose.induction with
  | h entry entries ih =>
    intro h path top
    obtain ⟨name, kind⟩ := entry
    cases kind with
    | file =>
      show ([Item.entry path true].filterMap rustFile).Nodup
      by_cases hext : path.getLast?.bind extension = some ['r', 's'] <;> simp [rustFile, hext]
    | other =>
      show ([Item.entry path false].filterMap rustFile).Nodup
      simp [rustFile]
    | unreadable => exact List.nodup_nil
    | dir marked readable =>
      rw [rustFiles_dir]
      split_ifs with hclosed
      · exact List.nodup_nil
      refine List.nodup_flatMap.2 ⟨fun child hchild ↦ ih child hchild (h.child hchild) _ _, ?_⟩
      refine (List.pairwise_map.1 h.nodup).imp fun {child other} hne f hf hother ↦ hne ?_
      -- A path tells the entry that it goes through.
      obtain ⟨s, rfl, -⟩ := (mem_rustFiles child _ _).1 hf
      obtain ⟨s', heq, -⟩ := (mem_rustFiles other _ _).1 hother
      rw [List.append_assoc, List.append_assoc] at heq
      exact (List.cons.inj (List.append_cancel_left heq)).1

/-! ### Whose a file is -/

namespace Disk

variable {disk : Disk} {r' : Path}

theorem IsProject.exists_dir (h : disk.IsProject r) : ∃ t marked readable,
    entryAt r disk.tree = some t ∧ t.label.kind = .dir marked readable := by
  obtain rfl | ⟨t, readable, ht, hkind⟩ := h
  · obtain ⟨marked, readable, hkind⟩ := disk.isDir
    exact ⟨_, marked, readable, rfl, hkind⟩
  · exact ⟨t, true, readable, ht, hkind⟩

theorem entryAt_below (ht : entryAt r disk.tree = some t) (d : Path) :
    entryAt (r ++ d) disk.tree = entryAt d t := by
  rw [entryAt_append, ht, Option.bind_some]

/-- The directories from a project down to a file below it. -/
theorem forall_prefix_append {P : Path → Prop} :
    (∀ d, r <+: d → d <+: r ++ s → d ≠ r ++ s → P d) ↔ ∀ d, d <+: s → d ≠ s → P (r ++ d) := by
  constructor
  · intro h d hd hne
    exact h _ (List.prefix_append r d) ((List.prefix_append_right_inj r).2 hd)
      fun heq ↦ hne (List.append_cancel_left heq)
  · rintro h _ ⟨d, rfl⟩ hd hne
    exact h d ((List.prefix_append_right_inj r).1 hd) fun heq ↦ hne (heq ▸ rfl)

/-- A project is the innermost one if no directory on the way is marked. -/
theorem innermost_append (hr : disk.IsProject r) (ht : entryAt r disk.tree = some t) :
    disk.Innermost r (r ++ s) ↔ s ≠ [] ∧ ∀ d, d <+: s → d ≠ s → ∀ u readable,
      entryAt d t = some u → u.label.kind = .dir true readable → d = [] := by
  have hinner : (∀ r', disk.IsProject r' → r' <+: r ++ s → r' ≠ r ++ s → r' <+: r) ↔
      ∀ d, r <+: d → d <+: r ++ s → d ≠ r ++ s → disk.IsProject d → d = r := by
    constructor
    · intro h d hd hds hne hproject
      exact (h d hproject hds hne).eq_of_length_le hd.length_le
    · intro h r' hr' hpre hne
      obtain habove | hbelow := List.prefix_or_prefix_of_prefix hpre (List.prefix_append r s)
      · exact habove
      · exact h r' hbelow hpre hne hr' ▸ List.prefix_refl r'
  have hproject : ∀ d, (disk.IsProject (r ++ d) → r ++ d = r) ↔ ∀ u readable,
      entryAt d t = some u → u.label.kind = .dir true readable → d = [] := fun d ↦ by
    rw [List.append_right_eq_self, IsProject, entryAt_below ht]
    constructor
    · intro h u readable hu hkind
      exact h (.inr ⟨u, readable, hu, hkind⟩)
    · rintro h (hnil | ⟨u, readable, hu, hkind⟩)
      · exact (List.append_eq_nil_iff.1 hnil).2
      · exact h u readable hu hkind
  rw [Innermost, hinner, forall_prefix_append]
  simp only [hproject]
  simp [hr, eq_comm]

theorem clear_append (ht : entryAt r disk.tree = some t) : disk.Clear r (r ++ s) ↔
    ∀ d, d <+: s → d ≠ s → ∃ u marked, entryAt d t = some u ∧
      u.label.kind = .dir marked true ∧ isSkippedDirName u.label.name = false := by
  rw [Clear, forall_prefix_append]
  simp only [entryAt_below ht]

/-- **What the walk of a project collects**: the Rust files that it is the innermost project of,
where nothing on the way is skipped. -/
theorem mem_filesOf (hr : disk.IsProject r) : f ∈ disk.filesOf r ↔
    disk.IsRustFile f ∧ disk.Innermost r f ∧ disk.Clear r f := by
  obtain ⟨t, marked, readable, ht, hkind⟩ := hr.exists_dir
  have hfiles : disk.filesOf r = rustFiles r true t := by
    rw [filesOf, ht]
    rfl
  rw [hfiles, mem_rustFiles]
  constructor
  · rintro ⟨s, rfl, hfound⟩
    obtain ⟨⟨u, hu, hfile, hext⟩, hdirs⟩ := (found_iff (disk.distinct.of_entryAt ht)).1 hfound
    obtain ⟨name, hlast, hext⟩ := Option.bind_eq_some_iff.1 hext
    refine ⟨⟨u, name, (entryAt_below ht s).trans hu, hlast, hfile, hext⟩,
      (innermost_append hr ht).2 ⟨?_, fun d hd hne v readable' hv hkind' ↦ ?_⟩,
      (clear_append ht).2 fun d hd hne ↦ ?_⟩
    · rintro rfl
      rw [← Option.some.inj hu, hkind] at hfile
      exact Kind.noConfusion hfile
    · -- A marked directory on the way would have ended the walk.
      obtain ⟨w, hw, marked', hopens, -, hmarked⟩ := hdirs d hd hne
      rw [← Option.some.inj (hv.symm.trans hw), hkind'] at hopens
      exact (hmarked (Kind.dir.inj hopens).1.symm).2
    · obtain ⟨v, hv, marked', hkind', hname, -⟩ := hdirs d hd hne
      exact ⟨v, marked', hv, hkind', hname⟩
  · rintro ⟨⟨u, name, hu, hlast, hfile, hext⟩, hinnermost, hclear⟩
    obtain ⟨s, rfl⟩ := hinnermost.2.1
    have hfileBelow : ∃ u, entryAt s t = some u ∧ u.label.kind = .file ∧
        (r ++ s).getLast?.bind extension = some ['r', 's'] :=
      ⟨u, (entryAt_below ht s).symm.trans hu, hfile, by rw [hlast]; exact hext⟩
    refine ⟨s, rfl, (found_iff (disk.distinct.of_entryAt ht)).2 ⟨hfileBelow, fun d hd hne ↦ ?_⟩⟩
    obtain ⟨v, marked', hv, hkind', hname⟩ := (clear_append ht).1 hclear d hd hne
    refine ⟨v, hv, marked', hkind', hname, ?_⟩
    rintro rfl
    exact ⟨rfl, ((innermost_append hr ht).1 hinnermost).2 d hd hne v true hv hkind'⟩

theorem Innermost.eq (h : disk.Innermost r f) (h' : disk.Innermost r' f) : r = r' :=
  have hpre : r <+: r' := h'.2.2.2 r h.1 h.2.1 h.2.2.1
  hpre.eq_of_length_le (h.2.2.2 r' h'.1 h'.2.1 h'.2.2.1).length_le

/-- The whole is around every file, so some project is the innermost. -/
theorem exists_innermost (h : disk.IsRustFile f) : ∃ r, disk.Innermost r f := by
  classical
  obtain ⟨t, name, ht, -, hfile, -⟩ := h
  have hlength : 0 < f.length := by
    refine List.length_pos_of_ne_nil ?_
    rintro rfl
    obtain ⟨marked, readable, hkind⟩ := disk.isDir
    rw [← Option.some.inj ht, hkind] at hfile
    exact Kind.noConfusion hfile
  let n := Nat.findGreatest (fun n ↦ disk.IsProject (f.take n)) (f.length - 1)
  have hn : n ≤ f.length - 1 := Nat.findGreatest_le _
  have hproject : disk.IsProject (f.take n) :=
    Nat.findGreatest_spec (P := fun n ↦ disk.IsProject (f.take n)) (Nat.zero_le _) (.inl rfl)
  have htake : (f.take n).length = n := by
    rw [List.length_take]
    omega
  refine ⟨f.take n, hproject, List.take_prefix n f, fun heq ↦ ?_, fun r' hr' hpre hne ↦ ?_⟩
  · have := congrArg List.length heq
    omega
  · have hshort : r'.length < f.length :=
      lt_of_not_ge fun hle ↦ hne (hpre.eq_of_length_le hle)
    have hle : r'.length ≤ n := by
      refine Nat.le_findGreatest (by omega) ?_
      rw [← List.prefix_iff_eq_take.1 hpre]
      exact hr'
    exact List.prefix_of_prefix_length_le hpre (List.take_prefix n f) (by omega)

theorem nodup_filesOf (disk : Disk) (r : Path) : (disk.filesOf r).Nodup := by
  rw [filesOf]
  cases ht : entryAt r disk.tree with
  | none => exact List.nodup_nil
  | some t => exact Distinct.nodup_rustFiles t (disk.distinct.of_entryAt ht) r true

/-- **A Rust file is collected once**: by the innermost project around it, if nothing on the way is
skipped, and by no other. -/
theorem collected_once (h : disk.IsRustFile f) : ∃ r, disk.Innermost r f ∧
    ∀ r', disk.IsProject r' → (disk.filesOf r').Nodup ∧
      (f ∈ disk.filesOf r' ↔ r' = r ∧ disk.Clear r f) := by
  obtain ⟨r, hr⟩ := exists_innermost h
  refine ⟨r, hr, fun r' hr' ↦ ⟨nodup_filesOf disk r', ?_⟩⟩
  rw [mem_filesOf hr']
  constructor
  · rintro ⟨-, hinner, hclear⟩
    obtain rfl := hinner.eq hr
    exact ⟨rfl, hclear⟩
  · rintro ⟨rfl, hclear⟩
    exact ⟨h, hr, hclear⟩

end Disk

/-- A library with a project of its own in it. -/
def library : Disk where
  tree := .node ⟨"library", .dir false true⟩ [.node ⟨"a.rs", .file⟩ [],
    .node ⟨"tool", .dir true true⟩ [.node ⟨"b.rs", .file⟩ []]]
  isDir := ⟨false, true, rfl⟩
  distinct := by
    show ∀ t ∈ Rose.subtrees _, _
    decide

example : library.filesOf [] = [["a.rs"]] ∧ library.filesOf ["tool"] = [["tool", "b.rs"]] := by
  decide

/-- The file of the inner project is collected there, and only there. -/
theorem collected_once_library : library.IsRustFile ["tool", "b.rs"] ∧
    ∃ r, library.Innermost r ["tool", "b.rs"] ∧ ∀ r', library.IsProject r' →
      (library.filesOf r').Nodup ∧
        (["tool", "b.rs"] ∈ library.filesOf r' ↔ r' = r ∧ library.Clear r ["tool", "b.rs"]) :=
  have hfile : library.IsRustFile ["tool", "b.rs"] := ⟨_, _, rfl, rfl, rfl, rfl⟩
  ⟨hfile, Disk.collected_once hfile⟩

end RustCodeMcp.Traversal
