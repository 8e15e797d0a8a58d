import Mathlib.Data.List.AList
import Mathlib.Data.List.Induction

/-!
# Trees of files while they change

A tree of files is a table of nodes: directories, which name other nodes, and files, with their
contents. A change of a node — of a file's content, or of what a directory names — stamps it with a
time that no node had before. Renaming moves names and stamps the directories, not what is below
them, so the files that a path leads to may come and go without being stamped themselves.

What holds on to a stamp is the node: if it has the stamp that it had then, it has not changed since
(`sameAt_of_has`). So two looks at a node that show the same stamp say what it was all the time in
between, while two looks at a path say so only together with the directories on the way
(`entry_concat`).

A directory may also name a symbolic link. A link has no stamp: it is never changed, only replaced.
`resolve` follows the links on the way of a path and the one at its end, and `entry` follows none.
The two agree on a path on whose way there is no link (`resolve_of_direct`). What a link leads to
depends on directories that may lie anywhere, and on nothing else (`resolve_congr`).
-/

universe u v

/-- What is stamped. -/
inductive FileTree.Node
  | dir (i : ℕ)
  | file (i : ℕ)
  deriving DecidableEq

/-- What a name leads to: a node, or a link, whose target is a path from a directory on. A component
`none` of a target goes up. -/
inductive FileTree.Entry (κ : Type u)
  | node (n : FileTree.Node)
  | link (start : ℕ) (target : List (Option κ))
  deriving DecidableEq

/-- What a directory says of the entries that it names. -/
inductive FileTree.FileType
  | dir
  | file
  | symlink
  deriving DecidableEq

/-- What the directory says of it; of a link only that it is one. -/
def FileTree.Entry.fileType {κ : Type u} : FileTree.Entry κ → FileTree.FileType
  | node (.dir _) => .dir
  | node (.file _) => .file
  | link _ _ => .symlink

/-- What a directory names, and what it lies in. -/
structure FileTree.Dir (κ : Type u) where
  parent : ℕ
  entries : AList fun _ : κ ↦ FileTree.Entry κ

/-- Directories and files with the time of their last change. -/
structure FileTree (κ : Type u) (C : Type v) where
  clock : ℕ
  dirs : ℕ → ℕ × FileTree.Dir κ
  files : ℕ → ℕ × C
  dirs_le : ∀ i, (dirs i).1 ≤ clock
  files_le : ∀ i, (files i).1 ≤ clock

namespace FileTree

/-- A directory is given other entries, or a file another content. -/
inductive Change (κ : Type u) (C : Type v)
  | dir (i : ℕ) (dir : Dir κ)
  | file (i : ℕ) (content : C)

/-- A node as it is at a time. -/
structure Stamp where
  node : Node
  changed : ℕ
  deriving DecidableEq

variable {κ : Type u} {C : Type v} [DecidableEq κ]

omit [DecidableEq κ] in
/-- What a change makes of the directory, if it is one of it. -/
def Change.dirOf (i : ℕ) : Change κ C → Option (Dir κ)
  | dir j d => if j = i then some d else none
  | file _ _ => none

omit [DecidableEq κ] in
/-- What a change makes of the file, if it is one of it. -/
def Change.contentOf (i : ℕ) : Change κ C → Option C
  | dir _ _ => none
  | file j content => if j = i then some content else none

variable (t : FileTree κ C)

/-- Changes made at once. -/
def apply (changes : List (Change κ C)) : FileTree κ C where
  clock := t.clock + 1
  dirs i := match changes.findSome? (Change.dirOf i) with
    | some d => (t.clock + 1, d)
    | none => t.dirs i
  files i := match changes.findSome? (Change.contentOf i) with
    | some content => (t.clock + 1, content)
    | none => t.files i
  dirs_le i := by
    split
    · exact le_rfl
    · exact Nat.le_succ_of_le (t.dirs_le i)
  files_le i := by
    split
    · exact le_rfl
    · exact Nat.le_succ_of_le (t.files_le i)

/-- When the node was changed last. -/
def changed : Node → ℕ
  | .dir i => (t.dirs i).1
  | .file i => (t.files i).1

/-- What a directory names. -/
def entries (i : ℕ) : AList fun _ : κ ↦ Entry κ := (t.dirs i).2.entries

/-- What a file holds. -/
def content : Node → Option C
  | .dir _ => none
  | .file i => some (t.files i).2

/-- The node as it is. -/
def stamp (n : Node) : Stamp := ⟨n, t.changed n⟩

/-- The node is what it was when it had the stamp. -/
def Has (s : Stamp) : Prop := t.changed s.node = s.changed

instance (s : Stamp) : Decidable (t.Has s) := inferInstanceAs (Decidable (_ = _))

/-! ### Paths -/

/-- A component of the path of a link. -/
def look (i : ℕ) : Option κ → Option (Entry κ)
  | none => some (.node (.dir (t.dirs i).2.parent))
  | some c => (t.entries i).lookup c

/-- Where a path leads, when a link on the way leads to what `jump` says. -/
def descend (jump : ℕ → List (Option κ) → Option Node) :
    Entry κ → List (Option κ) → Option Node
  | .link start target, p => jump start (target ++ p)
  | .node n, [] => some n
  | .node (.dir i), c :: p => (t.look i c).bind fun e ↦ descend jump e p
  | .node (.file _), _ :: _ => none

/-- Where a path leads, over no more than so many links. -/
def follow : ℕ → Entry κ → List (Option κ) → Option Node
  | 0 => t.descend fun _ _ ↦ none
  | links + 1 => t.descend fun start p ↦ follow links (.node (.dir start)) p

/-- No look-up of a path follows more links than these. -/
def maxLinks : ℕ := 40

/-- What an entry leads to. -/
def target (e : Entry κ) : Option Node := t.follow maxLinks e []

/-- Where a path leads from the first directory, over links. -/
def resolve (p : List κ) : Option Node := t.follow maxLinks (.node (.dir 0)) (p.map some)

/-- The content of the file at a path. -/
def file (p : List κ) : Option C := (t.resolve p).bind t.content

/-- What an entry names. -/
def child (c : κ) : Entry κ → Option (Entry κ)
  | .node (.dir i) => (t.entries i).lookup c
  | _ => none

/-- What is at a path from an entry on, over no link. -/
def entryFrom : Entry κ → List κ → Option (Entry κ)
  | e, [] => some e
  | e, c :: p => (t.child c e).bind fun e ↦ entryFrom e p

/-- What is at a path, over no link. -/
def entry (p : List κ) : Option (Entry κ) := t.entryFrom (.node (.dir 0)) p

/-- The content of the file that is found at a path, which may itself be a link. -/
def source (p : List κ) : Option C := ((t.entry p).bind t.target).bind t.content

/-- There is no link on the way of the path. -/
def Direct (p : List κ) : Prop :=
  ∀ q start target, q <+: p → t.entry q = some (.link start target) → q = p

/-- Nor is there one at its end. -/
def Unlinked (p : List κ) : Prop :=
  ∀ q start target, q <+: p → t.entry q ≠ some (.link start target)

variable {t} {t' : FileTree κ C} {n : Node} {s : Stamp} {p q : List κ} {c : κ} {e e' : Entry κ}

omit [DecidableEq κ] in
theorem changed_le (n : Node) : t.changed n ≤ t.clock := by
  cases n with
  | dir i => exact t.dirs_le i
  | file i => exact t.files_le i

@[simp] theorem entry_nil : t.entry [] = some (.node (.dir 0)) := rfl

@[simp] theorem target_node (n : Node) : t.target (.node n) = some n := rfl

theorem entryFrom_append (e : Entry κ) (p q : List κ) :
    t.entryFrom e (p ++ q) = (t.entryFrom e p).bind fun e ↦ t.entryFrom e q := by
  induction p generalizing e with
  | nil => rfl
  | cons c p ih =>
    rw [List.cons_append, entryFrom, entryFrom, Option.bind_assoc]
    exact congrArg _ (funext ih)

/-- **One component more is one look into a directory.** -/
theorem entry_concat (p : List κ) (c : κ) :
    t.entry (p ++ [c]) = (t.entry p).bind (t.child c) := by
  rw [entry, entryFrom_append]
  exact congrArg _ (funext fun e ↦ Option.bind_fun_some _)

theorem child_eq_some : t.child c e = some e' ↔
    ∃ i, e = .node (.dir i) ∧ (t.entries i).lookup c = some e' := by
  constructor
  · intro h
    rcases e with (i | i) | ⟨start, target⟩
    · exact ⟨i, rfl, h⟩
    · cases h
    · cases h
  · rintro ⟨i, rfl, h⟩
    exact h

/-- What is at a path is named by the directory before its last component. -/
theorem entry_concat_eq_some : t.entry (p ++ [c]) = some e ↔
    ∃ i, t.entry p = some (.node (.dir i)) ∧ (t.entries i).lookup c = some e := by
  rw [entry_concat, Option.bind_eq_some_iff]
  constructor
  · rintro ⟨_, hp, hchild⟩
    obtain ⟨i, rfl, hc⟩ := child_eq_some.1 hchild
    exact ⟨i, hp, hc⟩
  · rintro ⟨i, hp, hc⟩
    exact ⟨.node (.dir i), hp, hc⟩

/-- A path at which there is something leads through directories. -/
theorem exists_entry_of_prefix (h : t.entry p = some e) (hq : q <+: p) :
    ∃ e', t.entry q = some e' ∧ (q = p ∨ ∃ i, e' = .node (.dir i)) := by
  obtain ⟨rest, rfl⟩ := hq
  rw [entry, entryFrom_append, Option.bind_eq_some_iff] at h
  obtain ⟨e', he', hrest⟩ := h
  refine ⟨e', he', ?_⟩
  cases rest with
  | nil => exact .inl (List.append_nil q).symm
  | cons c rest =>
    obtain ⟨_, hchild, -⟩ := Option.bind_eq_some_iff.1 hrest
    obtain ⟨i, rfl, -⟩ := child_eq_some.1 hchild
    exact .inr ⟨i, rfl⟩

theorem direct_of_entry (h : t.entry p = some e) : t.Direct p := by
  intro q start target hq hlink
  obtain ⟨e', he', heq | ⟨i, rfl⟩⟩ := exists_entry_of_prefix h hq
  · exact heq
  · rw [hlink] at he'
    cases he'

theorem Unlinked.direct (h : t.Unlinked p) : t.Direct p :=
  fun q start target hq hlink ↦ absurd hlink (h q start target hq)

/-- **A path one component longer.** -/
theorem direct_concat : t.Direct (p ++ [c]) ↔ t.Unlinked p := by
  constructor
  · intro h q start target hq hlink
    obtain rfl := h q start target (hq.trans (List.prefix_append p [c])) hlink
    have hlength := hq.length_le
    rw [List.length_append, List.length_singleton] at hlength
    omega
  · intro h q start target hq hlink
    rcases List.prefix_concat_iff.1 hq with heq | hq
    · exact heq
    · exact absurd hlink (h q start target hq)

/-- The way of a path without links on it. -/
theorem descend_append (jump : ℕ → List (Option κ) → Option Node) {rest : List (Option κ)}
    (h : t.entryFrom e p = some e') :
    t.descend jump e (p.map some ++ rest) = t.descend jump e' rest := by
  induction p generalizing e with
  | nil =>
    obtain rfl := Option.some.inj h
    rfl
  | cons c p ih =>
    obtain ⟨e₁, hchild, hp⟩ := Option.bind_eq_some_iff.1 h
    obtain ⟨i, rfl, hc⟩ := child_eq_some.1 hchild
    show (t.look i (some c)).bind _ = _
    rw [show t.look i (some c) = some e₁ from hc]
    exact ih hp

/-- A path at which there is nothing, and no link before, leads nowhere. -/
theorem descend_eq_none (jump : ℕ → List (Option κ) → Option Node)
    (h : t.entryFrom e p = none)
    (hdirect : ∀ q start target, q <+: p → t.entryFrom e q ≠ some (.link start target)) :
    t.descend jump e (p.map some) = none := by
  induction p generalizing e with
  | nil => cases h
  | cons c p ih =>
    rcases e with (i | i) | ⟨start, target⟩
    · show ((t.entries i).lookup c).bind _ = none
      rcases hc : (t.entries i).lookup c with - | e
      · rfl
      · have hfrom : ∀ q, t.entryFrom (.node (.dir i)) (c :: q) = t.entryFrom e q := by
          intro q
          show ((t.entries i).lookup c).bind _ = _
          rw [hc, Option.bind_some]
        refine ih ((hfrom p).symm.trans h) fun q start target hq ↦ ?_
        rw [← hfrom]
        exact hdirect (c :: q) start target ((List.prefix_cons_inj c).2 hq)
    · rfl
    · exact absurd rfl (hdirect [] start target List.nil_prefix)

theorem follow_eq_descend (links : ℕ) : ∃ jump : ℕ → List (Option κ) → Option Node,
    t.follow links = t.descend jump := by
  cases links with
  | zero => exact ⟨_, rfl⟩
  | succ links => exact ⟨_, rfl⟩

/-- **A path with no link on its way** leads to what the entry at its end leads to. -/
theorem resolve_of_direct (h : t.Direct p) : t.resolve p = (t.entry p).bind t.target := by
  obtain ⟨jump, hjump⟩ := t.follow_eq_descend maxLinks
  have htarget : t.target = fun e ↦ t.descend jump e [] := by
    funext e
    rw [target, hjump]
  rw [resolve, hjump, htarget]
  rcases hp : t.entry p with - | e
  · refine descend_eq_none jump hp fun q start target hq hlink ↦ ?_
    obtain rfl := h q start target hq hlink
    rw [entry, hlink] at hp
    cases hp
  · rw [← List.append_nil (p.map some), descend_append jump hp]
    rfl

theorem resolve_of_entry (h : t.entry p = some e) : t.resolve p = t.target e := by
  rw [resolve_of_direct (direct_of_entry h), h]
  rfl

/-- Where a path without links leads is what is at it. -/
theorem entry_of_unlinked (h : t.Unlinked p) (hp : t.resolve p = some n) :
    t.entry p = some (.node n) := by
  rw [resolve_of_direct h.direct, Option.bind_eq_some_iff] at hp
  obtain ⟨e, he, htarget⟩ := hp
  rcases e with m | ⟨start, target⟩
  · obtain rfl := Option.some.inj htarget
    exact he
  · exact absurd he (h p start target (List.prefix_refl p))

theorem source_eq_file (h : t.Direct p) : t.source p = t.file p := by
  rw [source, file, resolve_of_direct h]

/-- **What is found at a path** is the file at it, if there is no link on the way. -/
theorem source_eq_some {content : C} :
    t.source p = some content ↔ t.Direct p ∧ t.file p = some content := by
  constructor
  · intro h
    obtain ⟨_, hn, -⟩ := Option.bind_eq_some_iff.1 h
    obtain ⟨e, he, -⟩ := Option.bind_eq_some_iff.1 hn
    have hdirect := direct_of_entry he
    exact ⟨hdirect, (source_eq_file hdirect).symm.trans h⟩
  · rintro ⟨hdirect, h⟩
    exact (source_eq_file hdirect).trans h

/-- **Where paths lead depends on the directories only.** -/
theorem resolve_congr (h : ∀ i, (t.dirs i).2 = (t'.dirs i).2) : t.resolve = t'.resolve := by
  have hlook : t.look = t'.look := by
    funext i c
    cases c with
    | none => exact congrArg (fun d : Dir κ ↦ some (Entry.node (.dir d.parent))) (h i)
    | some c => exact congrArg (fun d : Dir κ ↦ d.entries.lookup c) (h i)
  have hdescend : ∀ jump, t.descend jump = t'.descend jump := by
    intro jump
    funext e p
    induction p generalizing e with
    | nil => rcases e with (i | i) | ⟨start, target⟩ <;> rfl
    | cons c p ih =>
      rcases e with (i | i) | ⟨start, target⟩
      · show (t.look i c).bind (fun e ↦ t.descend jump e p) =
          (t'.look i c).bind fun e ↦ t'.descend jump e p
        rw [hlook]
        exact congrArg _ (funext ih)
      · rfl
      · rfl
  have hfollow : ∀ links, t.follow links = t'.follow links := by
    intro links
    induction links with
    | zero => exact hdescend _
    | succ links ih =>
      show t.descend (fun start p ↦ t.follow links (.node (.dir start)) p) =
        t'.descend fun start p ↦ t'.follow links (.node (.dir start)) p
      rw [ih, hdescend]
  funext p
  rw [resolve, hfollow]
  rfl

/-! ### Changes -/

/-- Two trees in which a node is the same. -/
def SameAt (t t' : FileTree κ C) : Node → Prop
  | .dir i => t.dirs i = t'.dirs i
  | .file i => t.files i = t'.files i

omit [DecidableEq κ] in
theorem dirs_apply (t : FileTree κ C) (changes : List (Change κ C)) (i : ℕ) :
    (t.apply changes).dirs i = t.dirs i ∨ ((t.apply changes).dirs i).1 = t.clock + 1 := by
  rcases h : changes.findSome? (Change.dirOf i) with - | d
  · left
    rw [apply]
    dsimp only
    rw [h]
  · right
    rw [apply]
    dsimp only
    rw [h]

omit [DecidableEq κ] in
/-- A change leaves a file alone, or stamps it. -/
theorem files_apply (t : FileTree κ C) (changes : List (Change κ C)) (i : ℕ) :
    (t.apply changes).files i = t.files i ∨ ((t.apply changes).files i).1 = t.clock + 1 := by
  rcases h : changes.findSome? (Change.contentOf i) with - | content
  · left
    rw [apply]
    dsimp only
    rw [h]
  · right
    rw [apply]
    dsimp only
    rw [h]

omit [DecidableEq κ] in
/-- **A node with a stamp of before has not been changed.** -/
theorem sameAt_of_has {changes : List (Change κ C)} (hle : s.changed ≤ t.clock)
    (h : (t.apply changes).Has s) : t.SameAt (t.apply changes) s.node := by
  have hlt : (t.apply changes).changed s.node ≠ t.clock + 1 := by
    rw [show _ = s.changed from h]
    omega
  obtain ⟨n, time⟩ := s
  cases n with
  | dir i => exact ((dirs_apply t changes i).resolve_right hlt).symm
  | file i => exact ((files_apply t changes i).resolve_right hlt).symm

omit [DecidableEq κ] in
theorem SameAt.changed_eq (h : t.SameAt t' n) : t.changed n = t'.changed n := by
  cases n with
  | dir i => exact congrArg Prod.fst h
  | file i => exact congrArg Prod.fst h

omit [DecidableEq κ] in
theorem SameAt.content_eq (h : t.SameAt t' n) : t.content n = t'.content n := by
  cases n with
  | dir i => rfl
  | file i => exact congrArg (fun x ↦ some x.2) h

omit [DecidableEq κ] in
theorem SameAt.refl (n : Node) : t.SameAt t n := by
  cases n <;> exact rfl

omit [DecidableEq κ] in
theorem SameAt.trans {t'' : FileTree κ C} (h : t.SameAt t' n) (h' : t'.SameAt t'' n) :
    t.SameAt t'' n := by
  cases n with
  | dir i => exact Eq.trans h h'
  | file i => exact Eq.trans h h'

omit [DecidableEq κ] in
/-- What was lost is not found again. -/
theorem has_of_apply {changes : List (Change κ C)} (hle : s.changed ≤ t.clock)
    (h : (t.apply changes).Has s) : t.Has s :=
  (sameAt_of_has hle h).changed_eq.trans h

end FileTree
