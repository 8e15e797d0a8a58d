import Mathlib.Algebra.Group.Nat.Defs
import Mathlib.Algebra.GroupWithZero.Nat
import Mathlib.Data.List.Lex
import Mathlib.Data.List.Nodup
import Mathlib.Data.List.TakeWhile
import Mathlib.Order.Fin.Basic
import RustCodeMcp.Codec.Marks

/-!
# The key of a daemon

Clients of one configuration share a daemon, whose socket is named by a digest of the configuration.
The digest is fed the two paths with nothing between them, the size and the time of the executable
at fixed widths, and the keyed variables, each with a zero before it.

Two configurations may feed the same bytes: the paths may be cut elsewhere (`Parts.Recut`), or the
first bytes of the numbers, if none of them is zero, may be the end of a longer path, and the
variables that come first fill the numbers up again (`Parts.Shifted`). These are all the ways
(`keyBytes_injective_iff`).

**The digest is a one-way street, the bytes before it are not.** What is asked here is whether two
configurations feed the same bytes; that the digest itself does not collide is left to it. A path
may hold any byte but zero and has no mark at its end, and so paths and numbers run into one
another; the variables are safe, because a zero stands before each, neither names nor values have
one in them, and the first `=` ends the name (`flatMap_entryBytes_inj`).

The comparison is one of lengths: with paths of one total length only the cut between the two can
differ, and with a shorter total the other's paths must end within the numbers.
-/

namespace RustCodeMcp.DaemonKey

/-- A byte. -/
abbrev Byte := Fin 256

/-- Named, so that every literal has one proof of it. -/
scoped instance neZero_byte : NeZero 256 :=
  ⟨by decide⟩

/-- A word of ASCII characters. -/
def ascii (word : String) : List Byte :=
  word.toList.map fun c ↦ Fin.ofNat 256 c.toNat

/-- `=` -/
def equals : Byte := 61

/-- The low bytes of a number, the lowest first. -/
def leBytes : ℕ → ℕ → List Byte
  | 0, _ => []
  | width + 1, n => Fin.ofNat 256 n :: leBytes width (n / 256)

/-! ### The parts -/

/-- What the key is made of. -/
structure Parts where
  dataDir : List Byte
  exe : List Byte
  exeLen : ℕ
  exeMtime : ℕ
  /-- The variables of the process, each with its value, as the system hands them over. -/
  env : List (List Byte × List Byte)
  zero_not_mem_dataDir : 0 ∉ dataDir
  zero_not_mem_exe : 0 ∉ exe
  exeLen_lt : exeLen < 256 ^ 8
  exeMtime_lt : exeMtime < 256 ^ 16
  /-- A name ends at the first `=` after its first byte. -/
  name : ∀ pair ∈ env, 0 ∉ pair.1 ∧ equals ∉ pair.1.tail
  zero_not_mem_value : ∀ pair ∈ env, 0 ∉ pair.2
  nodup : (env.map Prod.fst).Nodup

/-- How the names of keyed variables begin. -/
def KEYED_ENV_PREFIXES : List (List Byte) :=
  [ascii "RMC_", ascii "RUST_CODE_MCP_"]

/-- The other variables that are keyed. -/
def KEYED_ENV_EXTRA : List (List Byte) :=
  [ascii "OPENROUTER_API_KEY", ascii "LD_LIBRARY_PATH"]

/-- The variables that are not keyed, whatever their names begin with. -/
def UNKEYED_ENV : List (List Byte) :=
  [ascii "RMC_DAEMON", ascii "RMC_DAEMON_DIR", ascii "RMC_DAEMON_IDLE_SECS", ascii "RMC_EP_CENSUS"]

/-- Whether a variable is part of the key. -/
def keyed (name : List Byte) : Bool :=
  !UNKEYED_ENV.contains name &&
    (KEYED_ENV_PREFIXES.any (·.isPrefixOf name) || KEYED_ENV_EXTRA.contains name)

/-- The keyed variables, sorted by name. -/
def keyedEnvPairs (env : List (List Byte × List Byte)) : List (List Byte × List Byte) :=
  (env.filter fun pair ↦ keyed pair.1).mergeSort fun a b ↦ a.1 ≤ b.1

/-- A variable as the digest is fed it. -/
def entryBytes (pair : List Byte × List Byte) : List Byte :=
  0 :: (pair.1 ++ equals :: pair.2)

namespace Parts

variable (a b : Parts)

/-- The variables as they are fed. -/
def vars : List (List Byte × List Byte) :=
  keyedEnvPairs a.env

/-- The two paths, one right after the other. -/
def paths : List Byte :=
  a.dataDir ++ a.exe

/-- The fields of a fixed width. -/
def numbers : List Byte :=
  leBytes 8 a.exeLen ++ leBytes 16 a.exeMtime

/-- What `key_from_parts` feeds the digest. -/
def keyBytes : List Byte :=
  a.dataDir ++ a.exe ++ leBytes 8 a.exeLen ++ leBytes 16 a.exeMtime ++ a.vars.flatMap entryBytes

/-- The same configuration. -/
structure Same : Prop where
  dataDir : a.dataDir = b.dataDir
  exe : a.exe = b.exe
  exeLen : a.exeLen = b.exeLen
  exeMtime : a.exeMtime = b.exeMtime
  vars : ∀ pair, pair ∈ a.vars ↔ pair ∈ b.vars

/-- Different paths that are the same when they are put together. -/
structure Recut : Prop where
  dataDir : a.dataDir ≠ b.dataDir
  paths : a.paths = b.paths
  exeLen : a.exeLen = b.exeLen
  exeMtime : a.exeMtime = b.exeMtime
  vars : ∀ pair, pair ∈ a.vars ↔ pair ∈ b.vars

/-- The paths of the second end in the first bytes of the numbers of the first, and its numbers in
the variables that the second does not have. -/
def Shifted : Prop :=
  ∃ first, first ≠ [] ∧ a.vars = first ++ b.vars ∧
    b.paths = a.paths ++ a.numbers.take (first.flatMap entryBytes).length ∧
    b.numbers = a.numbers.drop (first.flatMap entryBytes).length ++ first.flatMap entryBytes

end Parts

/-! ### Numbers -/

theorem length_leBytes (width n : ℕ) : (leBytes width n).length = width := by
  induction width generalizing n with
  | zero => rfl
  | succ width ih => simp [leBytes, ih]

/-- Two numbers that fit their width have different bytes. -/
theorem leBytes_inj {width m n : ℕ} (hm : m < 256 ^ width) (hn : n < 256 ^ width)
    (h : leBytes width m = leBytes width n) : m = n := by
  induction width generalizing m n with
  | zero =>
    rw [Nat.pow_zero] at hm hn
    omega
  | succ width ih =>
    rw [leBytes, leBytes, List.cons.injEq, Fin.ext_iff] at h
    rw [Nat.pow_succ] at hm hn
    have hlow : m % 256 = n % 256 := h.1
    have hhigh : m / 256 = n / 256 := ih (by omega) (by omega) h.2
    omega

theorem Parts.length_numbers (a : Parts) : a.numbers.length = 24 := by
  simp [Parts.numbers, length_leBytes]

theorem Parts.numbers_inj {a b : Parts} :
    a.numbers = b.numbers ↔ a.exeLen = b.exeLen ∧ a.exeMtime = b.exeMtime := by
  constructor
  · intro h
    obtain ⟨hlen, hmtime⟩ := List.append_inj h (by simp [length_leBytes])
    exact ⟨leBytes_inj a.exeLen_lt b.exeLen_lt hlen, leBytes_inj a.exeMtime_lt b.exeMtime_lt hmtime⟩
  · rintro ⟨hlen, hmtime⟩
    rw [Parts.numbers, Parts.numbers, hlen, hmtime]

/-! ### Variables -/

/-- Names without `=`, and no zero in them or their values. -/
def Readable (pairs : List (List Byte × List Byte)) : Prop :=
  ∀ pair ∈ pairs, equals ∉ pair.1 ∧ 0 ∉ pair.1 ++ equals :: pair.2

section Readable

variable {pairs pairs' : List (List Byte × List Byte)} {pair : List Byte × List Byte}

/-- What the variables feed is nothing, or begins with a zero. -/
theorem head?_flatMap_entryBytes : ∀ x ∈ (pairs.flatMap entryBytes).head?, x = 0 := by
  rcases pairs with - | ⟨pair, pairs⟩ <;> simp [entryBytes]

/-- From what is fed of variables they can be told. -/
theorem flatMap_entryBytes_inj (h : Readable pairs) (h' : Readable pairs')
    (heq : pairs.flatMap entryBytes = pairs'.flatMap entryBytes) : pairs = pairs' := by
  induction pairs generalizing pairs' with
  | nil =>
    rcases pairs' with - | ⟨pair', pairs'⟩
    · rfl
    · simp [entryBytes] at heq
  | cons pair pairs ih =>
    rcases pairs' with - | ⟨pair', pairs'⟩
    · simp [entryBytes] at heq
    · obtain ⟨hname, hzero⟩ := h pair List.mem_cons_self
      obtain ⟨hname', hzero'⟩ := h' pair' List.mem_cons_self
      rw [List.flatMap_cons, List.flatMap_cons, entryBytes, entryBytes, List.cons_append,
        List.cons_append, List.cons.injEq] at heq
      obtain ⟨hpair, hrest⟩ := Marks.append_inj_of_mark hzero hzero' head?_flatMap_entryBytes
        head?_flatMap_entryBytes heq.2
      obtain ⟨hfst, hsnd⟩ := Marks.append_inj_of_mark hname hname' (by simp) (by simp) hpair
      rw [List.cons.injEq] at hsnd
      rw [Prod.ext hfst hsnd.2, ih (fun x hx ↦ h x (List.mem_cons_of_mem _ hx))
        (fun x hx ↦ h' x (List.mem_cons_of_mem _ hx)) hrest]

/-- Where the rest of a feed is a feed, the cut is between two variables. -/
theorem exists_of_drop_eq (h : Readable pairs) (h' : Readable pairs') {k : ℕ}
    (heq : (pairs.flatMap entryBytes).drop k = pairs'.flatMap entryBytes)
    (hk : k ≤ (pairs.flatMap entryBytes).length) :
    ∃ first, pairs = first ++ pairs' ∧ (first.flatMap entryBytes).length = k := by
  induction pairs generalizing k with
  | nil =>
    obtain rfl : k = 0 := by simpa using hk
    exact ⟨[], flatMap_entryBytes_inj h h' heq, rfl⟩
  | cons pair pairs ih =>
    rcases Nat.lt_or_ge k (entryBytes pair).length with hlt | hge
    · rcases k with - | k
      · exact ⟨[], flatMap_entryBytes_inj h h' heq, rfl⟩
      · -- the rest would begin inside a variable
        exfalso
        have hget : (pairs'.flatMap entryBytes).head? = (pair.1 ++ equals :: pair.2)[k]? := by
          rw [← heq, List.head?_drop, List.flatMap_cons, List.getElem?_append_left hlt]
          rfl
        have hk' : k < (pair.1 ++ equals :: pair.2).length := by
          rw [entryBytes, List.length_cons] at hlt
          omega
        rw [List.getElem?_eq_getElem hk'] at hget
        refine (h pair List.mem_cons_self).2 ?_
        rw [← head?_flatMap_entryBytes _ hget]
        exact List.getElem_mem _
    · rw [List.flatMap_cons, List.drop_append, List.drop_of_length_le hge, List.nil_append] at heq
      rw [List.flatMap_cons, List.length_append] at hk
      obtain ⟨first, rfl, hlength⟩ := ih (fun x hx ↦ h x (List.mem_cons_of_mem _ hx)) heq (by omega)
      refine ⟨pair :: first, rfl, ?_⟩
      rw [List.flatMap_cons, List.length_append, hlength]
      omega

end Readable

namespace Parts

variable {a b : Parts} {pair : List Byte × List Byte}

theorem mem_vars : pair ∈ a.vars ↔ pair ∈ a.env ∧ keyed pair.1 := by
  rw [vars, keyedEnvPairs, List.mem_mergeSort, List.mem_filter]

theorem equals_not_mem_of_keyed {name : List Byte} (h : keyed name) (htail : equals ∉ name.tail) :
    equals ∉ name := by
  have hhead : ∃ b ∈ name.head?, equals ≠ b := by
    simp only [keyed, KEYED_ENV_PREFIXES, KEYED_ENV_EXTRA, Bool.and_eq_true, Bool.or_eq_true,
      List.any_cons, List.any_nil, Bool.or_false, List.isPrefixOf_iff_prefix, List.contains_cons,
      List.contains_nil, beq_iff_eq] at h
    rcases h with ⟨-, (⟨rest, rfl⟩ | ⟨rest, rfl⟩) | rfl | rfl⟩
    · exact ⟨82, rfl, by decide⟩
    · exact ⟨82, rfl, by decide⟩
    · exact ⟨79, rfl, by decide⟩
    · exact ⟨76, rfl, by decide⟩
  obtain ⟨b, hb, hne⟩ := hhead
  obtain ⟨rest, rfl⟩ := List.head?_eq_some_iff.1 hb
  rw [List.mem_cons, not_or]
  exact ⟨hne, htail⟩

/-- What is fed has no zero in it, and its names have no `=`. -/
theorem readable_vars (a : Parts) : Readable a.vars := by
  intro pair hpair
  obtain ⟨hmem, hkeyed⟩ := mem_vars.1 hpair
  obtain ⟨hzero, htail⟩ := a.name pair hmem
  refine ⟨equals_not_mem_of_keyed hkeyed htail, ?_⟩
  rw [List.mem_append, List.mem_cons, not_or, not_or]
  exact ⟨hzero, by decide, a.zero_not_mem_value pair hmem⟩

/-- The variables come in one order. -/
theorem vars_eq_iff : a.vars = b.vars ↔ ∀ pair, pair ∈ a.vars ↔ pair ∈ b.vars := by
  refine ⟨fun h pair ↦ by rw [h], fun h ↦ ?_⟩
  have hnodup : ∀ a : Parts, a.vars.Nodup := fun a ↦
    (List.mergeSort_perm _ _).nodup_iff.2 ((List.Nodup.of_map _ a.nodup).filter _)
  have hsorted : ∀ a : Parts, a.vars.Pairwise fun x y ↦ x.1 ≤ y.1 := fun a ↦ by
    refine (List.pairwise_mergeSort (fun x y z hxy hyz ↦ ?_) (fun x y ↦ ?_) _).imp
      (fun {x y} hxy ↦ of_decide_eq_true hxy)
    · rw [decide_eq_true_eq] at hxy hyz ⊢
      exact hxy.trans hyz
    · rw [Bool.or_eq_true, decide_eq_true_eq, decide_eq_true_eq]
      exact le_total _ _
  refine List.Perm.eq_of_pairwise (fun x y hx hy hxy hyx ↦ ?_) (hsorted a) (hsorted b)
    ((List.perm_ext_iff_of_nodup (hnodup a) (hnodup b)).2 h)
  exact List.inj_on_of_nodup_map a.nodup (mem_vars.1 hx).1 (mem_vars.1 ((h y).2 hy)).1
    (le_antisymm hxy hyx)

/-! ### The bytes of two configurations -/

theorem keyBytes_eq (a : Parts) :
    a.keyBytes = a.paths ++ (a.numbers ++ a.vars.flatMap entryBytes) := by
  simp [keyBytes, paths, numbers]

/-- With paths of one length in all, only the cut between them can differ. -/
theorem same_or_recut (h : a.keyBytes = b.keyBytes) (hlength : a.paths.length = b.paths.length) :
    a.Same b ∨ a.Recut b := by
  rw [keyBytes_eq, keyBytes_eq] at h
  obtain ⟨hpaths, hrest⟩ := List.append_inj h hlength
  obtain ⟨hnumbers, hvars⟩ := List.append_inj hrest (by simp [length_numbers])
  obtain ⟨hlen, hmtime⟩ := numbers_inj.1 hnumbers
  have hvars := vars_eq_iff.1 (flatMap_entryBytes_inj a.readable_vars b.readable_vars hvars)
  by_cases hdir : a.dataDir = b.dataDir
  · refine .inl ⟨hdir, ?_, hlen, hmtime, hvars⟩
    rw [paths, paths, hdir] at hpaths
    exact List.append_cancel_left hpaths
  · exact .inr ⟨hdir, hpaths, hlen, hmtime, hvars⟩

/-- A path goes no farther than into the numbers: the variables begin with a zero. -/
theorem eq_take_numbers {word rest : List Byte} (hzero : 0 ∉ word)
    (h : a.numbers ++ a.vars.flatMap entryBytes = word ++ rest) :
    word.length ≤ 24 ∧ word = a.numbers.take word.length ∧
      a.numbers.drop word.length ++ a.vars.flatMap entryBytes = rest := by
  have hle : word.length ≤ 24 := by
    by_contra! hlt
    have hget : (a.vars.flatMap entryBytes).head? = word[24]? := by
      have := congrArg (fun l ↦ l[24]?) h
      rw [List.getElem?_append_right (by rw [length_numbers]), List.getElem?_append_left hlt,
        length_numbers] at this
      rw [List.head?_eq_getElem?, ← this]
    rw [List.getElem?_eq_getElem hlt] at hget
    exact hzero (head?_flatMap_entryBytes _ hget ▸ List.getElem_mem hlt)
  rw [← List.take_append_drop word.length a.numbers, List.append_assoc] at h
  obtain ⟨hword, hrest⟩ := List.append_inj h (by simp [length_numbers, hle])
  exact ⟨hle, hword.symm, hrest⟩

/-- With paths of different lengths, the longer ones reach into the numbers of the other. -/
theorem shifted_of_lt (h : a.keyBytes = b.keyBytes) (hlt : a.paths.length < b.paths.length) :
    a.Shifted b := by
  rw [keyBytes_eq, keyBytes_eq] at h
  obtain ⟨word, hword, hrest⟩ | ⟨word, hword, -⟩ := List.append_eq_append_iff.1 h
  · have hzero : 0 ∉ b.paths := by
      rw [paths, List.mem_append, not_or]
      exact ⟨b.zero_not_mem_dataDir, b.zero_not_mem_exe⟩
    rw [hword, List.mem_append, not_or] at hzero
    obtain ⟨hle, htake, hdrop⟩ := eq_take_numbers hzero.2 hrest
    have hlength := congrArg List.length hdrop
    simp only [List.length_append, List.length_drop, length_numbers] at hlength
    -- the numbers of `b` end where its variables begin
    rw [← List.take_append_drop word.length (a.vars.flatMap entryBytes), ← List.append_assoc]
      at hdrop
    obtain ⟨hnumbers, hvars⟩ := List.append_inj hdrop (by
      simp only [List.length_append, List.length_drop, List.length_take, length_numbers]
      omega)
    obtain ⟨first, hfirst, hk⟩ := exists_of_drop_eq a.readable_vars b.readable_vars hvars (by omega)
    have htake' : (a.vars.flatMap entryBytes).take word.length = first.flatMap entryBytes := by
      rw [hfirst, List.flatMap_append, ← hk, List.take_left]
    refine ⟨first, ?_, hfirst, ?_, ?_⟩
    · rintro rfl
      rw [hword, List.length_append, ← hk] at hlt
      simp at hlt
    · rw [hk, ← htake, hword]
    · rw [hk, ← htake', hnumbers]
  · rw [hword, List.length_append] at hlt
    omega

theorem Shifted.keyBytes_eq (h : a.Shifted b) : a.keyBytes = b.keyBytes := by
  obtain ⟨first, -, hvars, hpaths, hnumbers⟩ := h
  rw [Parts.keyBytes_eq, Parts.keyBytes_eq, hvars, hpaths, hnumbers, List.flatMap_append]
  simp only [List.append_assoc]
  rw [← List.append_assoc (List.take _ _), List.take_append_drop]

theorem Shifted.not_same (h : a.Shifted b) : ¬a.Same b := by
  intro hsame
  obtain ⟨first, hne, hvars, -⟩ := h
  rw [vars_eq_iff.2 hsame.vars] at hvars
  exact hne (List.self_eq_append_left.1 hvars)

theorem Same.symm (h : a.Same b) : b.Same a :=
  ⟨h.dataDir.symm, h.exe.symm, h.exeLen.symm, h.exeMtime.symm, fun pair ↦ (h.vars pair).symm⟩

theorem Same.keyBytes_eq (h : a.Same b) : a.keyBytes = b.keyBytes := by
  rw [keyBytes, keyBytes, h.dataDir, h.exe, h.exeLen, h.exeMtime, vars_eq_iff.2 h.vars]

theorem Recut.keyBytes_eq (h : a.Recut b) : a.keyBytes = b.keyBytes := by
  rw [Parts.keyBytes_eq, Parts.keyBytes_eq, h.paths, numbers_inj.2 ⟨h.exeLen, h.exeMtime⟩,
    vars_eq_iff.2 h.vars]

end Parts

/-- Two configurations that are not the same feed the same bytes where the paths are cut elsewhere,
and where one is the other shifted into its numbers; nowhere else. -/
theorem keyBytes_injective_iff (a b : Parts) :
    (a.keyBytes = b.keyBytes ↔ a.Same b) ↔ ¬(a.Recut b ∨ a.Shifted b ∨ b.Shifted a) := by
  constructor
  · rintro h (hrecut | hshifted | hshifted)
    · exact hrecut.dataDir (h.1 hrecut.keyBytes_eq).dataDir
    · exact hshifted.not_same (h.1 hshifted.keyBytes_eq)
    · exact hshifted.not_same (h.1 hshifted.keyBytes_eq.symm).symm
  · intro hnone
    refine ⟨fun heq ↦ ?_, Parts.Same.keyBytes_eq⟩
    rcases lt_trichotomy a.paths.length b.paths.length with hlt | hlength | hlt
    · exact absurd (.inr (.inl (Parts.shifted_of_lt heq hlt))) hnone
    · exact (Parts.same_or_recut heq hlength).resolve_right fun h ↦ hnone (.inl h)
    · exact absurd (.inr (.inr (Parts.shifted_of_lt heq.symm hlt))) hnone

/-- A configuration without keyed variables. -/
def Parts.plain (dataDir exe : List Byte) (hdir : 0 ∉ dataDir) (hexe : 0 ∉ exe) : Parts where
  dataDir
  exe
  exeLen := 10
  exeMtime := 20
  env := []
  zero_not_mem_dataDir := hdir
  zero_not_mem_exe := hexe
  exeLen_lt := by decide
  exeMtime_lt := by decide
  name := by simp
  zero_not_mem_value := by simp
  nodup := by simp

/-- Two index roots meet in one daemon. -/
theorem index_roots_meet :
    ¬∀ a b : Parts, a.keyBytes = b.keyBytes ↔ a.Same b := by
  intro h
  have hrecut : Parts.Recut
      (.plain (ascii "/roots") (ascii "/a/bin/mcp") (by decide) (by decide))
      (.plain (ascii "/roots/a") (ascii "/bin/mcp") (by decide) (by decide)) :=
    ⟨by decide, by decide, rfl, rfl, fun _ ↦ .rfl⟩
  exact hrecut.dataDir ((h _ _).1 hrecut.keyBytes_eq).dataDir

end RustCodeMcp.DaemonKey
