import RustCodeMcp.Codec.Marks
import RustCodeMcp.Graph.Inputs
import Mathlib.Data.Set.Function
import Mathlib.Data.String.Basic

/-!
# Fingerprints of a tree

The digests of `compute_build_inputs` are hashes of byte strings: of each file, of the files that a
build reads together, of the files of each package, and of all these hashes. As long as the hash
does not collide on the strings that two trees give it (`hashed`), the digests stand for what they
digest: the fingerprints are the same for the same files, and the packages that changed are those
of the files that did (`fingerprint_exact`).

**Collisions are excluded where they matter and nowhere else.** The hypothesis names the strings
that the two trees give to the hash, a finite set that can be written out, and asks that it be
injective on these. Everything else is a matter of reading strings back: a path has no zero in it, a
digest in hexadecimal has a known length, and a record is a path, a zero, the digest and a zero; so
from the string for a list of files one gets the list.
-/

namespace RustCodeMcp.Graph

/-- A byte. -/
abbrev Byte := UInt8

/-- SHA-256, which is not in the repository. -/
abbrev Hash := List Byte → Vector Byte 32

/-- The bytes of a text. -/
def utf8 (s : String) : List Byte :=
  s.toList.flatMap String.utf8EncodeChar

/-- A path as the build writes it down. -/
def relStr (rel : Path) : String :=
  "/".intercalate rel

/-- The digit of half a byte, as a byte. -/
def hexDigit (n : ℕ) : Byte :=
  if n < 10 then UInt8.ofNat (48 + n) else UInt8.ofNat (87 + n)

/-- Bytes in hexadecimal, two digits each. -/
def hex (bytes : List Byte) : List Byte :=
  bytes.flatMap fun b ↦ [hexDigit (b.toNat / 16), hexDigit (b.toNat % 16)]

/-- A file as a hash is fed it. -/
def fileRecord (sha : Hash) (file : Path × List Byte) : List Byte × List Byte :=
  (utf8 (relStr file.1), (sha file.2).toList)

/-- The files as a hash is fed them, one after another. -/
def feed (sha : Hash) (files : Tree (List Byte)) : List Byte :=
  (files.map (fileRecord sha)).flatMap (Marks.record 0)

/-- `BuildInputs`, with the hashes. -/
structure BuildHashes where
  global : List Byte
  packages : List (Path × List Byte)

namespace BuildHashes

/-- The packages as a sorted map goes through them. -/
def sorted (inputs : BuildHashes) : List (Path × List Byte) :=
  inputs.packages.mergeSort fun a b ↦ relStr a.1 ≤ relStr b.1

/-- What the fingerprint is the hash of. -/
def feed (inputs : BuildHashes) : List Byte :=
  Marks.record 0 (utf8 "global", inputs.global) ++
    (inputs.sorted.map fun package ↦ (utf8 (relStr package.1), package.2)).flatMap (Marks.record 0)

/-- The hash over the hashes. -/
def fingerprint (sha : Hash) (inputs : BuildHashes) : List Byte :=
  hex (sha inputs.feed).toList

/-- The packages whose hashes differ, or that only one of the two has. -/
def changedPackages (inputs other : BuildHashes) : List Path :=
  (inputs.packages.filter fun package ↦
    other.packages.lookup package.1 ≠ some package.2).map Prod.fst ++
    (other.packages.map Prod.fst).filter fun dir ↦ dir ∉ inputs.packages.map Prod.fst

end BuildHashes

/-- `compute_build_inputs` -/
def buildHashes (sha : Hash) (root : Path) (tree : Tree (List Byte)) : BuildHashes :=
  let inputs := computeBuildInputs root tree
  { global := hex (sha (feed sha inputs.global)).toList
    packages := inputs.packages.map fun package ↦
      (package.1, hex (sha (feed sha package.2)).toList) }

/-- The strings that are hashed. -/
def hashed (sha : Hash) (root : Path) (tree : Tree (List Byte)) : List (List Byte) :=
  let inputs := computeBuildInputs root tree
  (hashedFiles root tree).map Prod.snd ++ feed sha inputs.global ::
    inputs.packages.map (fun package ↦ feed sha package.2) ++ [(buildHashes sha root tree).feed]

/-- The components of a path are names of files. -/
def Named (rel : Path) : Prop :=
  ∀ c ∈ rel, c ≠ "" ∧ '/' ∉ c.toList ∧ Char.ofNat 0 ∉ c.toList

/-- The files of a tree: their paths are names of files, once each and in order. -/
structure WellFormed (tree : Tree (List Byte)) : Prop where
  ne_nil : ∀ file ∈ tree, file.1 ≠ []
  named : ∀ file ∈ tree, Named file.1
  sorted : tree.Pairwise fun a b ↦ relStr a.1 < relStr b.1

/-- The package that owns a file: the deepest directory above it with a manifest, or the root. -/
structure Owns (root : Path) (tree : Tree (List Byte)) (dir rel : Path) : Prop where
  isPackage : dir = [] ∨ ∃ file ∈ hashedFiles root tree, file.1 = dir ++ ["Cargo.toml"]
  above : dir <+: rel.dropLast
  deepest : ∀ other, (∃ file ∈ hashedFiles root tree, file.1 = other ++ ["Cargo.toml"]) →
    other <+: rel.dropLast → other <+: dir

/-! ### Names -/

theorem utf8_inj {s t : String} (h : utf8 s = utf8 t) : s = t := by
  have hbytes : ∀ s : String, s.toByteArray = (utf8 s).toByteArray := fun s ↦ by
    conv_lhs => rw [← String.ofList_toList (s := s)]
    exact String.toByteArray_ofList
  rw [← String.toByteArray_inj, hbytes, hbytes, h]

theorem zero_not_mem_utf8EncodeChar {c : Char} (h : c ≠ Char.ofNat 0) :
    0 ∉ String.utf8EncodeChar c := by
  have hpos : c.val.toNat ≠ 0 := fun hzero ↦ h (Char.ext (UInt32.toNat_inj.1 hzero))
  fun_cases String.utf8EncodeChar with
    | _ => simp [← UInt8.toNat_inj]; omega

theorem zero_not_mem_utf8 {s : String} (h : Char.ofNat 0 ∉ s.toList) : 0 ∉ utf8 s := by
  rw [utf8, List.mem_flatMap]
  rintro ⟨c, hc, hzero⟩
  exact zero_not_mem_utf8EncodeChar (fun heq ↦ h (heq ▸ hc)) hzero

/-- What follows the first component. -/
def slashed : Path → List Char
  | [] => []
  | c :: rel => '/' :: (c.toList ++ slashed rel)

theorem toList_relStr (c : String) (rel : Path) :
    (relStr (c :: rel)).toList = c.toList ++ slashed rel := by
  rw [relStr, String.toList_intercalate]
  induction rel generalizing c with
  | nil => simp [slashed]
  | cons c' rel ih =>
    simp only [List.map_cons] at ih ⊢
    rw [List.intercalate_cons_cons, ih, slashed, List.append_assoc]
    rfl

variable {rel rel' : Path}

theorem Named.of_cons {c : String} (h : Named (c :: rel)) : Named rel :=
  fun x hx ↦ h x (List.mem_cons_of_mem _ hx)

theorem zero_not_mem_slashed (h : Named rel) : Char.ofNat 0 ∉ slashed rel := by
  induction rel with
  | nil => exact List.not_mem_nil
  | cons c rel ih =>
    rw [slashed, List.mem_cons, List.mem_append, not_or, not_or]
    exact ⟨by decide, (h c List.mem_cons_self).2.2, ih h.of_cons⟩

theorem zero_not_mem_relStr (h : Named rel) : 0 ∉ utf8 (relStr rel) := by
  refine zero_not_mem_utf8 ?_
  rcases rel with - | ⟨c, rel⟩
  · simp [relStr]
  · rw [toList_relStr, List.mem_append, not_or]
    exact ⟨(h c List.mem_cons_self).2.2, zero_not_mem_slashed h.of_cons⟩

theorem slash_of_mem_head? : ∀ x ∈ (slashed rel).head?, x = '/' := by
  rcases rel with - | ⟨c, rel⟩ <;> simp [slashed]

theorem slashed_inj (h : Named rel) (h' : Named rel') (heq : slashed rel = slashed rel') :
    rel = rel' := by
  induction rel generalizing rel' with
  | nil =>
    rcases rel' with - | ⟨c', rel'⟩
    · rfl
    · simp [slashed] at heq
  | cons c rel ih =>
    rcases rel' with - | ⟨c', rel'⟩
    · simp [slashed] at heq
    · obtain ⟨hc, hrel⟩ := Marks.append_inj_of_mark (h c List.mem_cons_self).2.1
        (h' c' List.mem_cons_self).2.1 slash_of_mem_head? slash_of_mem_head? (List.cons.inj heq).2
      rw [String.toList_inj.1 hc, ih h.of_cons h'.of_cons hrel]

/-- A path is known from how it is written down. -/
theorem relStr_inj (h : Named rel) (h' : Named rel') (heq : relStr rel = relStr rel') :
    rel = rel' := by
  have hempty : ∀ {c : String} {rel : Path}, Named (c :: rel) → relStr [] ≠ relStr (c :: rel) := by
    intro c rel h heq
    have hlist := congrArg String.toList heq
    rw [toList_relStr, eq_comm, relStr, String.intercalate_nil, String.toList_empty,
      List.append_eq_nil_iff] at hlist
    exact (h c List.mem_cons_self).1 (by simpa using hlist.1)
  rcases rel with - | ⟨c, rel⟩
  · rcases rel' with - | ⟨c', rel'⟩
    · rfl
    · exact absurd heq (hempty h')
  · rcases rel' with - | ⟨c', rel'⟩
    · exact absurd heq.symm (hempty h)
    · have hlist := congrArg String.toList heq
      rw [toList_relStr, toList_relStr] at hlist
      obtain ⟨hc, hrel⟩ := Marks.append_inj_of_mark (h c List.mem_cons_self).2.1
        (h' c' List.mem_cons_self).2.1 slash_of_mem_head? slash_of_mem_head? hlist
      rw [String.toList_inj.1 hc, slashed_inj h.of_cons h'.of_cons hrel]

/-! ### Digests -/

theorem hexDigit_inj {m n : ℕ} (hm : m < 16) (hn : n < 16) (h : hexDigit m = hexDigit n) :
    m = n := by
  have hall : ∀ m n : Fin 16, hexDigit m = hexDigit n → m = n := by decide
  exact congrArg Fin.val (hall ⟨m, hm⟩ ⟨n, hn⟩ h)

theorem length_hex (bytes : List Byte) : (hex bytes).length = 2 * bytes.length := by
  induction bytes with
  | nil => rfl
  | cons b bytes ih =>
    rw [hex, List.flatMap_cons, List.length_append, ← hex, ih, List.length_cons]
    simp
    omega

/-- Bytes are known from their digits. -/
theorem hex_inj {bytes bytes' : List Byte} (h : hex bytes = hex bytes') : bytes = bytes' := by
  induction bytes generalizing bytes' with
  | nil =>
    rcases bytes' with - | ⟨b', bytes'⟩
    · rfl
    · simp [hex] at h
  | cons b bytes ih =>
    rcases bytes' with - | ⟨b', bytes'⟩
    · simp [hex] at h
    · simp only [hex, List.flatMap_cons, List.cons_append, List.nil_append, List.cons.injEq] at h
      have hb := b.toNat_lt
      have hb' := b'.toNat_lt
      have hhigh := hexDigit_inj (by omega) (by omega) h.1
      have hlow := hexDigit_inj (by omega) (by omega) h.2.1
      have hbyte : b = b' := UInt8.toNat_inj.1 (by omega)
      rw [hbyte, ih h.2.2]

variable {sha : Hash} {root : Path} {tree tree' : Tree (List Byte)}

/-- The digest of a hash tells its string, of those it does not collide on. -/
theorem eq_of_hex_eq {strings : Set (List Byte)} (hinj : strings.InjOn sha) {s t : List Byte}
    (hs : s ∈ strings) (ht : t ∈ strings) (h : hex (sha s).toList = hex (sha t).toList) : s = t :=
  hinj hs ht (Vector.toList_inj.1 (hex_inj h))

/-- The files are known from what the hash is fed, where it does not collide on their contents. -/
theorem feed_inj {files files' : Tree (List Byte)} {strings : Set (List Byte)}
    (hinj : strings.InjOn sha) (h : ∀ file ∈ files, Named file.1 ∧ file.2 ∈ strings)
    (h' : ∀ file ∈ files', Named file.1 ∧ file.2 ∈ strings)
    (heq : feed sha files = feed sha files') : files = files' := by
  have hrecord : ∀ files : Tree (List Byte), (∀ file ∈ files, Named file.1 ∧ file.2 ∈ strings) →
      ∀ r ∈ files.map (fileRecord sha), 0 ∉ r.1 ∧ r.2.length = 32 := by
    intro files hfiles r hr
    obtain ⟨file, hfile, rfl⟩ := List.mem_map.1 hr
    exact ⟨zero_not_mem_relStr (hfiles file hfile).1, by simp [fileRecord]⟩
  have hmap := Marks.flatMap_record_inj (hrecord files h) (hrecord files' h') heq
  clear heq
  induction files generalizing files' with
  | nil => exact (List.map_eq_nil_iff.1 hmap.symm).symm
  | cons file files ih =>
    rcases files' with - | ⟨file', files'⟩
    · cases hmap
    · rw [List.map_cons, List.map_cons, List.cons.injEq, fileRecord, fileRecord, Prod.mk.injEq]
        at hmap
      obtain ⟨hnamed, hmem⟩ := h file List.mem_cons_self
      obtain ⟨hnamed', hmem'⟩ := h' file' List.mem_cons_self
      have hpath := relStr_inj hnamed hnamed' (utf8_inj hmap.1.1)
      have hcontent := hinj hmem hmem' (Vector.toList_inj.1 hmap.1.2)
      rw [Prod.ext hpath hcontent, ih (fun x hx ↦ h x (List.mem_cons_of_mem _ hx))
        (fun x hx ↦ h' x (List.mem_cons_of_mem _ hx)) hmap.2]

/-! ### Trees -/

theorem mem_hashedFiles {file : Path × List Byte} :
    file ∈ hashedFiles root tree ↔ file ∈ tree ∧ isHashed root file.1 = true := by
  rw [hashedFiles, List.mem_filter]

namespace WellFormed

variable (h : WellFormed tree) (h' : WellFormed tree')
include h

/-- A path has one file. -/
theorem lookup_eq_some {p : Path} {content : List Byte} :
    tree.lookup p = some content ↔ (p, content) ∈ tree := by
  obtain ⟨-, -, hsorted⟩ := h
  induction tree with
  | nil => simp
  | cons file tree ih =>
    obtain ⟨hfirst, hrest⟩ := List.pairwise_cons.1 hsorted
    obtain ⟨q, other⟩ := file
    rw [List.mem_cons, List.lookup_cons]
    by_cases hp : p = q
    · subst hp
      have hnone : (p, content) ∉ tree :=
        fun hmem ↦ lt_irrefl (relStr p) (hfirst (p, content) hmem)
      simp [hnone, eq_comm]
    · rw [beq_eq_false_iff_ne.2 hp]
      simpa [hp] using ih hrest

include h'

/-- Files that are picked from two trees are the same when they have the same members: they come in
order. -/
theorem filter_eq {q : Path × List Byte → Bool} {q' : Path × List Byte → Bool}
    (hmem : ∀ file, file ∈ tree.filter q ↔ file ∈ tree'.filter q') :
    tree.filter q = tree'.filter q' := by
  have hnodup : ∀ {tree : Tree (List Byte)}, WellFormed tree → tree.Nodup := fun h ↦
    h.sorted.imp fun {a b} hab ↦ by
      rintro rfl
      exact lt_irrefl _ hab
  exact List.Perm.eq_of_pairwise (fun a b _ _ hab hba ↦ absurd hba hab.asymm)
    (h.sorted.filter _) (h'.sorted.filter _)
    ((List.perm_ext_iff_of_nodup ((hnodup h).filter _) ((hnodup h').filter _)).2 hmem)

/-- Trees with the same files where the build looks have the same hashed files. -/
theorem hashedFiles_eq
    (hlookup : ∀ p, isHashed root p = true → tree.lookup p = tree'.lookup p) :
    hashedFiles root tree = hashedFiles root tree' := by
  refine h.filter_eq h' fun ⟨p, content⟩ ↦ ?_
  rw [← hashedFiles, ← hashedFiles, mem_hashedFiles, mem_hashedFiles]
  refine and_congr_left fun hp ↦ ?_
  rw [← h.lookup_eq_some, ← h'.lookup_eq_some, hlookup p hp]

end WellFormed

/-! ### Owners -/

/-- The package above a path is the deepest directory with a manifest on its way. -/
theorem packageAbove_spec {dirs : List Path} (hroot : [] ∈ dirs) (above : List String) :
    packageAbove dirs above ∈ dirs ∧ packageAbove dirs above <+: above.reverse ∧
      ∀ dir ∈ dirs, dir <+: above.reverse → dir <+: packageAbove dirs above := by
  induction above with
  | nil => exact ⟨hroot, List.prefix_rfl, fun dir _ hdir ↦ hdir⟩
  | cons c above ih =>
    rw [packageAbove]
    split
    case isTrue hmem => exact ⟨hmem, List.prefix_rfl, fun dir _ hdir ↦ hdir⟩
    case isFalse hnot =>
      obtain ⟨hmem, hprefix, hdeepest⟩ := ih
      rw [List.reverse_cons] at hnot ⊢
      refine ⟨hmem, hprefix.trans (List.prefix_append _ _), fun dir hdir habove ↦ ?_⟩
      rcases List.prefix_concat_iff.1 habove with rfl | habove
      · exact absurd hdir hnot
      · exact hdeepest dir hdir habove

/-- A package is a directory with a manifest, or the root. -/
theorem mem_packageDirs {files : Tree (List Byte)} {dir : Path} :
    dir ∈ packageDirs files ↔ dir = [] ∨ ∃ file ∈ files, file.1 = dir ++ ["Cargo.toml"] := by
  rw [packageDirs, List.mem_dedup, List.mem_cons]
  refine or_congr_right ?_
  simp only [List.mem_map, List.mem_filter, decide_eq_true_eq]
  constructor
  · rintro ⟨file, ⟨hmem, hname⟩, rfl⟩
    refine ⟨file, hmem, ?_⟩
    rcases List.eq_nil_or_concat file.1 with hnil | ⟨init, last, hlast⟩
    · rw [hnil] at hname
      exact absurd hname (by decide)
    · rw [hlast, fileName, List.concat_eq_append, List.getLast?_concat, Option.getD_some] at hname
      rw [hlast, hname, List.concat_eq_append, List.dropLast_concat]
  · rintro ⟨file, hmem, hfile⟩
    exact ⟨file, ⟨hmem, by simp [hfile, fileName]⟩, by simp [hfile]⟩

/-- The package of a file is its owner. -/
theorem owns_iff {dir : Path} : Owns root tree dir rel ↔
    packageOf (computeBuildInputs root tree).dirs rel = dir := by
  rw [dirs_computeBuildInputs, packageOf]
  have hroot : [] ∈ packageDirs (hashedFiles root tree) := mem_packageDirs.2 (.inl rfl)
  obtain ⟨hmem, habove, hdeepest⟩ := packageAbove_spec hroot rel.reverse.tail
  have hdir : rel.reverse.tail.reverse = rel.dropLast := by simp
  rw [hdir] at habove hdeepest
  constructor
  · intro h
    have hle := hdeepest dir (mem_packageDirs.2 h.isPackage) h.above
    have hge : packageAbove (packageDirs (hashedFiles root tree)) rel.reverse.tail <+: dir := by
      rcases mem_packageDirs.1 hmem with hnil | hmanifest
      · rw [hnil]
        exact List.nil_prefix
      · exact h.deepest _ hmanifest habove
    exact hge.eq_of_length_le hle.length_le
  · rintro rfl
    exact ⟨mem_packageDirs.1 hmem, habove,
      fun other hother ↦ hdeepest other (mem_packageDirs.2 (.inr hother))⟩

/-! ### The hashes -/

/-- What a package's hash is, in the order of the packages. -/
theorem packages_buildHashes : (buildHashes sha root tree).packages =
    (computeBuildInputs root tree).dirs.map fun dir ↦
      (dir, hex (sha (feed sha (packageFiles (hashedFiles root tree) dir))).toList) := by
  rw [dirs_computeBuildInputs]
  show ((packageDirs _).map fun dir ↦ (dir, _)).map _ = _
  rw [List.map_map]
  rfl

/-- The hash of a package, among those of all. -/
theorem lookup_packages_buildHashes {dir : Path}
    (hdir : dir ∈ (computeBuildInputs root tree).dirs) :
    (buildHashes sha root tree).packages.lookup dir =
      some (hex (sha (feed sha (packageFiles (hashedFiles root tree) dir))).toList) := by
  rw [packages_buildHashes]
  generalize (computeBuildInputs root tree).dirs = dirs at hdir
  induction dirs with
  | nil => cases hdir
  | cons d dirs ih =>
    rw [List.map_cons, List.lookup_cons]
    by_cases hd : dir = d
    · subst hd
      rw [beq_self_eq_true]
    · rw [beq_eq_false_iff_ne.2 hd]
      exact ih ((List.mem_cons.1 hdir).resolve_left hd)

section

variable {strings : Set (List Byte)}

/-- What a hash is applied to for a tree, and that it does not collide there. -/
structure Sound (sha : Hash) (root : Path) (tree : Tree (List Byte)) (strings : Set (List Byte)) :
    Prop where
  wellFormed : WellFormed tree
  injOn : strings.InjOn sha
  hashed : ∀ s ∈ Graph.hashed sha root tree, s ∈ strings

namespace Sound

variable (h : Sound sha root tree strings) (h' : Sound sha root tree' strings)
include h

/-- A hashed file has a name, and its content is hashed. -/
theorem file {file : Path × List Byte} (hfile : file ∈ hashedFiles root tree) :
    Named file.1 ∧ file.2 ∈ strings := by
  refine ⟨h.wellFormed.named file (mem_hashedFiles.1 hfile).1, h.hashed _ ?_⟩
  exact List.mem_append_left _ (List.mem_append_left _ (List.mem_map_of_mem hfile))

theorem feed_global : feed sha (computeBuildInputs root tree).global ∈ strings :=
  h.hashed _ (List.mem_append_left _ (List.mem_append_right _ List.mem_cons_self))

theorem feed_package {dir : Path} (hdir : dir ∈ (computeBuildInputs root tree).dirs) :
    feed sha (packageFiles (hashedFiles root tree) dir) ∈ strings := by
  refine h.hashed _ (List.mem_append_left _ (List.mem_append_right _ (List.mem_cons_of_mem _ ?_)))
  rw [dirs_computeBuildInputs] at hdir
  exact List.mem_map.2 ⟨(dir, _), List.mem_map.2 ⟨dir, hdir, rfl⟩, rfl⟩

theorem feed_fingerprint : (buildHashes sha root tree).feed ∈ strings :=
  h.hashed _ (List.mem_append_right _ (List.mem_singleton_self _))

theorem named_dir {dir : Path} (hdir : dir ∈ (computeBuildInputs root tree).dirs) : Named dir := by
  rw [dirs_computeBuildInputs, mem_packageDirs] at hdir
  rcases hdir with rfl | ⟨file, hfile, heq⟩
  · exact fun c hc ↦ absurd hc List.not_mem_nil
  · exact fun c hc ↦ (h.file hfile).1 c (heq ▸ List.mem_append_left _ hc)

include h'

/-- Equal global digests are of equal files. -/
theorem global_eq (heq : (buildHashes sha root tree).global = (buildHashes sha root tree').global) :
    (computeBuildInputs root tree).global = (computeBuildInputs root tree').global := by
  refine feed_inj h.injOn (fun file hfile ↦ h.file (List.mem_of_mem_filter hfile))
    (fun file hfile ↦ h'.file (List.mem_of_mem_filter hfile)) ?_
  exact eq_of_hex_eq h.injOn h.feed_global h'.feed_global heq

/-- Equal digests of a package are of equal files. -/
theorem packageFiles_eq {dir : Path} (hdir : dir ∈ (computeBuildInputs root tree).dirs)
    (hdir' : dir ∈ (computeBuildInputs root tree').dirs)
    (heq : hex (sha (feed sha (packageFiles (hashedFiles root tree) dir))).toList =
      hex (sha (feed sha (packageFiles (hashedFiles root tree') dir))).toList) :
    packageFiles (hashedFiles root tree) dir = packageFiles (hashedFiles root tree') dir := by
  refine feed_inj h.injOn (fun file hfile ↦ h.file (List.mem_of_mem_filter hfile))
    (fun file hfile ↦ h'.file (List.mem_of_mem_filter hfile)) ?_
  exact eq_of_hex_eq h.injOn (h.feed_package hdir) (h'.feed_package hdir') heq

/-- What the fingerprint is the hash of tells the hashes. -/
theorem hashes_eq (heq : (buildHashes sha root tree).feed = (buildHashes sha root tree').feed) :
    (buildHashes sha root tree).global = (buildHashes sha root tree').global ∧
      ∀ package, package ∈ (buildHashes sha root tree).packages →
        package ∈ (buildHashes sha root tree').packages := by
  have hlength : ∀ (tree : Tree (List Byte)),
      (buildHashes sha root tree).global.length = 64 := fun tree ↦ by
    simp [buildHashes, length_hex]
  have hword : (0 : Byte) ∉ utf8 "global" := by decide
  obtain ⟨hglobal, hrest⟩ := Marks.record_append_inj hword hword
    ((hlength tree).trans (hlength tree').symm) heq
  refine ⟨congrArg Prod.snd hglobal, fun package hpackage ↦ ?_⟩
  have hrecord : ∀ {tree : Tree (List Byte)}, Sound sha root tree strings →
      ∀ r ∈ (buildHashes sha root tree).sorted.map fun package ↦
        (utf8 (relStr package.1), package.2), 0 ∉ r.1 ∧ r.2.length = 64 := by
    intro tree h r hr
    obtain ⟨package, hpackage, rfl⟩ := List.mem_map.1 hr
    rw [BuildHashes.sorted, List.mem_mergeSort, packages_buildHashes, List.mem_map] at hpackage
    obtain ⟨dir, hdir, rfl⟩ := hpackage
    exact ⟨zero_not_mem_relStr (h.named_dir hdir), by simp [length_hex]⟩
  have hmap := Marks.flatMap_record_inj (hrecord h) (hrecord h') hrest
  have hmem : (utf8 (relStr package.1), package.2) ∈ (buildHashes sha root tree').sorted.map
      fun package ↦ (utf8 (relStr package.1), package.2) := by
    rw [← hmap]
    exact List.mem_map.2 ⟨package, List.mem_mergeSort.2 hpackage, rfl⟩
  obtain ⟨package', hpackage', hsame⟩ := List.mem_map.1 hmem
  have hpackage' := List.mem_mergeSort.1 hpackage'
  obtain ⟨hname, hhash⟩ := Prod.mk.inj hsame
  have hnamed : ∀ {tree : Tree (List Byte)} {package : Path × List Byte},
      Sound sha root tree strings → package ∈ (buildHashes sha root tree).packages →
        Named package.1 := by
    intro tree package h hpackage
    rw [packages_buildHashes, List.mem_map] at hpackage
    obtain ⟨dir, hdir, rfl⟩ := hpackage
    exact h.named_dir hdir
  have hdir := relStr_inj (hnamed h' hpackage') (hnamed h hpackage) (utf8_inj hname)
  rwa [← Prod.ext hdir hhash]

end Sound

end

/-- The hashes depend on the hashed files only. -/
theorem buildHashes_congr
    (h : hashedFiles root tree = hashedFiles root tree') :
    buildHashes sha root tree = buildHashes sha root tree' := by
  have hinputs : computeBuildInputs root tree = computeBuildInputs root tree' := by
    rw [computeBuildInputs, computeBuildInputs, h]
  rw [buildHashes, buildHashes, hinputs]

/-- With the same packages, the ones that changed are those whose files have another hash. -/
theorem mem_changedPackages {dir : Path}
    (hdirs : (computeBuildInputs root tree).dirs = (computeBuildInputs root tree').dirs) :
    dir ∈ (buildHashes sha root tree).changedPackages (buildHashes sha root tree') ↔
      dir ∈ (computeBuildInputs root tree).dirs ∧
        hex (sha (feed sha (packageFiles (hashedFiles root tree) dir))).toList ≠
          hex (sha (feed sha (packageFiles (hashedFiles root tree') dir))).toList := by
  have hkeys : ∀ tree : Tree (List Byte), (buildHashes sha root tree).packages.map Prod.fst =
      (computeBuildInputs root tree).dirs := fun tree ↦ by
    rw [packages_buildHashes, List.map_map]
    exact List.map_id _
  have hnone : ((buildHashes sha root tree').packages.map Prod.fst).filter
      (fun dir ↦ dir ∉ (buildHashes sha root tree).packages.map Prod.fst) = [] := by
    rw [hkeys, hkeys, hdirs, List.filter_eq_nil_iff]
    simp
  rw [BuildHashes.changedPackages, hnone, List.append_nil, @packages_buildHashes sha root tree]
  simp only [List.mem_map, List.mem_filter, decide_eq_true_eq]
  constructor
  · rintro ⟨package, ⟨⟨d, hd, rfl⟩, hne⟩, rfl⟩
    rw [lookup_packages_buildHashes (hdirs ▸ hd)] at hne
    exact ⟨hd, fun heq ↦ hne (congrArg some heq.symm)⟩
  · rintro ⟨hd, hne⟩
    refine ⟨_, ⟨⟨dir, hd, rfl⟩, ?_⟩, rfl⟩
    rw [lookup_packages_buildHashes (hdirs ▸ hd)]
    exact fun heq ↦ hne (Option.some.inj heq).symm

/-- **Two trees have one fingerprint exactly when their hashed files are the same; and with the same
global inputs, the packages that changed are the owners of the hashed files that did.** -/
theorem fingerprint_exact (sha : Hash) (root : Path) (tree tree' : Tree (List Byte))
    (h : WellFormed tree) (h' : WellFormed tree')
    (hinj : {s | s ∈ hashed sha root tree ∨ s ∈ hashed sha root tree'}.InjOn sha) :
    ((buildHashes sha root tree).fingerprint sha = (buildHashes sha root tree').fingerprint sha ↔
      ∀ p, isHashed root p = true → tree.lookup p = tree'.lookup p) ∧
    ((buildHashes sha root tree).global = (buildHashes sha root tree').global →
      ∀ dir, dir ∈ (buildHashes sha root tree).changedPackages (buildHashes sha root tree') ↔
        ∃ p, isHashed root p = true ∧ tree.lookup p ≠ tree'.lookup p ∧ Owns root tree dir p) := by
  have hs : Sound sha root tree _ := ⟨h, hinj, fun s ↦ .inl⟩
  have hs' : Sound sha root tree' _ := ⟨h', hinj, fun s ↦ .inr⟩
  have hmem := packageOf_mem_dirs root tree
  refine ⟨⟨fun heq p hp ↦ ?_, fun heq ↦ ?_⟩, fun hglobal dir ↦ ?_⟩
  · obtain ⟨hglobal, hpackages⟩ := hs.hashes_eq hs'
      (eq_of_hex_eq hinj hs.feed_fingerprint hs'.feed_fingerprint heq)
    have hglobal := hs.global_eq hs' hglobal
    have hdirs := dirs_eq_of_global hglobal
    refine lookup_of_packageFiles hp hglobal ?_
    refine hs.packageFiles_eq hs' (hmem p) (hdirs ▸ hmem p) ?_
    -- the hash of the package is also there for the other tree
    have hpackage := hpackages (packageOf (computeBuildInputs root tree).dirs p, _)
      (by rw [packages_buildHashes]; exact List.mem_map.2 ⟨_, hmem p, rfl⟩)
    rw [packages_buildHashes, List.mem_map] at hpackage
    obtain ⟨dir, -, hdir⟩ := hpackage
    obtain ⟨rfl, hhash⟩ := Prod.mk.inj hdir
    exact hhash.symm
  · rw [buildHashes_congr (h.hashedFiles_eq h' heq)]
  · have hglobal := hs.global_eq hs' hglobal
    have hdirs := dirs_eq_of_global hglobal
    rw [mem_changedPackages hdirs]
    constructor
    · rintro ⟨hdir, hne⟩
      by_contra! hsame
      refine hne (congrArg (fun files ↦ hex (sha (feed sha files)).toList) ?_)
      have hpackage : ∀ tree : Tree (List Byte), packageFiles (hashedFiles root tree) dir =
          tree.filter fun file ↦ decide (packageOf (computeBuildInputs root tree).dirs file.1 = dir)
            && isHashed root file.1 := fun tree ↦ by
        rw [packageFiles, hashedFiles, List.filter_filter, dirs_computeBuildInputs, hashedFiles]
      rw [hpackage, hpackage]
      refine h.filter_eq h' fun ⟨p, content⟩ ↦ ?_
      simp only [List.mem_filter, Bool.and_eq_true, decide_eq_true_eq, ← hdirs]
      refine and_congr_left fun ⟨howner, hp⟩ ↦ ?_
      have hlookup : tree.lookup p = tree'.lookup p := by
        by_contra hdiffer
        exact hsame p hp hdiffer (owns_iff.2 howner)
      rw [← h.lookup_eq_some, ← h'.lookup_eq_some, hlookup]
    · rintro ⟨p, hp, hdiffer, howns⟩
      obtain rfl := owns_iff.1 howns
      refine ⟨hmem p, fun heq ↦ hdiffer (lookup_of_packageFiles hp hglobal ?_)⟩
      exact hs.packageFiles_eq hs' (hmem p) (hdirs ▸ hmem p) heq

/-- Packages that are sorted stay as they are. -/
theorem BuildHashes.sorted_of_pairwise {inputs : BuildHashes}
    (h : inputs.packages.Pairwise fun a b ↦ relStr a.1 ≤ relStr b.1) :
    inputs.sorted = inputs.packages :=
  List.mergeSort_of_pairwise (h.imp decide_eq_true)

/-- A workspace with a package in a directory of its own. -/
def shelf (lib : String) : Tree (List Byte) :=
  [(["inner", "Cargo.toml"], utf8 "[package]"), (["inner", "lib.rs"], utf8 lib),
    (["main.rs"], utf8 "fn main() {}")]

/-- SHA-256 of the strings that the fingerprints of two such trees are made of. -/
def shelfDigests : List (List Byte × Vector Byte 32) :=
  let manifest : Vector Byte 32 :=
    #v[112, 172, 240, 5, 134, 170, 123, 144, 195, 134, 98, 120, 80, 91, 231, 184, 31, 183, 238,
      31, 126, 33, 193, 124, 26, 34, 172, 35, 155, 227, 199, 42]
  let main : Vector Byte 32 :=
    #v[239, 50, 99, 124, 185, 195, 236, 46, 57, 104, 201, 203, 223, 38, 165, 233, 193, 114, 190,
      148, 248, 138, 245, 51, 225, 75, 212, 63, 137, 45, 82, 151]
  let lib : Vector Byte 32 :=
    #v[254, 5, 181, 238, 248, 205, 10, 237, 125, 119, 197, 124, 201, 66, 75, 127, 100, 52, 20,
      57, 114, 252, 167, 202, 2, 223, 105, 235, 243, 18, 44, 56]
  let edited : Vector Byte 32 :=
    #v[81, 104, 197, 79, 106, 50, 125, 42, 129, 150, 155, 42, 249, 60, 205, 110, 142, 172, 2,
      159, 170, 148, 74, 3, 245, 230, 132, 222, 21, 110, 116, 109]
  let global : Vector Byte 32 :=
    #v[106, 224, 27, 53, 177, 96, 13, 249, 183, 135, 140, 207, 153, 251, 82, 154, 81, 155, 3, 14,
      53, 142, 120, 135, 224, 237, 58, 200, 212, 124, 44, 12]
  let root : Vector Byte 32 :=
    #v[32, 224, 38, 17, 3, 212, 204, 77, 130, 251, 146, 108, 15, 111, 151, 75, 255, 216, 89, 33,
      78, 209, 111, 106, 124, 40, 124, 196, 34, 163, 75, 240]
  let inner : Vector Byte 32 :=
    #v[79, 230, 201, 66, 251, 131, 74, 216, 213, 125, 175, 16, 96, 144, 249, 71, 53, 100, 240, 7,
      217, 245, 201, 52, 254, 110, 144, 38, 97, 141, 132, 179]
  let innerEdited : Vector Byte 32 :=
    #v[215, 17, 223, 126, 30, 146, 127, 16, 12, 234, 236, 121, 113, 9, 119, 38, 166, 194, 196,
      228, 253, 200, 67, 182, 24, 103, 244, 47, 46, 241, 129, 15]
  let whole : Vector Byte 32 :=
    #v[107, 91, 224, 7, 214, 191, 162, 164, 127, 151, 72, 202, 173, 148, 125, 78, 47, 41, 255, 7,
      107, 2, 233, 82, 72, 59, 187, 7, 234, 189, 158, 219]
  let wholeEdited : Vector Byte 32 :=
    #v[27, 82, 183, 113, 46, 82, 139, 196, 183, 219, 37, 77, 230, 156, 48, 154, 116, 79, 161, 16,
      195, 104, 131, 157, 8, 76, 92, 162, 137, 148, 248, 36]
  [(utf8 "[package]", manifest), (utf8 "fn main() {}", main), (utf8 "fn a() {}", lib),
    (utf8 "fn b() {}", edited),
    (Marks.record 0 (utf8 "inner/Cargo.toml", manifest.toList), global),
    (Marks.record 0 (utf8 "main.rs", main.toList), root),
    (Marks.record 0 (utf8 "inner/Cargo.toml", manifest.toList) ++
      Marks.record 0 (utf8 "inner/lib.rs", lib.toList), inner),
    (Marks.record 0 (utf8 "inner/Cargo.toml", manifest.toList) ++
      Marks.record 0 (utf8 "inner/lib.rs", edited.toList), innerEdited),
    (Marks.record 0 (utf8 "global", hex global.toList) ++ (Marks.record 0 ([], hex root.toList) ++
      Marks.record 0 (utf8 "inner", hex inner.toList)), whole),
    (Marks.record 0 (utf8 "global", hex global.toList) ++ (Marks.record 0 ([], hex root.toList) ++
      Marks.record 0 (utf8 "inner", hex innerEdited.toList)), wholeEdited)]

/-- SHA-256, as far as the two trees need it. -/
def shelfSha : Hash := fun s ↦ (shelfDigests.lookup s).getD (.replicate 32 0)

/-- What the two trees hash is in the table. -/
theorem mem_digests_of_hashed {lib : String} (hlib : lib = "fn a() {}" ∨ lib = "fn b() {}")
    {s : List Byte} (hs : s ∈ hashed shelfSha ["repo"] (shelf lib)) :
    s ∈ shelfDigests.map Prod.fst := by
  rw [hashed, BuildHashes.feed, BuildHashes.sorted_of_pairwise] at hs
  · revert s
    rcases hlib with rfl | rfl <;> decide +kernel
  · rcases hlib with rfl | rfl <;> decide +kernel

/-- The tree of the package is well formed. -/
theorem wellFormed_shelf (lib : String) : WellFormed (shelf lib) where
  ne_nil := by simp [shelf]
  named := by
    have hnamed : ∀ rel ∈ [["inner", "Cargo.toml"], ["inner", "lib.rs"], ["main.rs"]],
        ∀ c ∈ rel, c ≠ "" ∧ '/' ∉ c.toList ∧ Char.ofNat 0 ∉ c.toList := by
      decide +kernel
    exact fun file hfile ↦ hnamed _ (List.mem_map_of_mem (f := Prod.fst) hfile)
  sorted := by
    have hsorted : [["inner", "Cargo.toml"], ["inner", "lib.rs"], ["main.rs"]].Pairwise
        fun a b ↦ relStr a < relStr b := by
      decide +kernel
    exact (List.pairwise_map (f := Prod.fst) (R := fun a b ↦ relStr a < relStr b)).1 hsorted

/-- The library of the package is edited. -/
theorem fingerprint_exact_edited :
    (buildHashes shelfSha ["repo"] (shelf "fn a() {}")).fingerprint shelfSha ≠
        (buildHashes shelfSha ["repo"] (shelf "fn b() {}")).fingerprint shelfSha ∧
      ["inner"] ∈ (buildHashes shelfSha ["repo"] (shelf "fn a() {}")).changedPackages
        (buildHashes shelfSha ["repo"] (shelf "fn b() {}")) ∧
      [] ∉ (buildHashes shelfSha ["repo"] (shelf "fn a() {}")).changedPackages
        (buildHashes shelfSha ["repo"] (shelf "fn b() {}")) := by
  have hinj : {s | s ∈ hashed shelfSha ["repo"] (shelf "fn a() {}") ∨
      s ∈ hashed shelfSha ["repo"] (shelf "fn b() {}")}.InjOn shelfSha := by
    have hdigests : ∀ s ∈ shelfDigests.map Prod.fst, ∀ t ∈ shelfDigests.map Prod.fst,
        shelfSha s = shelfSha t → s = t := by
      decide +kernel
    have hmem : ∀ s, (s ∈ hashed shelfSha ["repo"] (shelf "fn a() {}") ∨
        s ∈ hashed shelfSha ["repo"] (shelf "fn b() {}")) → s ∈ shelfDigests.map Prod.fst := by
      rintro s (hs | hs)
      · exact mem_digests_of_hashed (.inl rfl) hs
      · exact mem_digests_of_hashed (.inr rfl) hs
    exact fun s hs t ht ↦ hdigests s (hmem s hs) t (hmem t ht)
  obtain ⟨hsame, hchanged⟩ := fingerprint_exact shelfSha ["repo"] (shelf "fn a() {}")
    (shelf "fn b() {}") (wellFormed_shelf _) (wellFormed_shelf _) hinj
  have hglobal : (buildHashes shelfSha ["repo"] (shelf "fn a() {}")).global =
      (buildHashes shelfSha ["repo"] (shelf "fn b() {}")).global := by
    decide +kernel
  refine ⟨fun heq ↦ ?_, (hchanged hglobal _).2 ⟨["inner", "lib.rs"], ?_, ?_, ?_⟩, fun h ↦ ?_⟩
  · exact absurd (hsame.1 heq ["inner", "lib.rs"] (by decide +kernel)) (by decide +kernel)
  · decide +kernel
  · decide +kernel
  · exact owns_iff.2 (by decide +kernel)
  · obtain ⟨p, -, hne, howns⟩ := (hchanged hglobal _).1 h
    have hp : p = ["inner", "lib.rs"] := by
      by_contra hp
      refine hne ?_
      simp only [shelf, List.lookup_cons, beq_eq_false_iff_ne.2 hp]
    rw [hp] at howns
    exact absurd (owns_iff.1 howns) (by decide +kernel)

end RustCodeMcp.Graph
