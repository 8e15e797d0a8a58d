import Mathlib.Data.List.TakeWhile
import Mathlib.Logic.Function.Basic
import RustCodeMcp.Embeddings.VramBudget
import RustCodeMcp.Machine.Runs

/-!
# The price file of a profile

What a GPU session costs is written down for the next process: the largest price so far, by a read,
a comparison, a temporary file and a rename. Nothing holds them together. The temporary file is
named by the process, so two threads of a process write into one file; and between the comparison
and the rename another process may have written a larger price, which is then replaced by the
smaller one (`smaller_price_wins`).

In a run in which neither happens the file always holds a number, which never goes down, and at the
end it is at least what any call set out to write (`price_of_runs`).

**What a rename puts in place is what the temporary file holds then**, not what its thread has
written; and an open file is written from its start, over what another thread may have put there. So
the two threads of one process are dangerous through the file, and those of two processes through
the time between reading the price and replacing it. `Careful` excludes both, one step at a time: no
thread makes the temporary file while another of its process is at it, and none renames over a
larger price that was put in place since it read the file.

Crashes need no special treatment: a thread that never takes its next step has stopped wherever it
is, and the temporary file it leaves is emptied by the next one of the same name.
-/

namespace RustCodeMcp.PriceFile

/-! ### Files -/

/-- The price file of a profile and the temporary file of each process beside it. A file is apart
from its name, since it may be renamed while it is written. -/
structure Files (P : Type) where
  contents : ℕ → List Char
  fresh : ℕ
  tmp : P → Option ℕ
  price : Option ℕ

namespace Files

variable {P : Type} [DecidableEq P]

/-- A file has other content. -/
def setContents (files : Files P) (i : ℕ) (text : List Char) : Files P :=
  { files with contents := Function.update files.contents i text }

/-- A new empty file under the temporary name. -/
def make (files : Files P) (p : P) : Files P :=
  { files with
    contents := Function.update files.contents files.fresh []
    fresh := files.fresh + 1
    tmp := Function.update files.tmp p (some files.fresh) }

/-- What `fs::write` begins with: the file is made empty, or made. -/
def create (files : Files P) (p : P) : Files P × ℕ :=
  match files.tmp p with
  | some i => (files.setContents i [], i)
  | none => (files.make p, files.fresh)

/-- Bytes written from the start of an open file. -/
def write (files : Files P) (i : ℕ) (bytes : List Char) : Files P :=
  files.setContents i (bytes ++ (files.contents i).drop bytes.length)

/-- `fs::rename` of the temporary file; it fails where there is none. -/
def rename (files : Files P) (p : P) : Option (Files P) :=
  (files.tmp p).map fun i ↦
    { files with tmp := Function.update files.tmp p none, price := some i }

/-- `fs::remove_file`, whether there is a file or not. -/
def remove (files : Files P) (p : P) : Files P :=
  { files with tmp := Function.update files.tmp p none }

/-- The price that the file holds, if it holds one. -/
def rememberedPrice (files : Files P) : Option UInt64 :=
  files.price.bind fun i ↦ parseU64 (trimmed (String.ofList (files.contents i)))

end Files

/-! ### Calls -/

/-- What the first run of a session is priced at: its charge, and the whole process if it is the
only session. -/
def firstRunPrice (charge : Option ℤ) (process : Option UInt64) (onlySession : Bool) :
    Option UInt64 :=
  let price := match charge, process with
    | some charge, some process =>
      if onlySession then some (max charge ((process.toNat : ℤ).bmod (2 ^ 64))) else some charge
    | charge, _ => charge
  price.bind fun bytes ↦ if 0 ≤ bytes then some (UInt64.ofNat bytes.toNat) else none

/-- How far a thread is in `remember_price`. -/
inductive Phase
  | idle
  | reading (bytes : UInt64)
  | comparing (bytes : UInt64) (known : Option UInt64)
  | creating (bytes : UInt64)
  | writing (bytes : UInt64) (file : ℕ)
  | written (bytes : UInt64)
  | removing
  deriving DecidableEq

/-- The price that a thread is about to write. -/
def Phase.bytes? : Phase → Option UInt64
  | reading bytes | comparing bytes _ | creating bytes | writing bytes _ | written bytes =>
    some bytes
  | idle | removing => none

/-- The thread is between making the temporary file and renaming it. -/
def Phase.Busy : Phase → Prop
  | writing _ _ | written _ => True
  | _ => False

instance : DecidablePred Phase.Busy
  | .idle | .reading _ | .comparing _ _ | .creating _ | .removing => .isFalse not_false
  | .writing _ _ | .written _ => .isTrue trivial

/-- The files, and where each thread is; each process knows a price. -/
structure State (T P : Type) where
  phases : T → Phase
  /-- `max_charge_by_profile`, zero where there is no entry. -/
  ledger : P → UInt64
  files : Files P
  /-- What calls have set out to write, for the record. -/
  wanted : List UInt64
  /-- The prices renamed into place since a thread read the price file, for the record. -/
  since : T → List UInt64

/-- What a thread does next, with what it reads from the meters. -/
inductive Action
  | firstRunFinished (charge : Option ℤ) (process : Option UInt64) (onlySession : Bool)
  | observeAfterRun (process : Option UInt64) (live : ℕ)
  | read
  | compare
  | create
  | write
  | rename
  | remove

variable {T P : Type} [DecidableEq T]

/-- The ledger's part of a call: a price above the known one is kept, and is to be written. -/
def grow [DecidableEq P] (pidOf : T → P) (s : State T P) (t : T) (bytes : UInt64) : State T P :=
  if s.ledger (pidOf t) < bytes then
    { s with
      phases := Function.update s.phases t (.reading bytes)
      ledger := Function.update s.ledger (pidOf t) bytes
      wanted := bytes :: s.wanted }
  else s

/-- The bytes of a price. -/
def digits (bytes : UInt64) : List Char :=
  (toString bytes.toNat).toList

/-- The next step of a thread; none if it is not its turn. -/
def step [DecidableEq P] (pidOf : T → P) (s : State T P) : T × Action → Option (State T P)
  | (t, .firstRunFinished charge process onlySession) =>
    if s.phases t = .idle then
      match firstRunPrice charge process onlySession with
      | none => some s
      | some bytes => some (grow pidOf s t bytes)
    else none
  | (t, .observeAfterRun process live) =>
    if s.phases t = .idle then
      match process with
      | none => some s
      | some bytes => if live ≠ 1 then some s else some (grow pidOf s t bytes)
    else none
  | (t, .read) =>
    match s.phases t with
    | .reading bytes => some { s with
        phases := Function.update s.phases t (.comparing bytes s.files.rememberedPrice)
        since := Function.update s.since t [] }
    | _ => none
  | (t, .compare) =>
    match s.phases t with
    | .comparing bytes known => some { s with
        phases := Function.update s.phases t
          (if bytes = 0 ∨ known.any (bytes ≤ ·) then .idle else .creating bytes) }
    | _ => none
  | (t, .create) =>
    match s.phases t with
    | .creating bytes => some { s with
        phases := Function.update s.phases t (.writing bytes (s.files.create (pidOf t)).2)
        files := (s.files.create (pidOf t)).1 }
    | _ => none
  | (t, .write) =>
    match s.phases t with
    | .writing bytes file => some { s with
        phases := Function.update s.phases t (.written bytes)
        files := s.files.write file (digits bytes) }
    | _ => none
  | (t, .rename) =>
    match s.phases t with
    | .written bytes =>
      match s.files.rename (pidOf t) with
      | some files => some { s with
          phases := Function.update s.phases t .idle
          files
          since := fun u ↦ bytes :: s.since u }
      | none => some { s with phases := Function.update s.phases t .removing }
    | _ => none
  | (t, .remove) =>
    match s.phases t with
    | .removing => some { s with
        phases := Function.update s.phases t .idle
        files := s.files.remove (pidOf t) }
    | _ => none

/-- No price file yet, or one with some content. -/
def start (initial : Option (List Char)) : State T P where
  phases _ := .idle
  ledger _ := 0
  files := {
    contents _ := initial.getD []
    fresh := 1
    tmp _ := none
    price := initial.map fun _ ↦ 0 }
  wanted := []
  since _ := []

/-- The threads of processes at the price file of a profile. -/
def machine [DecidableEq P] (pidOf : T → P) (initial : Option (List Char)) :
    Machine (State T P) (T × Action) where
  start := start initial
  step := step pidOf

/-- The condition on a step: no thread makes the temporary file while another of its process is
between making and renaming it, and none renames after a larger price has been renamed into place
since it read the file. -/
def Careful (pidOf : T → P) (s : State T P) : T × Action → Prop
  | (t, .create) => ∀ u, pidOf u = pidOf t → ¬ (s.phases u).Busy
  | (t, .rename) => ∀ bytes ∈ (s.phases t).bytes?, ∀ other ∈ s.since t, other ≤ bytes
  | _ => True

/-! ### What files hold -/

theorem isWhiteSpace_of_isDigit {c : Char} (h : c.isDigit = true) : isWhiteSpace c = false := by
  have hbounds : 48 ≤ c.toNat ∧ c.toNat ≤ 57 := by
    rw [Char.isDigit, Bool.and_eq_true, decide_eq_true_iff, decide_eq_true_iff] at h
    exact ⟨UInt32.le_iff_toNat_le.1 h.1, UInt32.le_iff_toNat_le.1 h.2⟩
  obtain ⟨hle, hle'⟩ := hbounds
  rw [isWhiteSpace]
  simp only [Bool.or_eq_false_iff, Bool.and_eq_false_iff, decide_eq_false_iff_not,
    beq_eq_false_iff_ne]
  omega

theorem trimmed_of_forall {text : List Char} (h : ∀ c ∈ text, isWhiteSpace c = false) :
    trimmed (String.ofList text) = text := by
  have hdrop : ∀ {text : List Char}, (∀ c ∈ text, isWhiteSpace c = false) →
      text.dropWhile isWhiteSpace = text := fun h ↦
    List.dropWhile_eq_self_iff.2 fun _ ↦ Bool.eq_false_iff.1 (h _ (List.getElem_mem _))
  rw [trimmed, trim, String.toList_ofList, hdrop h, hdrop fun c hc ↦ h c (List.mem_reverse.1 hc),
    List.reverse_reverse]

theorem parseU64_digits (bytes : UInt64) :
    parseU64 (trimmed (String.ofList (digits bytes))) = some bytes := by
  have hspace : ∀ c ∈ digits bytes, isWhiteSpace c = false := by
    intro c hc
    rw [digits, toList_toString] at hc
    exact isWhiteSpace_of_isDigit (Nat.isDigit_of_mem_toDigits (by decide) (by decide) hc)
  rw [trimmed_of_forall hspace, digits, parseU64_toString]

namespace Files

variable {files files' : Files P} {p q : P} {i j : ℕ} {bytes bytes' : UInt64} {text : List Char}

/-- The price file holds at least so much. -/
def AtLeast (files : Files P) (bytes : UInt64) : Prop :=
  ∃ known ∈ files.rememberedPrice, bytes ≤ known

/-- The price file holds a price and is no temporary file, and no two temporary files are one. -/
structure WellFormed (files : Files P) : Prop where
  price_lt : ∀ i, files.price = some i → i < files.fresh
  price_ne : ∀ i, files.price = some i → ∀ p, files.tmp p ≠ some i
  parses : files.price.isSome → files.rememberedPrice.isSome
  tmp_lt : ∀ p i, files.tmp p = some i → i < files.fresh
  tmp_inj : ∀ p q i, files.tmp p = some i → files.tmp q = some i → p = q

theorem rememberedPrice_of_price (h : files.price = some i) :
    files.rememberedPrice = parseU64 (trimmed (String.ofList (files.contents i))) := by
  rw [rememberedPrice, h, Option.bind_some]

theorem rememberedPrice_eq (hprice : files'.price = files.price)
    (hcontents : ∀ i, files.price = some i → files'.contents i = files.contents i) :
    files'.rememberedPrice = files.rememberedPrice := by
  cases h : files.price with
  | none => rw [rememberedPrice, rememberedPrice, hprice, h, Option.bind_none, Option.bind_none]
  | some i =>
    rw [rememberedPrice_of_price h, rememberedPrice_of_price (hprice.trans h), hcontents i h]

/-- What one process does to its temporary file, seen from outside: the price is as it was, and so
are the other temporary files. -/
structure Frame (files files' : Files P) (p : P) : Prop where
  price : files'.rememberedPrice = files.rememberedPrice
  tmp : ∀ q, q ≠ p → files'.tmp q = files.tmp q
  contents : ∀ q, q ≠ p → ∀ i, files.tmp q = some i → files'.contents i = files.contents i

theorem Frame.atLeast (h : files.Frame files' p) (hle : files.AtLeast bytes) :
    files'.AtLeast bytes := by
  rwa [AtLeast, h.price]

theorem WellFormed.setContents (h : files.WellFormed) (hi : files.tmp p = some i)
    (text : List Char) :
    (files.setContents i text).WellFormed ∧ files.Frame (files.setContents i text) p := by
  have hprice : (files.setContents i text).rememberedPrice = files.rememberedPrice := by
    refine rememberedPrice_eq rfl fun j hj ↦ Function.update_of_ne ?_ ..
    rintro rfl
    exact h.price_ne j hj p hi
  refine ⟨⟨h.price_lt, h.price_ne, fun hsome ↦
    (congrArg Option.isSome hprice).trans (h.parses hsome), h.tmp_lt, h.tmp_inj⟩,
    hprice, fun q _ ↦ rfl, fun q hq j hj ↦ Function.update_of_ne ?_ ..⟩
  rintro rfl
  exact hq (h.tmp_inj q p j hj hi)

theorem WellFormed.write (h : files.WellFormed) (hi : files.tmp p = some i) (text : List Char) :
    (files.write i text).WellFormed ∧ files.Frame (files.write i text) p :=
  h.setContents hi _

theorem tmp_make [DecidableEq P] (h : (files.make p).tmp q = some i) :
    q = p ∧ i = files.fresh ∨ q ≠ p ∧ files.tmp q = some i := by
  have h : Function.update files.tmp p (some files.fresh) q = some i := h
  rw [Function.update_apply] at h
  split_ifs at h with hq
  · exact .inl ⟨hq, (Option.some.inj h).symm⟩
  · exact .inr ⟨hq, h⟩

theorem WellFormed.make [DecidableEq P] (h : files.WellFormed) (p : P) :
    (files.make p).WellFormed ∧ files.Frame (files.make p) p := by
  have hprice : (files.make p).rememberedPrice = files.rememberedPrice :=
    rememberedPrice_eq rfl fun i hi ↦ Function.update_of_ne (h.price_lt i hi).ne ..
  refine ⟨⟨fun i hi ↦ (h.price_lt i hi).trans (Nat.lt_succ_self _), fun i hi q hq ↦ ?_,
    fun hsome ↦ (congrArg Option.isSome hprice).trans (h.parses hsome), fun q i hi ↦ ?_,
    fun q r i hq hr ↦ ?_⟩,
    hprice, fun q hq ↦ Function.update_of_ne hq .., fun q _ i hi ↦
      Function.update_of_ne (h.tmp_lt q i hi).ne ..⟩
  · obtain ⟨-, rfl⟩ | ⟨-, hq⟩ := tmp_make hq
    · exact (h.price_lt _ hi).ne rfl
    · exact h.price_ne i hi q hq
  · obtain ⟨-, rfl⟩ | ⟨-, hq⟩ := tmp_make hi
    · exact Nat.lt_succ_self _
    · exact (h.tmp_lt q i hq).trans (Nat.lt_succ_self _)
  · obtain ⟨hqp, hqi⟩ | ⟨-, hq'⟩ := tmp_make hq <;> obtain ⟨hrp, hri⟩ | ⟨-, hr'⟩ := tmp_make hr
    · rw [hqp, hrp]
    · exact absurd (h.tmp_lt r i hr') (Nat.not_lt.2 hqi.ge)
    · exact absurd (h.tmp_lt q i hq') (Nat.not_lt.2 hri.ge)
    · exact h.tmp_inj q r i hq' hr'

/-- **Making the temporary file**: it is there and empty, and the rest is as it was. -/
theorem WellFormed.create [DecidableEq P] (h : files.WellFormed) (p : P) :
    (files.create p).1.WellFormed ∧ files.Frame (files.create p).1 p ∧
      (files.create p).1.tmp p = some (files.create p).2 ∧
      (files.create p).1.contents (files.create p).2 = [] := by
  unfold Files.create
  cases hp : files.tmp p with
  | some i =>
    obtain ⟨hwf, hframe⟩ := h.setContents hp []
    exact ⟨hwf, hframe, hp, Function.update_self ..⟩
  | none =>
    obtain ⟨hwf, hframe⟩ := h.make p
    exact ⟨hwf, hframe, Function.update_self .., Function.update_self ..⟩

/-- **Renaming the temporary file**: the price file holds what it held, and the other temporary
files are as they were. -/
theorem WellFormed.rename [DecidableEq P] (h : files.WellFormed) (hi : files.tmp p = some i)
    (htext : files.contents i = digits bytes) :
    ∃ files', files.rename p = some files' ∧ files'.WellFormed ∧
      files'.rememberedPrice = some bytes ∧ files'.contents = files.contents ∧
      ∀ q, q ≠ p → files'.tmp q = files.tmp q := by
  have hprice : parseU64 (trimmed (String.ofList (files.contents i))) = some bytes := by
    rw [htext, parseU64_digits]
  have htmp : ∀ q j, Function.update files.tmp p none q = some j →
      q ≠ p ∧ files.tmp q = some j := by
    intro q j hj
    rw [Function.update_apply] at hj
    split_ifs at hj with hq
    exact ⟨hq, hj⟩
  refine ⟨{ files with tmp := Function.update files.tmp p none, price := some i },
    by rw [Files.rename, hi, Option.map_some], ⟨?_, ?_, fun _ ↦ ?_, ?_, ?_⟩,
    (rememberedPrice_of_price rfl).trans hprice, rfl, fun q hq ↦ Function.update_of_ne hq ..⟩
  · rintro j ⟨⟩
    exact h.tmp_lt p i hi
  · rintro j ⟨⟩ q hq
    exact (htmp q i hq).1 (h.tmp_inj q p i (htmp q i hq).2 hi)
  · rw [rememberedPrice_of_price rfl, hprice, Option.isSome_some]
  · exact fun q j hj ↦ h.tmp_lt q j (htmp q j hj).2
  · exact fun q r j hq hr ↦ h.tmp_inj q r j (htmp q j hq).2 (htmp r j hr).2

end Files

/-! ### What holds in a careful run -/

/-- Each price in the file is below the one to be written, or was renamed into place since. -/
def Above (files : Files P) (since : List UInt64) (bytes : UInt64) : Prop :=
  ∀ price ∈ files.rememberedPrice, price < bytes ∨ price ∈ since

/-- What a thread relies on. -/
def Phase.Ok (files : Files P) (pid : P) (since : List UInt64) : Phase → Prop
  | idle => True
  | reading bytes => 0 < bytes
  | comparing bytes known => 0 < bytes ∧ (∀ price ∈ known, files.AtLeast price) ∧
      ∀ price ∈ files.rememberedPrice, price ∈ known ∨ price ∈ since
  | creating bytes => Above files since bytes
  | writing bytes i => Above files since bytes ∧ files.tmp pid = some i ∧ files.contents i = []
  | written bytes => Above files since bytes ∧
      ∃ i, files.tmp pid = some i ∧ files.contents i = digits bytes
  | removing => False

/-- The files are in order, and each thread can rely on what it relies on. -/
structure Inv (pidOf : T → P) (s : State T P) : Prop where
  files : s.files.WellFormed
  ok : ∀ t, (s.phases t).Ok s.files (pidOf t) (s.since t)
  alone : ∀ t u, pidOf t = pidOf u → (s.phases t).Busy → (s.phases u).Busy → t = u
  wanted : ∀ bytes ∈ s.wanted, (∃ t, (s.phases t).bytes? = some bytes) ∨ s.files.AtLeast bytes

/-- What the others rely on stays when prices only rise, and their temporary files are as they
were. -/
theorem Phase.Ok.mono {files files' : Files P} {pid : P} {since since' : List UInt64}
    {phase : Phase} (h : phase.Ok files pid since)
    (hprice : ∀ price ∈ files'.rememberedPrice, price ∈ files.rememberedPrice ∨ price ∈ since')
    (hsince : ∀ price ∈ since, price ∈ since')
    (hleast : ∀ price, files.AtLeast price → files'.AtLeast price)
    (htmp : phase.Busy → files'.tmp pid = files.tmp pid ∧
      ∀ i, files.tmp pid = some i → files'.contents i = files.contents i) :
    phase.Ok files' pid since' := by
  have habove : ∀ {bytes}, Above files since bytes → Above files' since' bytes := by
    intro bytes habove price hmem
    obtain hmem | hmem := hprice price hmem
    · exact (habove price hmem).imp_right (hsince price)
    · exact .inr hmem
  cases phase with
  | idle => trivial
  | reading bytes => exact h
  | comparing bytes known =>
    obtain ⟨hpos, hknown, hmem⟩ := h
    refine ⟨hpos, fun price hprice ↦ hleast price (hknown price hprice), fun price hp ↦ ?_⟩
    obtain hp | hp := hprice price hp
    · exact (hmem price hp).imp_right (hsince price)
    · exact .inr hp
  | creating bytes => exact habove h
  | writing bytes i =>
    obtain ⟨h, htmp', hcontents⟩ := h
    obtain ⟨heq, hsame⟩ := htmp trivial
    exact ⟨habove h, heq.trans htmp', (hsame i htmp').trans hcontents⟩
  | written bytes =>
    obtain ⟨h, i, htmp', hcontents⟩ := h
    obtain ⟨heq, hsame⟩ := htmp trivial
    exact ⟨habove h, i, heq.trans htmp', (hsame i htmp').trans hcontents⟩
  | removing => exact h.elim

variable {pidOf : T → P} {s s' : State T P} {t : T} {bytes : UInt64} {since' : T → List UInt64}

/-- What a thread does: it has to see to its own part, to what the others rely on, and to the price
that it was to write. -/
theorem Inv.act (h : Inv pidOf s) {phase : Phase} {files' : Files P}
    (hfiles : files'.WellFormed) (hok : phase.Ok files' (pidOf t) (since' t))
    (hothers : ∀ u, u ≠ t → (s.phases u).Ok files' (pidOf u) (since' u))
    (halone : phase.Busy → ∀ u, u ≠ t → pidOf u = pidOf t → ¬ (s.phases u).Busy)
    (hleast : ∀ bytes, s.files.AtLeast bytes → files'.AtLeast bytes)
    (hbytes : ∀ bytes ∈ (s.phases t).bytes?, phase.bytes? = some bytes ∨ files'.AtLeast bytes) :
    Inv pidOf { s with
      phases := Function.update s.phases t phase, files := files', since := since' } := by
  refine ⟨hfiles, fun u ↦ ?_, fun u v huv hu hv ↦ ?_, fun bytes hmem ↦ ?_⟩
  · by_cases hu : u = t
    · subst hu
      simpa only [Function.update_self] using hok
    · simpa only [Function.update_of_ne hu] using hothers u hu
  · simp only [Function.update_apply] at hu hv
    by_contra hne
    split_ifs at hu hv with hut hvt hvt
    · exact hne (hut.trans hvt.symm)
    · exact halone hu v hvt (huv ▸ hut ▸ rfl) hv
    · exact halone hv u hut (huv.trans (hvt ▸ rfl)) hu
    · exact hne (h.alone u v huv hu hv)
  · obtain ⟨u, hu⟩ | hle := h.wanted bytes hmem
    · by_cases hut : u = t
      · subst hut
        refine (hbytes bytes hu).imp_left fun hphase ↦ ⟨u, ?_⟩
        simpa only [Function.update_self] using hphase
      · exact .inl ⟨u, by simpa only [Function.update_of_ne hut] using hu⟩
    · exact .inr (hleast bytes hle)

/-- A step that changes no file but the temporary one of its process. -/
theorem Inv.act_frame (h : Inv pidOf s) {phase : Phase} {files' : Files P}
    (hframe : s.files.Frame files' (pidOf t))
    (hfiles : files'.WellFormed) (hok : phase.Ok files' (pidOf t) (since' t))
    (hsince : ∀ u, u ≠ t → since' u = s.since u)
    (hothers : ∀ u, u ≠ t → pidOf u = pidOf t → ¬ (s.phases u).Busy)
    (hbytes : ∀ bytes ∈ (s.phases t).bytes?, phase.bytes? = some bytes ∨ files'.AtLeast bytes) :
    Inv pidOf { s with
      phases := Function.update s.phases t phase, files := files', since := since' } := by
  refine h.act hfiles hok (fun u hu ↦ ?_) (fun _ ↦ hothers) (fun _ ↦ hframe.atLeast) hbytes
  refine (h.ok u).mono (fun price hprice ↦ .inl (hframe.price ▸ hprice))
    (fun price hprice ↦ (hsince u hu).symm ▸ hprice) (fun _ ↦ hframe.atLeast) fun hbusy ↦ ?_
  have hne : pidOf u ≠ pidOf t := fun heq ↦ hothers u hu heq hbusy
  exact ⟨hframe.tmp _ hne, hframe.contents _ hne⟩

/-- A step that changes no file. -/
theorem Inv.act_quiet (h : Inv pidOf s) {phase : Phase}
    (hok : phase.Ok s.files (pidOf t) (since' t)) (hbusy : ¬ phase.Busy)
    (hsince : ∀ u, u ≠ t → since' u = s.since u)
    (hbytes : ∀ bytes ∈ (s.phases t).bytes?, phase.bytes? = some bytes ∨ s.files.AtLeast bytes) :
    Inv pidOf { s with phases := Function.update s.phases t phase, since := since' } := by
  refine h.act h.files hok (fun u hu ↦ ?_) (fun hphase ↦ absurd hphase hbusy) (fun _ ↦ id) hbytes
  rw [hsince u hu]
  exact h.ok u

theorem files_grow [DecidableEq P] (pidOf : T → P) (s : State T P) (t : T) (bytes : UInt64) :
    (grow pidOf s t bytes).files = s.files := by
  unfold PriceFile.grow
  split_ifs <;> rfl

theorem Inv.grow [DecidableEq P] (h : Inv pidOf s) (ht : s.phases t = .idle) :
    Inv pidOf (grow pidOf s t bytes) := by
  unfold PriceFile.grow
  split_ifs with hlt
  · have hpos : 0 < bytes := UInt64.lt_of_le_of_lt (UInt64.zero_le ..) hlt
    have hact : Inv pidOf { s with phases := Function.update s.phases t (.reading bytes) } :=
      h.act_quiet hpos not_false (fun _ _ ↦ rfl) (by simp [ht, Phase.bytes?])
    refine ⟨hact.files, hact.ok, hact.alone, fun price hprice ↦ ?_⟩
    obtain rfl | hprice := List.mem_cons.1 hprice
    · exact .inl ⟨t, by simp [Phase.bytes?]⟩
    · exact hact.wanted price hprice
  · exact h

theorem Inv.read (h : Inv pidOf s) (ht : s.phases t = .reading bytes) :
    Inv pidOf { s with
      phases := Function.update s.phases t (.comparing bytes s.files.rememberedPrice)
      since := Function.update s.since t [] } := by
  have hok := h.ok t
  rw [ht] at hok
  refine h.act_quiet ⟨hok, fun price hprice ↦ ⟨price, hprice, UInt64.le_refl _⟩,
    fun price hprice ↦ .inl hprice⟩ not_false (fun u hu ↦ Function.update_of_ne hu ..) ?_
  rw [ht]
  exact fun bytes hbytes ↦ .inl hbytes

/-- A price that is not written is no larger than the one in the file. -/
theorem Inv.compare (h : Inv pidOf s) {known : Option UInt64}
    (ht : s.phases t = .comparing bytes known) :
    Inv pidOf { s with
      phases := Function.update s.phases t
        (if bytes = 0 ∨ known.any (bytes ≤ ·) then .idle else .creating bytes) } := by
  have hok := h.ok t
  rw [ht] at hok
  obtain ⟨hpos, hknown, hmem⟩ := hok
  split_ifs with hle
  · refine h.act_quiet trivial not_false (fun _ _ ↦ rfl) ?_
    rw [ht]
    rintro _ ⟨⟩
    obtain rfl | hle := hle
    · exact absurd hpos (UInt64.lt_irrefl _)
    · obtain ⟨price, hprice, hle⟩ := (Option.any_eq_true ..).1 hle
      obtain ⟨now, hnow, hle'⟩ := hknown price hprice
      exact .inr ⟨now, hnow, UInt64.le_trans (of_decide_eq_true hle) hle'⟩
  · refine h.act_quiet (fun price hprice ↦ (hmem price hprice).imp_left fun hprice ↦ ?_) not_false
      (fun _ _ ↦ rfl) ?_
    · exact UInt64.not_le.1 fun hprice' ↦ hle (.inr ((Option.any_eq_true ..).2
        ⟨price, hprice, decide_eq_true hprice'⟩))
    · rw [ht]
      exact fun bytes hbytes ↦ .inl hbytes

/-- Making the temporary file keeps it, if no other thread of the process is at one. -/
theorem Inv.create [DecidableEq P] (h : Inv pidOf s) (ht : s.phases t = .creating bytes)
    (hcareful : ∀ u, pidOf u = pidOf t → ¬ (s.phases u).Busy) :
    Inv pidOf { s with
      phases := Function.update s.phases t (.writing bytes (s.files.create (pidOf t)).2)
      files := (s.files.create (pidOf t)).1 } := by
  obtain ⟨hfiles, hframe, htmp, hcontents⟩ := h.files.create (pidOf t)
  have hok := h.ok t
  rw [ht] at hok
  refine h.act_frame hframe hfiles ⟨?_, htmp, hcontents⟩ (fun _ _ ↦ rfl) (fun u _ ↦ hcareful u) ?_
  · rw [Above, hframe.price]
    exact hok
  · rw [ht]
    exact fun bytes hbytes ↦ .inl hbytes

/-- No other thread of the process is at the temporary file, so it is this thread's and empty. -/
theorem Inv.write (h : Inv pidOf s) {i : ℕ} (ht : s.phases t = .writing bytes i) :
    Inv pidOf { s with
      phases := Function.update s.phases t (.written bytes)
      files := s.files.write i (digits bytes) } := by
  have hok := h.ok t
  rw [ht] at hok
  obtain ⟨habove, htmp, hcontents⟩ := hok
  obtain ⟨hfiles, hframe⟩ := h.files.write htmp (digits bytes)
  -- Nothing of what another thread has written stands behind the digits.
  have htext : (s.files.write i (digits bytes)).contents i = digits bytes := by
    show Function.update s.files.contents i _ i = _
    rw [Function.update_self, hcontents, List.drop_nil, List.append_nil]
  refine h.act_frame hframe hfiles ⟨?_, i, htmp, htext⟩ (fun _ _ ↦ rfl)
    (fun u hu hpid hbusy ↦ ?_) ?_
  · rw [Above, hframe.price]
    exact habove
  · exact hu (h.alone u t hpid hbusy (ht ▸ trivial))
  · rw [ht]
    exact fun bytes hbytes ↦ .inl hbytes

/-- The price in the file is the one that was written, and no price that was there is above it. -/
theorem Inv.rename [DecidableEq P] (h : Inv pidOf s) (ht : s.phases t = .written bytes)
    (hcareful : ∀ other ∈ s.since t, other ≤ bytes) :
    ∃ files', s.files.rename (pidOf t) = some files' ∧
      Inv pidOf { s with
        phases := Function.update s.phases t .idle
        files := files'
        since := fun u ↦ bytes :: s.since u } ∧
      ∀ price, s.files.AtLeast price → files'.AtLeast price := by
  have hok := h.ok t
  rw [ht] at hok
  obtain ⟨habove, i, htmp, htext⟩ := hok
  obtain ⟨files', hrename, hfiles, hprice, hcontents, htmps⟩ := h.files.rename htmp htext
  have hleast : ∀ price, s.files.AtLeast price → files'.AtLeast price := by
    rintro price ⟨known, hknown, hle⟩
    refine ⟨bytes, hprice, UInt64.le_trans hle ?_⟩
    -- The price in the file is the one that was read, or another renamed it into place since.
    obtain hlt | hmem := habove known hknown
    · exact UInt64.le_of_lt hlt
    · exact hcareful known hmem
  refine ⟨files', hrename, h.act hfiles trivial (fun u hu ↦ ?_) not_false.elim hleast ?_, hleast⟩
  · refine (h.ok u).mono (fun price hmem ↦ ?_) (fun price ↦ List.mem_cons_of_mem bytes) hleast
      fun hbusy ↦ ?_
    · rw [hprice] at hmem
      exact .inr (Option.some.inj hmem ▸ List.mem_cons_self)
    · have hne : pidOf u ≠ pidOf t := fun hpid ↦ hu (h.alone u t hpid hbusy (ht ▸ trivial))
      exact ⟨htmps _ hne, fun i _ ↦ congrFun hcontents i⟩
  · rw [ht]
    rintro _ ⟨⟩
    exact .inr ⟨bytes, hprice, UInt64.le_refl _⟩

/-- **Every step that is careful keeps the invariant, and the price does not go down.** -/
theorem Inv.step [DecidableEq P] (h : Inv pidOf s) {a : T × Action} (hcareful : Careful pidOf s a)
    (hstep : step pidOf s a = some s') :
    Inv pidOf s' ∧ ∀ price, s.files.AtLeast price → s'.files.AtLeast price := by
  obtain ⟨t, action⟩ := a
  cases action <;> dsimp only [PriceFile.step] at hstep
  case firstRunFinished charge process onlySession =>
    split_ifs at hstep with ht
    split at hstep <;> obtain rfl := Option.some.inj hstep
    · exact ⟨h, fun _ ↦ id⟩
    · exact ⟨h.grow ht, fun _ ↦ (files_grow pidOf ..).symm ▸ id⟩
  case observeAfterRun process live =>
    cases process <;> dsimp only at hstep
    case none =>
      split_ifs at hstep
      obtain rfl := Option.some.inj hstep
      exact ⟨h, fun _ ↦ id⟩
    case some bytes =>
      split_ifs at hstep with ht hlive <;> obtain rfl := Option.some.inj hstep
      · exact ⟨h, fun _ ↦ id⟩
      · exact ⟨h.grow ht, fun _ ↦ (files_grow pidOf ..).symm ▸ id⟩
  case read =>
    split at hstep <;> [skip; exact nomatch hstep]
    obtain rfl := Option.some.inj hstep
    exact ⟨h.read ‹_›, fun _ ↦ id⟩
  case compare =>
    split at hstep <;> [skip; exact nomatch hstep]
    obtain rfl := Option.some.inj hstep
    exact ⟨h.compare ‹_›, fun _ ↦ id⟩
  case create =>
    split at hstep <;> [skip; exact nomatch hstep]
    obtain rfl := Option.some.inj hstep
    exact ⟨h.create ‹_› hcareful, fun _ ↦ (h.files.create (pidOf t)).2.1.atLeast⟩
  case write =>
    split at hstep <;> [rename_i bytes i ht; exact nomatch hstep]
    obtain rfl := Option.some.inj hstep
    have hok := h.ok t
    rw [ht] at hok
    exact ⟨h.write ht, fun _ ↦ (h.files.write hok.2.1 (digits bytes)).2.atLeast⟩
  case rename =>
    split at hstep <;> [rename_i bytes ht; exact nomatch hstep]
    have hle : ∀ other ∈ s.since t, other ≤ bytes := hcareful bytes (by rw [ht]; rfl)
    obtain ⟨files', hrename, hinv, hleast⟩ := h.rename ht hle
    rw [hrename] at hstep
    obtain rfl := Option.some.inj hstep
    exact ⟨hinv, hleast⟩
  case remove =>
    split at hstep <;> [rename_i ht; exact nomatch hstep]
    -- No thread comes here: its temporary file is there when it renames it.
    have hok := h.ok t
    rw [ht] at hok
    exact hok.elim

omit [DecidableEq T] in
theorem Inv.start {initial : Option (List Char)}
    (hinitial : ∀ text ∈ initial, (parseU64 (trimmed (String.ofList text))).isSome) :
    Inv pidOf (start initial) := by
  refine ⟨⟨?_, fun _ _ _ ↦ nofun, fun hsome ↦ ?_, fun _ _ ↦ nofun, fun _ _ _ ↦ nofun⟩,
    fun _ ↦ trivial, fun _ _ _ ↦ False.elim, fun _ ↦ nofun⟩
  · intro i hi
    obtain ⟨-, -, rfl⟩ := Option.map_eq_some_iff.1 hi
    exact Nat.zero_lt_one
  · cases initial with
    | none => exact nomatch hsome
    | some text =>
      rw [Files.rememberedPrice_of_price rfl]
      exact hinitial text rfl

/-- **The price file in a run of careful steps**: once it is there it holds a price, the price does
not go down, and when every call has returned it is at least what each set out to write. -/
theorem price_of_runs [DecidableEq P] {initial : Option (List Char)}
    (hinitial : ∀ text ∈ initial, (parseU64 (trimmed (String.ofList text))).isSome)
    (hs : (machine pidOf initial).Reachable (Careful pidOf) s) :
    (s.files.price.isSome → s.files.rememberedPrice.isSome) ∧
      (∀ is s', (machine pidOf initial).Runs (Careful pidOf) s is s' →
        ∀ price, s.files.AtLeast price → s'.files.AtLeast price) ∧
      ((∀ t, s.phases t = .idle) → ∀ bytes ∈ s.wanted, s.files.AtLeast bytes) := by
  have hinv : Inv pidOf s := hs.invariant (.start hinitial) fun _ _ _ hcareful hstep h ↦
    (h.step hcareful hstep).1
  refine ⟨hinv.files.parses, fun is s' hruns ↦ ?_, fun hidle bytes hbytes ↦ ?_⟩
  · have hrun : Inv pidOf s' ∧ ∀ price, s.files.AtLeast price → s'.files.AtLeast price := by
      refine hruns.invariant (P := fun s' ↦ Inv pidOf s' ∧
        ∀ price, s.files.AtLeast price → s'.files.AtLeast price) ⟨hinv, fun _ ↦ id⟩ ?_
      intro t a u hcareful hstep ht
      obtain ⟨hu, hle⟩ := ht.1.step hcareful hstep
      exact ⟨hu, fun price hprice ↦ hle price (ht.2 price hprice)⟩
    exact hrun.2
  · obtain ⟨t, ht⟩ | hle := hinv.wanted bytes hbytes
    · rw [hidle t] at ht
      exact nomatch ht
    · exact hle

instance [DecidableEq P] [Fintype T] (pidOf : T → P) (s : State T P) :
    DecidablePred (Careful pidOf s)
  | (t, .create) => inferInstanceAs (Decidable (∀ u, pidOf u = pidOf t → ¬ (s.phases u).Busy))
  | (t, .rename) => decidable_of_iff ((s.phases t).bytes?.all fun bytes ↦
      (s.since t).all fun other ↦ decide (other ≤ bytes)) (by simp [Careful, Option.all_eq_true])
  | (_, .firstRunFinished ..) | (_, .observeAfterRun ..) | (_, .read) | (_, .compare)
  | (_, .write) | (_, .remove) => .isTrue trivial

/-- Two processes raise the price in turn: the second reads before the first has written, and its
price is the larger one. -/
theorem price_of_runs_pair :
    ∃ s : State Bool Bool, s.files.rememberedPrice = some 20 ∧
      (s.files.price.isSome → s.files.rememberedPrice.isSome) ∧
      (∀ is s', (machine id (some ['7'])).Runs (Careful id) s is s' →
        ∀ price, s.files.AtLeast price → s'.files.AtLeast price) ∧
      ((∀ t, s.phases t = .idle) → ∀ bytes ∈ s.wanted, s.files.AtLeast bytes) := by
  have hrun := Option.some_get (by decide +kernel : ((machine id (some ['7'])).runIf
    (fun s a ↦ decide (Careful (T := Bool) id s a)) (start (some ['7']))
    [(false, .firstRunFinished (some 10) (some 9) true), (false, .read), (false, .compare),
      (true, .observeAfterRun (some 20) 1), (true, .read), (true, .compare), (false, .create),
      (true, .create), (false, .write), (false, .rename), (true, .write),
      (true, .rename)]).isSome = true)
  exact ⟨_, by decide +kernel, price_of_runs (by decide)
    ⟨_, Machine.runs_of_runIf (fun _ _ ↦ of_decide_eq_true) hrun.symm⟩⟩

/-- Two processes read, and the one with the smaller price is the last to rename: the price goes
down, and is below what the other had set out to write. Two threads of a process open the temporary
file one after the other, and the first renames it before the second has written: the price file is
there and does not parse. -/
theorem smaller_price_wins :
    (∃ s s' : State Bool Bool, (machine id none).Reachable Machine.Any s ∧
      s.files.rememberedPrice = some 20 ∧ step id s (true, .rename) = some s' ∧
      s'.files.rememberedPrice = some 10 ∧ (∀ t, s'.phases t = .idle) ∧ 20 ∈ s'.wanted) ∧
    ∃ s : State Bool Unit, (machine (fun _ ↦ ()) none).Reachable Machine.Any s ∧
      s.files.price.isSome ∧ s.files.rememberedPrice = none := by
  have hsmaller := Machine.reachable_get (by decide +kernel : ((machine id none).run
    (machine id none).start [(false, .observeAfterRun (some 20) 1),
      (true, .observeAfterRun (some 10) 1), (false, .read), (false, .compare), (true, .read),
      (true, .compare), (true, .create), (true, .write), (false, .create), (false, .write),
      (false, .rename)]).isSome = true)
  have hempty := Machine.reachable_get (by decide +kernel : ((machine (fun _ : Bool ↦ ()) none).run
    (machine (fun _ : Bool ↦ ()) none).start [(false, .observeAfterRun (some 10) 1),
      (true, .observeAfterRun (some 20) 1), (false, .read), (false, .compare), (true, .read),
      (true, .compare), (false, .create), (false, .write), (true, .create),
      (false, .rename)]).isSome = true)
  exact ⟨⟨_, _, hsmaller, by decide +kernel, (Option.some_get (by decide +kernel)).symm,
    by decide +kernel, by decide +kernel, by decide +kernel⟩,
    _, hempty, by decide +kernel, by decide +kernel⟩

end RustCodeMcp.PriceFile
