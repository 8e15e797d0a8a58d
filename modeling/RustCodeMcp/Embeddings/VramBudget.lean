import Mathlib.Data.List.Basic
import Mathlib.Data.UInt

/-!
# The VRAM budget

Before a GPU session is created, what the process holds and what such a session costs are compared
with a budget, and then with what is free on the card. All of it is in 64-bit words, so a budget in
MiB that does not fit in bytes is cut down to its low bits, and so is a sum that does not fit
(`admit_exact_iff`).

A comparison of words is one of the numbers they are cut from only if nothing was cut off, or if
both were cut alike; `SameInWords` says when that is, for any two numbers of which the first is
under twice 2^64, as a sum of two words is. **What is free on the card is compared too, and there no
sum is made**, so it has no part in this.

The texts that set a budget are read here as well: trimmed, in decimal, in MiB, and refused with the
code's own message if they are not a number.
-/

namespace RustCodeMcp

/-- Unicode's `White_Space`. -/
def isWhiteSpace (c : Char) : Bool :=
  let n := c.toNat
  (9 ≤ n && n ≤ 13) || n == 0x20 || n == 0x85 || n == 0xA0 || n == 0x1680 ||
    (0x2000 ≤ n && n ≤ 0x200A) ||
    n == 0x2028 || n == 0x2029 || n == 0x202F || n == 0x205F || n == 0x3000

/-- `str::trim` -/
def trim (text : List Char) : List Char :=
  ((text.dropWhile isWhiteSpace).reverse.dropWhile isWhiteSpace).reverse

/-- A text without what stands white around it. -/
def trimmed (text : String) : List Char := trim text.toList

/-- `str::parse::<u64>` -/
def parseU64 (text : List Char) : Option UInt64 :=
  let digits := match text with
    | '+' :: rest => rest
    | text => text
  if digits ≠ [] ∧ digits.all Char.isDigit then
    let n := digits.foldl (fun n c ↦ 10 * n + (c.toNat - '0'.toNat)) 0
    if n < 2 ^ 64 then some (UInt64.ofNat n) else none
  else none

theorem toList_toString (n : ℕ) : (toString n).toList = Nat.toDigits 10 n := by
  show (String.ofList (Nat.toDigits 10 n)).toList = _
  rw [String.toList_ofList]

theorem parseU64_toString (n : UInt64) : parseU64 (toString n.toNat).toList = some n := by
  rw [toList_toString]
  have hdigits : ∀ c ∈ Nat.toDigits 10 n.toNat, c.isDigit = true := fun c hc ↦
    Nat.isDigit_of_mem_toDigits (by decide) (by decide) hc
  have hfold : (Nat.toDigits 10 n.toNat).foldl (fun n c ↦ 10 * n + (c.toNat - '0'.toNat)) 0 =
      n.toNat := by
    rw [← Nat.ofDigitChars_eq_foldl, Nat.ofDigitChars_ten_toDigits]
  have hne : Nat.toDigits 10 n.toNat ≠ [] := Nat.toDigits_ne_nil
  generalize Nat.toDigits 10 n.toNat = text at hdigits hfold hne
  unfold parseU64
  dsimp only
  split
  · exact absurd (hdigits '+' List.mem_cons_self) (by decide)
  rw [hfold, if_pos ⟨hne, List.all_eq_true.2 hdigits⟩, if_pos n.toNat_lt, UInt64.ofNat_toNat]

/-- The variable that sets a budget. -/
def VRAM_BUDGET_ENV : String := "RMC_VRAM_BUDGET_MB"

/-- How much VRAM this process may hold before it refuses to create another session. -/
inductive VramBudget
  | disabled
  | explicit (bytes : UInt64)
  | halfCard (bytes : UInt64)
  /-- Nothing is set, and the card's size cannot be read. -/
  | noCardMeter
  deriving DecidableEq

namespace VramBudget

/-- The budget that is set, or half of the card. -/
def resolve (raw : Option String) (cardTotal : Option UInt64) : Except String VramBudget :=
  match raw.map trimmed with
  | some (c :: text) =>
    match parseU64 (c :: text) with
    | none => .error s!"{VRAM_BUDGET_ENV}={String.ofList (c :: text)} is not a number of MiB"
    | some mb => .ok (if mb = 0 then .disabled else .explicit (mb <<< 20))
  | _ =>
    match cardTotal with
    | some total => .ok (.halfCard (total / 2))
    | none => .ok .noCardMeter

/-- The budget in bytes, if there is one. -/
def bytes : VramBudget → Option UInt64
  | explicit bytes | halfCard bytes => some bytes
  | disabled | noCardMeter => none

/-- As it is printed. -/
def debug : VramBudget → String
  | disabled => "Disabled"
  | explicit bytes => s!"Explicit \x7b bytes: {bytes} \x7d"
  | halfCard bytes => s!"HalfCard \x7b bytes: {bytes} \x7d"
  | noCardMeter => "NoCardMeter"

/-- Bytes as MiB, for a message. -/
def mib (bytes : UInt64) : UInt64 :=
  bytes >>> 20

/-- Whether a session of the profile may be created now, given what the process holds and the last
measured price of such a session. -/
def admitBytes (budget : VramBudget) (profile : String) (process expected : Option UInt64) :
    Except String Unit :=
  match budget.bytes with
  | none => .ok ()
  | some bytes =>
    match process with
    | none =>
      match budget with
      | explicit _ =>
        .error s!"{VRAM_BUDGET_ENV} is set, but this process's VRAM cannot be read (no KFD meter)"
      | _ => .ok ()
    | some process =>
      let expected := expected.getD 0
      if process + expected ≤ bytes then .ok ()
      else .error
        (s!"GPU embedding session for `{profile}` refused: this process holds {mib process} MiB of " ++
        s!"VRAM, a session costs {mib expected} MiB, the budget is {mib bytes} MiB " ++
        s!"({VRAM_BUDGET_ENV}; {budget.debug})")

end VramBudget

/-- A card: what it has in all, and how much of it is used. -/
structure DeviceCard where
  pci : String
  totalBytes : UInt64
  usedBytes : UInt64

/-- What is free on the card. -/
def DeviceCard.freeBytes (card : DeviceCard) : UInt64 :=
  if card.usedBytes ≤ card.totalBytes then card.totalBytes - card.usedBytes else 0

/-- Whether a session fits on the card, as far as both are known. -/
def roomOnCard (profile : String) (card : Option DeviceCard) (price : Option UInt64) :
    Except String Unit :=
  match card, price with
  | some card, some price =>
    if card.freeBytes ≥ price then .ok ()
    else .error (s!"GPU embedding session for `{profile}` refused: the card {card.pci} has " ++
      s!"{VramBudget.mib card.freeBytes} MiB free ({VramBudget.mib card.usedBytes} of " ++
      s!"{VramBudget.mib card.totalBytes} MiB used, by every process on it), a session costs " ++
      s!"{VramBudget.mib price} MiB")
  | _, _ => .ok ()

/-- What the process finds when it wants a session. The ledger is whatever the process keeps of its
sessions. -/
structure GpuHost (Ledger Session : Type) where
  gpuLock : Except String Unit
  /-- The environment's value of the budget. -/
  raw : Option String
  cardTotal : Option UInt64
  process : Option UInt64
  knownSessionCharge : Ledger → String → Option UInt64
  deviceCard : Option DeviceCard
  /-- The session itself, and its first run, which the ledger records. -/
  newGpu : Ledger → Except String Session × Ledger

section

variable {Ledger Session : Type} (host : GpuHost Ledger Session)
    (profile : String) (ledger : Ledger)

/-- Whether a session may be created: by the budget, then by the card. -/
def admitSession : Except String Unit := do
  let budget ← VramBudget.resolve host.raw host.cardTotal
  let price := host.knownSessionCharge ledger profile
  budget.admitBytes profile host.process price
  roomOnCard profile host.deviceCard price

/-- A session is created if it may be, with the lock of the GPU in hand. -/
def createSession : Except String Session × Ledger :=
  match host.gpuLock with
  | .error e => (.error e, ledger)
  | .ok () =>
    match admitSession host profile ledger with
    | .error e => (.error e, ledger)
    | .ok () => host.newGpu ledger

end

/-! ### When words tell the truth -/

/-- Numbers compare as their low 64 bits do: both fit, or one that does not happens not to matter.
-/
def SameInWords (usage budget : ℕ) : Prop :=
  usage < 2 ^ 64 ∧ budget < 2 ^ 64 ∨ budget + 2 ^ 64 < usage ∨
    2 ^ 64 ≤ budget ∧ (budget < usage ∨ usage % 2 ^ 64 ≤ budget % 2 ^ 64)

/-- **Words compare as the numbers do exactly in these cases.** -/
theorem sameInWords_iff {usage budget : ℕ} (husage : usage < 2 * 2 ^ 64) :
    (usage % 2 ^ 64 ≤ budget % 2 ^ 64 ↔ usage ≤ budget) ↔ SameInWords usage budget := by
  unfold SameInWords
  omega

theorem toNat_shift (mb : UInt64) : (mb <<< 20).toNat = mb.toNat * 2 ^ 20 % 2 ^ 64 := by
  rw [UInt64.toNat_shiftLeft, Nat.shiftLeft_eq]
  rfl

theorem admit_ok_iff {budget process expected : UInt64} {profile : String} :
    (VramBudget.explicit budget).admitBytes profile (some process) (some expected) = .ok () ↔
      (process.toNat + expected.toNat) % 2 ^ 64 ≤ budget.toNat := by
  rw [← UInt64.toNat_add, ← UInt64.le_iff_toNat_le]
  unfold VramBudget.admitBytes
  dsimp only [VramBudget.bytes, Option.getD_some]
  split_ifs with h
  · exact iff_of_true rfl h
  · exact iff_of_false nofun h

/-- A number of MiB that is not zero is a budget. -/
theorem resolve_of_parse {text : String} {mb : UInt64} (cardTotal : Option UInt64)
    (h : parseU64 (trimmed text) = some mb) (hmb : mb ≠ 0) :
    VramBudget.resolve (some text) cardTotal = .ok (.explicit (mb <<< 20)) := by
  unfold VramBudget.resolve
  rw [Option.map_some]
  split
  next c rest htext =>
    rw [Option.some.inj htext] at h
    rw [h]
    dsimp only
    rw [if_neg hmb]
  next hother =>
    rcases htext : trimmed text with - | ⟨c, rest⟩
    · rw [htext] at h
      cases h
    · exact absurd (congrArg some htext) (hother c rest)

/-- **Admission compares as the natural numbers do exactly if the words do not hide it**, and
whoever is refused leaves the ledger alone. -/
theorem admit_exact_iff {text : String} {mb : UInt64}
    (h : parseU64 (trimmed text) = some mb) (hmb : mb ≠ 0)
    (cardTotal : Option UInt64) (profile : String) (process expected : UInt64) :
    ((∃ budget, VramBudget.resolve (some text) cardTotal = .ok budget ∧
        (budget.admitBytes profile (some process) (some expected) = .ok () ↔
          process.toNat + expected.toNat ≤ mb.toNat * 2 ^ 20)) ↔
      SameInWords (process.toNat + expected.toNat) (mb.toNat * 2 ^ 20)) ∧
    ∀ {Ledger Session : Type} (host : GpuHost Ledger Session) (ledger : Ledger) (e : String),
      admitSession host profile ledger = .error e →
      (createSession host profile ledger).2 = ledger := by
  constructor
  · have hsum : process.toNat + expected.toNat < 2 * 2 ^ 64 := by
      have hprocess := process.toNat_lt
      have hexpected := expected.toNat_lt
      omega
    rw [← sameInWords_iff hsum, ← toNat_shift, ← @admit_ok_iff _ _ _ profile]
    constructor
    · rintro ⟨budget, hbudget, hexact⟩
      obtain rfl := Except.ok.inj ((resolve_of_parse cardTotal h hmb).symm.trans hbudget)
      exact hexact
    · exact fun hexact ↦ ⟨_, resolve_of_parse cardTotal h hmb, hexact⟩
  · intro Ledger Session host ledger e hrefused
    unfold createSession
    rw [hrefused]
    split <;> rfl

/-- The first budget whose bytes do not fit: nothing is left of it, and everything is refused. -/
theorem budget_lost : ∃ budget, VramBudget.resolve (some "17592186044416") none = .ok budget ∧
    budget.admitBytes "local-gpu-bge" (some 0) (some 1) ≠ .ok () ∧
    0 + 1 ≤ 17592186044416 * 2 ^ 20 :=
  ⟨.explicit 0, by decide +kernel, by decide +kernel, by decide⟩

/-- A budget of 4 GiB. -/
theorem admit_exact_four_gib : ∃ budget, VramBudget.resolve (some " 4096 ") none = .ok budget ∧
    (budget.admitBytes "local-gpu-bge" (some 3000000000) (some 1500000000) = .ok () ↔
      3000000000 + 1500000000 ≤ 4096 * 2 ^ 20) :=
  (@admit_exact_iff _ 4096 (by decide +kernel)
    (by decide) none "local-gpu-bge" 3000000000 1500000000).1.2
    (.inl (by decide))

end RustCodeMcp
