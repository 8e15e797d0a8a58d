import Mathlib.Algebra.Order.Floor.Ring
import Mathlib.Data.List.TakeDrop
import Mathlib.Data.Rat.Floor
import Mathlib.Tactic.IntervalCases

/-!
# Decimal numerals

Numerals are read without bounds and without rounding: the value of a numeral is the number it
writes, an integer or a decimal fraction, with an exponent or without.

Two readings meet here, of integers and of decimal fractions, and both take numerals of any length:
what a fixed width would refuse or round is left to whoever uses them. Writing goes the other way
with one decimal, rounded half to even, which is what is read back when there was no more than one.
-/

namespace Numerals

/-- Digits, the most significant first. -/
structure Numeral where
  digits : List Char
  ne_nil : digits ≠ []
  isDigit : ∀ c ∈ digits, c.isDigit = true

/-- The number that digits write. -/
def value (digits : List Char) : ℕ :=
  Nat.ofDigitChars 10 digits 0

/-- The number that a numeral writes. -/
def Numeral.value (n : Numeral) : ℕ :=
  Numerals.value n.digits

/-- The numeral of a number, without zeros in front. -/
def ofNat (n : ℕ) : Numeral where
  digits := Nat.toDigits 10 n
  ne_nil := Nat.toDigits_ne_nil
  isDigit _ hc := Nat.isDigit_of_mem_toDigits (by decide) (by decide) hc

/-- A sign, if there is one, and the rest. -/
def sign : List Char → ℤ × List Char
  | '-' :: rest => (-1, rest)
  | '+' :: rest => (1, rest)
  | text => (1, text)

/-- Digits, at least one, and nothing else. -/
def parseNat (digits : List Char) : Option ℕ :=
  if digits ≠ [] ∧ digits.all Char.isDigit then some (value digits) else none

/-- Digits with or without a sign. -/
def parseInt (text : List Char) : Option ℤ :=
  let (sign, digits) := sign text
  (parseNat digits).map fun n : ℕ ↦ sign * (n : ℤ)

/-- An exponent, or none. -/
def parseExponent : List Char → Option ℤ
  | [] => some 0
  | c :: rest => if c = 'e' ∨ c = 'E' then parseInt rest else none

/-- The decimals after a point. -/
def spanFraction : List Char → List Char × List Char
  | '.' :: rest => rest.span Char.isDigit
  | rest => ([], rest)

/-- Digits before or after a point, with a sign and an exponent or without. -/
def parseDecimal (text : List Char) : Option ℚ := do
  let (sign, text) := sign text
  let (whole, rest) := text.span Char.isDigit
  let (fraction, rest) := spanFraction rest
  if whole ++ fraction = [] then none
  else
    let exponent ← parseExponent rest
    return sign * value (whole ++ fraction) * 10 ^ (exponent - fraction.length)

/-- To the nearest integer, and from the middle to the even one. -/
def roundHalfEven (q : ℚ) : ℤ :=
  let below := ⌊q⌋
  if q - below < 1 / 2 ∨ q - below = 1 / 2 ∧ below % 2 = 0 then below else below + 1

/-- With one decimal. -/
def oneDecimal (q : ℚ) : List Char :=
  let tenths := (roundHalfEven (10 * |q|)).toNat
  (if q < 0 then ['-'] else []) ++ Nat.toDigits 10 (tenths / 10) ++
    '.' :: Nat.toDigits 10 (tenths % 10)

/-- Zeros in front, up to a width. -/
def pad (width : ℕ) (text : List Char) : List Char :=
  text.leftpad width '0'

/-- A numeral with decimals, or without. -/
def withDecimals (whole fraction : List Char) : List Char :=
  whole ++ if fraction = [] then [] else '.' :: fraction

/-- The number that a numeral with decimals writes. -/
def valueWithDecimals (whole : Numeral) (fraction : List Char) : ℚ :=
  whole.value + value fraction / 10 ^ fraction.length

/-- Digits in front weigh more by a power of ten. -/
theorem value_append (whole fraction : List Char) :
    value (whole ++ fraction) = 10 ^ fraction.length * value whole + value fraction := by
  rw [value, Nat.ofDigitChars_append, Nat.ofDigitChars_eq_ofDigitChars_zero]
  rfl

/-- A digit writes its value. -/
theorem toDigits_digit {c : Char} (h : c.isDigit = true) :
    value [c] < 10 ∧ Nat.toDigits 10 (value [c]) = [c] := by
  have hbounds : 48 ≤ c.toNat ∧ c.toNat ≤ 57 := by
    rw [Char.isDigit, Bool.and_eq_true, decide_eq_true_iff, decide_eq_true_iff] at h
    exact ⟨UInt32.le_iff_toNat_le.1 h.1, UInt32.le_iff_toNat_le.1 h.2⟩
  have hchar : Char.ofNat c.toNat = c := Char.ofNat_toNat c
  obtain ⟨hle, hle'⟩ := hbounds
  have hvalue : value [c] = c.toNat - 48 := by
    simp [value, Nat.ofDigitChars_cons]
  rw [hvalue, ← hchar]
  generalize c.toNat = n at hle hle'
  interval_cases n <;> decide

theorem value_lt {digits : List Char} (h : ∀ c ∈ digits, c.isDigit = true) :
    value digits < 10 ^ digits.length := by
  induction digits with
  | nil => exact Nat.one_pos
  | cons c digits ih =>
    obtain ⟨hc, hdigits⟩ := List.forall_mem_cons.1 h
    have hlt := ih hdigits
    have hvalue := value_append [c] digits
    have hle : value [c] < 10 := (toDigits_digit hc).1
    rw [List.singleton_append] at hvalue
    rw [hvalue, List.length_cons, pow_succ]
    nlinarith

theorem value_ofNat (n : ℕ) : (ofNat n).value = n :=
  Nat.ofDigitChars_ten_toDigits

theorem Numeral.notMem (n : Numeral) {c : Char} (hc : c.isDigit = false) : c ∉ n.digits :=
  fun h ↦ Bool.false_ne_true (hc.symm.trans (n.isDigit c h))

theorem sign_digits_append (n : Numeral) (rest : List Char) :
    sign (n.digits ++ rest) = (1, n.digits ++ rest) := by
  obtain ⟨digits, hne, hdigit⟩ := n
  cases digits with
  | nil => exact absurd rfl hne
  | cons c digits =>
    show sign (c :: (digits ++ rest)) = _
    have hc := hdigit c List.mem_cons_self
    unfold sign
    split
    · next heq => cases heq; exact absurd hc (by decide)
    · next heq => cases heq; exact absurd hc (by decide)
    · rfl

theorem sign_digits (n : Numeral) : sign n.digits = (1, n.digits) := by
  have h := sign_digits_append n []
  rwa [List.append_nil] at h

/-- A numeral is read back. -/
theorem parseNat_digits (n : Numeral) : parseNat n.digits = some n.value :=
  if_pos ⟨n.ne_nil, List.all_eq_true.2 n.isDigit⟩

theorem parseInt_digits (n : Numeral) : parseInt n.digits = some (n.value : ℤ) := by
  rw [parseInt, sign_digits]
  dsimp only
  rw [parseNat_digits]
  exact congrArg some (Int.one_mul _)

/-- Digits end where something else begins. -/
theorem span_digits {digits rest : List Char} (h : ∀ c ∈ digits, c.isDigit = true)
    (hrest : ∀ c ∈ rest.head?, c.isDigit = false) :
    (digits ++ rest).span Char.isDigit = (digits, rest) := by
  rw [List.span_eq_takeWhile_dropWhile, List.takeWhile_append_of_pos h,
    List.dropWhile_append_of_pos h]
  cases rest with
  | nil => rw [List.takeWhile_nil, List.dropWhile_nil, List.append_nil]
  | cons c rest =>
    have hc := Bool.eq_false_iff.1 (hrest c rfl)
    rw [List.takeWhile_cons_of_neg hc, List.dropWhile_cons_of_neg hc, List.append_nil]

theorem span_all_digits {digits : List Char} (h : ∀ c ∈ digits, c.isDigit = true) :
    digits.span Char.isDigit = (digits, []) := by
  have hspan := @span_digits digits [] h nofun
  rwa [List.append_nil] at hspan

/-- A numeral and its decimals are read as the number that both write. -/
theorem parseDecimal_of_span {whole : Numeral} {fraction rest : List Char}
    (hrest : ∀ c ∈ rest.head?, c.isDigit = false) (hfraction : spanFraction rest = (fraction, [])) :
    parseDecimal (whole.digits ++ rest) = some (valueWithDecimals whole fraction) := by
  have hne : whole.digits ++ fraction ≠ [] := List.append_ne_nil_of_left_ne_nil whole.ne_nil _
  rw [parseDecimal, sign_digits_append]
  dsimp only
  rw [span_digits whole.isDigit hrest]
  dsimp only
  rw [hfraction]
  dsimp only
  rw [if_neg hne]
  refine congrArg some ?_
  have hpow : (10 : ℚ) ^ fraction.length ≠ 0 := pow_ne_zero _ (by norm_num)
  rw [value_append, valueWithDecimals, zero_sub, zpow_neg, zpow_natCast, Int.cast_one, one_mul,
    Nat.cast_add, Nat.cast_mul, Nat.cast_pow, Nat.cast_ofNat, ← div_eq_mul_inv, add_div,
    mul_div_cancel_left₀ _ hpow]
  rfl

/-- A numeral is read back, with decimals or without. -/
theorem parseDecimal_withDecimals (whole : Numeral) {fraction : List Char}
    (h : ∀ c ∈ fraction, c.isDigit = true) :
    parseDecimal (withDecimals whole.digits fraction) =
      some (valueWithDecimals whole fraction) := by
  rw [withDecimals]
  split_ifs with hfraction
  · rw [hfraction]
    exact parseDecimal_of_span nofun rfl
  · refine parseDecimal_of_span (fun c hc ↦ ?_) (span_all_digits h)
    obtain rfl := Option.some.inj hc
    decide

/-! ### One decimal -/

theorem roundHalfEven_natCast (n : ℕ) : roundHalfEven n = n := by
  rw [roundHalfEven, Int.floor_natCast]
  refine if_pos (.inl ?_)
  rw [Int.cast_natCast, sub_self]
  norm_num

/-- A number of tenths is written by its digits. -/
theorem oneDecimal_of_tenths {q : ℚ} {n : ℕ} (h : 10 * q = n) :
    oneDecimal q = Nat.toDigits 10 (n / 10) ++ '.' :: Nat.toDigits 10 (n % 10) := by
  have hq : 0 ≤ q := by
    have hn : (0 : ℚ) ≤ n := Nat.cast_nonneg n
    linarith
  rw [oneDecimal, abs_of_nonneg hq, h, roundHalfEven_natCast, Int.toNat_natCast,
    if_neg (not_lt.2 hq), List.nil_append]

/-- What has one decimal, or none, is written as it is. -/
theorem oneDecimal_withDecimals (whole : Numeral) {fraction : List Char}
    (h : ∀ c ∈ fraction, c.isDigit = true) (hlength : fraction.length ≤ 1) :
    oneDecimal (valueWithDecimals whole fraction) =
      Nat.toDigits 10 whole.value ++ '.' :: if fraction = [] then ['0'] else fraction := by
  match fraction, hlength with
  | [], _ =>
    rw [oneDecimal_of_tenths (n := 10 * whole.value)
      (by rw [valueWithDecimals]; push_cast; simp [value]), Nat.mul_div_cancel_left _ (by decide),
      Nat.mul_mod_right]
    rfl
  | [c], _ =>
    obtain ⟨hlt, hdigits⟩ := toDigits_digit (h c List.mem_cons_self)
    rw [oneDecimal_of_tenths (n := 10 * whole.value + value [c])
      (by rw [valueWithDecimals]; push_cast; rw [List.length_singleton]; ring),
      Nat.mul_add_div (by decide), Nat.div_eq_of_lt hlt, Nat.mul_add_mod, Nat.mod_eq_of_lt hlt,
      hdigits]
    rfl

theorem roundHalfEven_nonneg {q : ℚ} (h : 0 ≤ q) : 0 ≤ roundHalfEven q := by
  have hfloor := Int.floor_nonneg.2 h
  rw [roundHalfEven]
  split_ifs <;> omega

/-- What is written with one decimal is read as the rounded number. -/
theorem parseDecimal_oneDecimal {q : ℚ} (h : 0 ≤ q) :
    parseDecimal (oneDecimal q) = some ((roundHalfEven (10 * q) : ℚ) / 10) := by
  obtain ⟨tenths, htenths⟩ := Int.eq_ofNat_of_zero_le
    (roundHalfEven_nonneg (mul_nonneg (by norm_num : (0 : ℚ) ≤ 10) h))
  have hlt : tenths % 10 < 10 := Nat.mod_lt _ (by decide)
  have hdigit : Nat.toDigits 10 (tenths % 10) = [Nat.digitChar (tenths % 10)] :=
    Nat.toDigits_of_lt_base hlt
  have htext : oneDecimal q =
      withDecimals (ofNat (tenths / 10)).digits (ofNat (tenths % 10)).digits := by
    rw [oneDecimal, abs_of_nonneg h, htenths, if_neg (not_lt.2 h), List.nil_append, withDecimals,
      if_neg (ofNat _).ne_nil]
    rfl
  have hvalue : value (ofNat (tenths % 10)).digits = tenths % 10 := value_ofNat _
  have hlength : (ofNat (tenths % 10)).digits.length = 1 := congrArg List.length hdigit
  rw [htext, parseDecimal_withDecimals _ (ofNat _).isDigit, valueWithDecimals, hvalue, hlength,
    value_ofNat, htenths]
  have hsplit : ((tenths / 10 : ℕ) : ℚ) * 10 + ((tenths % 10 : ℕ) : ℚ) = tenths := by
    exact_mod_cast Nat.div_add_mod' tenths 10
  rw [pow_one, Int.cast_natCast, ← hsplit, add_div,
    mul_div_cancel_right₀ _ (by norm_num : (10 : ℚ) ≠ 0)]

/-- What one decimal is written with. -/
theorem notMem_oneDecimal (q : ℚ) {c : Char} (hc : c.isDigit = false) (hdot : c ≠ '.')
    (hdash : c ≠ '-') : c ∉ oneDecimal q := by
  have hdigits : ∀ n, c ∉ Nat.toDigits 10 n := fun n ↦ (ofNat n).notMem hc
  rw [oneDecimal]
  split_ifs <;> simp [hdigits, hdot, hdash]

/-- Zeros go in front, whatever follows. -/
theorem pad_append (width : ℕ) (text rest : List Char) :
    pad (width + rest.length) (text ++ rest) = pad width text ++ rest := by
  rw [pad, pad, List.leftpad, List.leftpad, List.length_append, Nat.add_sub_add_right,
    List.append_assoc]

end Numerals
