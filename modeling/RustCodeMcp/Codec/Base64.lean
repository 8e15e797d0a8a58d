import Mathlib.Data.UInt

/-!
# Base64

The standard alphabet with padding. `Reads text bytes` says which texts are base64 and what they
stand for: groups of four characters, of which the last may end in one or two `=`. The bits that the
padding leaves over are not looked at, so a text is not determined by its bytes; `encode` writes
zeros there (`reads_encode`).

A decoder is compared with `Reads`, not with `encode`: decoders accept more than encoders write,
since the spare bits before the padding are free. What is read back of an encoding is then one case
of a decoder that reads what a text stands for.
-/

namespace Base64

/-- The padding, `=`. -/
def pad : UInt8 := 61

/-- What a character of the alphabet stands for. -/
def value? (c : UInt8) : Option ℕ :=
  if 65 ≤ c ∧ c ≤ 90 then some (c.toNat - 65)
  else if 97 ≤ c ∧ c ≤ 122 then some (c.toNat - 97 + 26)
  else if 48 ≤ c ∧ c ≤ 57 then some (c.toNat - 48 + 52)
  else if c = 43 then some 62
  else if c = 47 then some 63
  else none

/-- The character for a number below 64. -/
def digit (n : ℕ) : UInt8 :=
  if n < 26 then .ofNat (n + 65)
  else if n < 52 then .ofNat (n - 26 + 97)
  else if n < 62 then .ofNat (n - 52 + 48)
  else if n = 62 then 43
  else 47

/-- The three bytes of four numbers below 64. -/
def bytes (a b c d : ℕ) : List UInt8 :=
  [.ofNat (a * 4 + b / 16), .ofNat (b % 16 * 16 + c / 4), .ofNat (c % 4 * 64 + d)]

/-- What a text stands for. -/
inductive Reads : List UInt8 → List UInt8 → Prop
  | nil : Reads [] []
  | full {a b c d : ℕ} {a' b' c' d' : UInt8} {text out : List UInt8} (ha : value? a' = some a)
      (hb : value? b' = some b) (hc : value? c' = some c) (hd : value? d' = some d)
      (h : Reads text out) : Reads (a' :: b' :: c' :: d' :: text) (bytes a b c d ++ out)
  | onePad {a b c : ℕ} {a' b' c' : UInt8} (ha : value? a' = some a) (hb : value? b' = some b)
      (hc : value? c' = some c) : Reads [a', b', c', pad] ((bytes a b c 0).take 2)
  | twoPads {a b : ℕ} {a' b' : UInt8} (ha : value? a' = some a) (hb : value? b' = some b) :
      Reads [a', b', pad, pad] ((bytes a b 0 0).take 1)

/-- Groups of three bytes, each as four characters; the last may be padded. -/
def encode : List UInt8 → List UInt8
  | [] => []
  | [x] => [digit (x.toNat / 4), digit (x.toNat % 4 * 16), pad, pad]
  | [x, y] =>
    [digit (x.toNat / 4), digit (x.toNat % 4 * 16 + y.toNat / 16), digit (y.toNat % 16 * 4), pad]
  | x :: y :: z :: rest =>
    digit (x.toNat / 4) :: digit (x.toNat % 4 * 16 + y.toNat / 16) ::
      digit (y.toNat % 16 * 4 + z.toNat / 64) :: digit (z.toNat % 64) :: encode rest

theorem value?_digit {n : ℕ} (h : n < 64) : value? (digit n) = some n := by
  have hall : ∀ n : Fin 64, value? (digit n) = some n.val := by decide
  exact hall ⟨n, h⟩

theorem value?_lt {c : UInt8} {n : ℕ} (h : value? c = some n) : n < 64 := by
  unfold value? at h
  simp only [UInt8.le_iff_toNat_le] at h
  split_ifs at h with h₁ h₂ h₃ h₄ h₅ <;> cases h
  · obtain ⟨-, hle⟩ := h₁
    exact (Nat.sub_le_sub_right hle 65).trans_lt (by decide)
  · obtain ⟨-, hle⟩ := h₂
    exact Nat.add_lt_add_right ((Nat.sub_le_sub_right hle 97).trans_lt (by decide)) 26 |>.trans_le
      (by decide : 26 + 26 ≤ 64)
  · obtain ⟨-, hle⟩ := h₃
    exact Nat.add_lt_add_right ((Nat.sub_le_sub_right hle 48).trans_lt (by decide)) 52 |>.trans_le
      (by decide : 10 + 52 ≤ 64)
  · decide
  · decide

/-- The padding is not of the alphabet. -/
theorem value?_pad : value? pad = none := by decide

/-- **What is encoded can be read back.** -/
theorem reads_encode (l : List UInt8) : Reads (encode l) l := by
  have hlt := fun x : UInt8 ↦ x.toNat_lt
  have hbyte : ∀ (x : UInt8) (n : ℕ), n = x.toNat → UInt8.ofNat n = x := by
    rintro x _ rfl
    exact UInt8.ofNat_toNat
  induction l using encode.induct with
  | case1 => exact .nil
  | case2 x =>
    have h := hlt x
    have hreads := Reads.twoPads (value?_digit (n := x.toNat / 4) (by omega))
      (value?_digit (n := x.toNat % 4 * 16) (by omega))
    have hout : (bytes (x.toNat / 4) (x.toNat % 4 * 16) 0 0).take 1 = [x] :=
      congrArg (· :: []) (hbyte x _ (by omega))
    rw [hout] at hreads
    exact hreads
  | case3 x y =>
    have hx := hlt x
    have hy := hlt y
    have hreads := Reads.onePad (value?_digit (n := x.toNat / 4) (by omega))
      (value?_digit (n := x.toNat % 4 * 16 + y.toNat / 16) (by omega))
      (value?_digit (n := y.toNat % 16 * 4) (by omega))
    have hout : (bytes (x.toNat / 4) (x.toNat % 4 * 16 + y.toNat / 16)
        (y.toNat % 16 * 4) 0).take 2 = [x, y] :=
      congrArg₂ (fun x y ↦ [x, y]) (hbyte x _ (by omega)) (hbyte y _ (by omega))
    rw [hout] at hreads
    exact hreads
  | case4 x y z rest ih =>
    have hx := hlt x
    have hy := hlt y
    have hz := hlt z
    have hreads := Reads.full (value?_digit (n := x.toNat / 4) (by omega))
      (value?_digit (n := x.toNat % 4 * 16 + y.toNat / 16) (by omega))
      (value?_digit (n := y.toNat % 16 * 4 + z.toNat / 64) (by omega))
      (value?_digit (n := z.toNat % 64) (by omega)) ih
    have hout : bytes (x.toNat / 4) (x.toNat % 4 * 16 + y.toNat / 16)
        (y.toNat % 16 * 4 + z.toNat / 64) (z.toNat % 64) = [x, y, z] := by
      unfold bytes
      rw [hbyte x _ (by omega), hbyte y _ (by omega), hbyte z _ (by omega)]
    rw [hout] at hreads
    exact hreads

end Base64
