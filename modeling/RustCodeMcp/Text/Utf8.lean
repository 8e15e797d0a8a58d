import Mathlib.Algebra.GroupWithZero.Nat
import Mathlib.Data.List.DropRight
import Mathlib.Data.String.Basic

/-!
# UTF-8

A character below 128 is one byte, its own number; every byte of any other character is 128 or
more. So a run of ASCII bytes in a text is a run of ASCII characters, read in either direction
(`takeWhile_encode`, `rtakeWhile_encode`).

Programs that look at bytes and mean characters are right as far as that goes: a test that no byte
from 128 on passes is a test on ASCII characters.
-/

namespace Utf8

/-- The bytes of a text. -/
def encode (l : List Char) : List UInt8 :=
  l.flatMap String.utf8EncodeChar

variable {c : Char} {b : UInt8} {l l' : List Char}

@[simp] theorem encode_nil : encode [] = [] := rfl

@[simp] theorem encode_cons (c : Char) (l : List Char) :
    encode (c :: l) = String.utf8EncodeChar c ++ encode l := List.flatMap_cons

@[simp] theorem encode_append (l l' : List Char) : encode (l ++ l') = encode l ++ encode l' :=
  List.flatMap_append

theorem length_encode (l : List Char) : (encode l).length = (l.map Char.utf8Size).sum := by
  induction l with
  | nil => rfl
  | cons c l ih =>
    rw [encode_cons, List.length_append, ih, String.length_utf8EncodeChar, List.map_cons,
      List.sum_cons]

/-- An ASCII character is one byte, its own number. -/
theorem utf8EncodeChar_of_lt (h : c.toNat < 128) :
    String.utf8EncodeChar c = [UInt8.ofNat c.toNat] :=
  if_pos (Nat.le_of_lt_succ h)

/-- The bytes of any other are 128 or more. -/
theorem le_of_mem_utf8EncodeChar (h : 128 ≤ c.toNat) (hb : b ∈ String.utf8EncodeChar c) :
    128 ≤ b.toNat := by
  have hchar : c.toNat < 1114112 := by
    have hvalid := c.valid
    rcases hvalid with hvalid | ⟨-, hvalid⟩
    · exact Nat.lt_trans hvalid (by decide)
    · exact hvalid
  have hbyte : ∀ {n : ℕ}, 128 ≤ n → n < 256 → 128 ≤ (UInt8.ofNat n).toNat := by
    intro n hle hlt
    rwa [UInt8.toNat_ofNat_of_lt' hlt]
  have hv : c.val.toNat = c.toNat := rfl
  unfold String.utf8EncodeChar at hb
  dsimp only at hb
  rw [hv] at hb
  split_ifs at hb <;> simp only [List.mem_cons, List.not_mem_nil, or_false] at hb
  · omega
  · rcases hb with rfl | rfl <;> exact hbyte (by omega) (by omega)
  · rcases hb with rfl | rfl | rfl <;> exact hbyte (by omega) (by omega)
  · rcases hb with rfl | rfl | rfl | rfl <;> exact hbyte (by omega) (by omega)

/-! ### Runs of ASCII -/

/-- A test on bytes, for characters of one byte. -/
def onChar (p : UInt8 → Bool) (c : Char) : Bool :=
  decide (c.toNat < 128) && p (.ofNat c.toNat)

variable {p : UInt8 → Bool}

/-- The bytes of a character pass a test on ASCII bytes, or none does. -/
theorem onChar_cases (hp : ∀ b : UInt8, 128 ≤ b.toNat → p b = false) (c : Char) :
    (onChar p c = true ∧ ∃ b, String.utf8EncodeChar c = [b] ∧ p b = true) ∨
      (onChar p c = false ∧ ∀ b ∈ String.utf8EncodeChar c, p b = false) := by
  rw [onChar]
  rcases Nat.lt_or_ge c.toNat 128 with hlt | hge
  · rw [decide_eq_true hlt, Bool.true_and, utf8EncodeChar_of_lt hlt]
    rcases hb : p (.ofNat c.toNat) with - | -
    · exact .inr ⟨rfl, fun b hmem ↦ List.mem_singleton.1 hmem ▸ hb⟩
    · exact .inl ⟨rfl, _, rfl, hb⟩
  · rw [decide_eq_false (Nat.not_lt.2 hge)]
    exact .inr ⟨rfl, fun b hmem ↦ hp b (le_of_mem_utf8EncodeChar hge hmem)⟩

/-- **A run of ASCII bytes** is a run of ASCII characters. -/
theorem takeWhile_encode (hp : ∀ b : UInt8, 128 ≤ b.toNat → p b = false) (l : List Char) :
    (encode l).takeWhile p = encode (l.takeWhile (onChar p)) := by
  induction l with
  | nil => rfl
  | cons c l ih =>
    rw [encode_cons]
    obtain ⟨hc, b, hb, hpb⟩ | ⟨hc, hnone⟩ := onChar_cases hp c
    · rw [List.takeWhile_cons_of_pos hc, encode_cons, hb, List.singleton_append,
        List.singleton_append, List.takeWhile_cons_of_pos hpb, ih]
    · rw [List.takeWhile_cons_of_neg (Bool.eq_false_iff.1 hc)]
      obtain ⟨b, bytes, hb⟩ := List.exists_cons_of_ne_nil (String.utf8EncodeChar_ne_nil (c := c))
      rw [hb] at hnone ⊢
      exact List.takeWhile_cons_of_neg (Bool.eq_false_iff.1 (hnone b List.mem_cons_self))

/-- So it is from the end. -/
theorem rtakeWhile_encode (hp : ∀ b : UInt8, 128 ≤ b.toNat → p b = false) (l : List Char) :
    (encode l).rtakeWhile p = encode (l.rtakeWhile (onChar p)) := by
  induction l using List.reverseRecOn with
  | nil => rfl
  | append_singleton l c ih =>
    rw [encode_append, encode_cons, encode_nil, List.append_nil]
    obtain ⟨hc, b, hb, hpb⟩ | ⟨hc, hnone⟩ := onChar_cases hp c
    · rw [List.rtakeWhile_concat_pos _ _ _ hc, encode_append, encode_cons, encode_nil, hb,
        List.append_nil, List.rtakeWhile_concat_pos _ _ _ hpb, ih]
    · rw [List.rtakeWhile_concat_neg _ _ _ (Bool.eq_false_iff.1 hc)]
      obtain ⟨bytes, b, hb⟩ := List.eq_nil_or_concat (String.utf8EncodeChar c)
        |>.resolve_left String.utf8EncodeChar_ne_nil
      rw [hb] at hnone ⊢
      rw [List.concat_eq_append] at hnone ⊢
      rw [← List.append_assoc, List.rtakeWhile_concat_neg _ _ _ (Bool.eq_false_iff.1
        (hnone b (List.mem_append_right _ (List.mem_singleton_self b))))]
      rfl

end Utf8
