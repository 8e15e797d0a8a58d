import RustCodeMcp.Codec.Base64

/-!
# Embeddings in base64

The provider may send an embedding as base64, which is decoded in one pass over the bytes. The loop
keeps a quartet that is not full yet and whether padding was seen; whitespace is passed over
wherever it stands. What it accepts, and what it makes of it, is base64 without the whitespace
(`decodeBase64Standard_ok_iff`).

The decoder indexes its quartet, so a result can also be a panic. There is none, since a full
quartet is emptied at once (`decodeFrom_ne_panic`).

**A quartet is the unit of the argument.** From an empty quartet the loop reads four bytes that are
no whitespace, and is in the same state again or has seen the end (`decodeFrom_quartet`); fewer than
four leave something over, and that is refused after the loop (`decodeFrom_short`). So the induction
goes by fours, as the grammar of base64 does, while the loop goes byte by byte.
-/

namespace RustCodeMcp.Base64Embedding

open Base64

/-- What a decoder may come to instead of a result: an error, or a panic. -/
inductive Failure
  | error (message : String)
  /-- An index out of range. -/
  | panic
  deriving DecidableEq

/-- `u8::is_ascii_whitespace` -/
def isAsciiWhitespace (byte : UInt8) : Bool :=
  byte = 32 || byte = 9 || byte = 10 || byte = 12 || byte = 13

/-- The value that is kept for a byte, 64 for padding. -/
def quartetValue (byte : UInt8) : Option UInt8 :=
  if 65 ≤ byte ∧ byte ≤ 90 then some (byte - 65)
  else if 97 ≤ byte ∧ byte ≤ 122 then some (byte - 97 + 26)
  else if 48 ≤ byte ∧ byte ≤ 57 then some (byte - 48 + 52)
  else if byte = 43 then some 62
  else if byte = 47 then some 63
  else if byte = 61 then some 64
  else none

/-- The variables of the loop. -/
structure Decoder where
  output : List UInt8
  quartet : Vector UInt8 4
  quartetLen : ℕ
  sawPadding : Bool

/-- The bytes of a full quartet. -/
def flush (quartet : Vector UInt8 4) : Except Failure (List UInt8) :=
  let padding := quartet.toList.countP (· = 64)
  if padding > 2 then .error (.error "invalid base64 padding length")
  else if quartet[0] = 64 ∨ quartet[1] = 64 then .error (.error "invalid base64 padding position")
  else if padding = 1 ∧ quartet[3] ≠ 64 then .error (.error "invalid base64 padding position")
  else if padding = 2 ∧ (quartet[2] ≠ 64 ∨ quartet[3] ≠ 64) then
    .error (.error "invalid base64 padding position")
  else
    let b0 := quartet[0].toNat
    let b1 := quartet[1].toNat
    let b2 := if quartet[2] = 64 then 0 else quartet[2].toNat
    let b3 := if quartet[3] = 64 then 0 else quartet[3].toNat
    let triple := b0 <<< 18 ||| b1 <<< 12 ||| b2 <<< 6 ||| b3
    .ok (UInt8.ofNat (triple >>> 16 &&& 255) ::
      (if padding < 2 then [UInt8.ofNat (triple >>> 8 &&& 255)] else []) ++
      if padding = 0 then [UInt8.ofNat (triple &&& 255)] else [])

/-- As it is printed in hexadecimal, in two digits. -/
def hex (byte : UInt8) : String :=
  String.ofList [Nat.digitChar (byte.toNat / 16), Nat.digitChar (byte.toNat % 16)]

/-- A value enters the quartet, which is emptied when it is full. -/
def store (s : Decoder) (value : UInt8) (padding : Bool) : Except Failure Decoder :=
  if h : s.quartetLen < 4 then
    let quartet := s.quartet.set s.quartetLen value
    let sawPadding := s.sawPadding || padding
    if s.quartetLen + 1 = 4 then
      (flush quartet).map fun bytes ↦ ⟨s.output ++ bytes, #v[0, 0, 0, 0], 0, sawPadding⟩
    else .ok ⟨s.output, quartet, s.quartetLen + 1, sawPadding⟩
  else .error .panic

/-- The body of the loop. -/
def push (s : Decoder) (byte : UInt8) : Except Failure Decoder :=
  if isAsciiWhitespace byte then .ok s
  else if s.sawPadding ∧ byte ≠ 61 then
    .error (.error "non-padding character after base64 padding")
  else
    match quartetValue byte with
    | none => .error (.error s!"invalid base64 byte 0x{hex byte}")
    | some value => store s value (byte = 61)

/-- The loop from a state on, and the check after it. -/
def decodeFrom : Decoder → List UInt8 → Except Failure (List UInt8)
  | s, [] => if s.quartetLen ≠ 0 then .error (.error "incomplete base64 quartet") else .ok s.output
  | s, byte :: rest =>
    match push s byte with
    | .error e => .error e
    | .ok s => decodeFrom s rest

/-- `decode_base64_standard` -/
def decodeBase64Standard (encoded : List UInt8) : Except Failure (List UInt8) :=
  decodeFrom ⟨[], #v[0, 0, 0, 0], 0, false⟩ encoded

/-- `f32::from_le_bytes` on each group of four; a float is its bits. -/
def fromLeBytes : List UInt8 → List UInt32
  | a :: b :: c :: d :: rest =>
    .ofNat (a.toNat + b.toNat * 2 ^ 8 + c.toNat * 2 ^ 16 + d.toNat * 2 ^ 24) :: fromLeBytes rest
  | _ => []

/-- `decode_base64_f32_embedding` -/
def decodeBase64F32Embedding (encoded : List UInt8) : Except Failure (List UInt32) :=
  match decodeBase64Standard encoded with
  | .error e => .error e
  | .ok bytes =>
    if bytes.length % 4 ≠ 0 then
      .error (.error s!"decoded byte length {bytes.length} is not divisible by 4")
    else .ok (fromLeBytes bytes)

/-! ### A quartet -/

variable {a b c d : ℕ} {byte : UInt8} {s s' : Decoder} {out : List UInt8} {text : List UInt8}

/-- A byte is padding, or of the alphabet, or refused. -/
theorem quartetValue_eq (byte : UInt8) :
    quartetValue byte = if byte = pad then some 64 else (value? byte).map UInt8.ofNat := by
  have hall : ∀ n : Fin 256, quartetValue (.ofNat n) =
      if UInt8.ofNat n = pad then some 64 else (value? (.ofNat n)).map UInt8.ofNat := by
    decide +kernel
  have h := hall ⟨byte.toNat, byte.toNat_lt⟩
  rwa [UInt8.ofNat_toNat] at h

theorem quartetValue_pad : quartetValue pad = some 64 := by decide

/-- Four numbers below 64 side by side make one of 24 bits. -/
theorem triple_eq (hb : b < 64) (hc : c < 64) (hd : d < 64) :
    a <<< 18 ||| b <<< 12 ||| c <<< 6 ||| d = a * 2 ^ 18 + b * 2 ^ 12 + c * 2 ^ 6 + d := by
  have hcd : c <<< 6 ||| d = c * 2 ^ 6 + d := by
    rw [← Nat.shiftLeft_add_eq_or_of_lt hd, Nat.shiftLeft_eq]
  have hbcd : b <<< 12 ||| (c * 2 ^ 6 + d) = b * 2 ^ 12 + (c * 2 ^ 6 + d) := by
    rw [← Nat.shiftLeft_add_eq_or_of_lt (by omega), Nat.shiftLeft_eq]
  have habcd : a <<< 18 ||| (b * 2 ^ 12 + (c * 2 ^ 6 + d)) =
      a * 2 ^ 18 + (b * 2 ^ 12 + (c * 2 ^ 6 + d)) := by
    rw [← Nat.shiftLeft_add_eq_or_of_lt (by omega), Nat.shiftLeft_eq]
  rw [Nat.or_assoc, Nat.or_assoc, hcd, hbcd, habcd]
  omega

theorem low_byte (n : ℕ) : n &&& 255 = n % 256 :=
  Nat.and_two_pow_sub_one_eq_mod n 8

/-- The bytes that the loop takes out of the four numbers. -/
theorem bytes_eq (ha : a < 64) (hb : b < 64) (hc : c < 64) (hd : d < 64) :
    [UInt8.ofNat ((a <<< 18 ||| b <<< 12 ||| c <<< 6 ||| d) >>> 16 &&& 255),
      UInt8.ofNat ((a <<< 18 ||| b <<< 12 ||| c <<< 6 ||| d) >>> 8 &&& 255),
      UInt8.ofNat ((a <<< 18 ||| b <<< 12 ||| c <<< 6 ||| d) &&& 255)] = bytes a b c d := by
  have hfirst : (a * 2 ^ 18 + b * 2 ^ 12 + c * 2 ^ 6 + d) / 2 ^ 16 % 256 = a * 4 + b / 16 := by
    omega
  have hsecond : (a * 2 ^ 18 + b * 2 ^ 12 + c * 2 ^ 6 + d) / 2 ^ 8 % 256 =
      b % 16 * 16 + c / 4 := by
    omega
  have hthird : (a * 2 ^ 18 + b * 2 ^ 12 + c * 2 ^ 6 + d) % 256 = c % 4 * 64 + d := by
    omega
  rw [triple_eq hb hc hd, low_byte, low_byte, low_byte, Nat.shiftRight_eq_div_pow,
    Nat.shiftRight_eq_div_pow, hfirst, hsecond, hthird]
  rfl

theorem toNat_ofNat (h : a < 64) : (UInt8.ofNat a).toNat = a :=
  UInt8.toNat_ofNat_of_lt' (h.trans (by decide))

theorem ofNat_ne (h : a < 64) : UInt8.ofNat a ≠ 64 := by
  intro heq
  have hnat := congrArg UInt8.toNat heq
  rw [toNat_ofNat h] at hnat
  exact absurd hnat (Nat.ne_of_lt h)

theorem flush_full (ha : a < 64) (hb : b < 64) (hc : c < 64) (hd : d < 64) :
    flush #v[.ofNat a, .ofNat b, .ofNat c, .ofNat d] = .ok (bytes a b c d) := by
  rw [← bytes_eq ha hb hc hd]
  simp [flush, ofNat_ne ha, ofNat_ne hb, ofNat_ne hc, ofNat_ne hd, toNat_ofNat ha, toNat_ofNat hb,
    toNat_ofNat hc, toNat_ofNat hd]

theorem flush_onePad (ha : a < 64) (hb : b < 64) (hc : c < 64) :
    flush #v[.ofNat a, .ofNat b, .ofNat c, 64] = .ok ((bytes a b c 0).take 2) := by
  rw [← bytes_eq ha hb hc (by decide)]
  simp [flush, ofNat_ne ha, ofNat_ne hb, ofNat_ne hc, toNat_ofNat ha, toNat_ofNat hb,
    toNat_ofNat hc]

theorem flush_twoPads (ha : a < 64) (hb : b < 64) :
    flush #v[.ofNat a, .ofNat b, 64, 64] = .ok ((bytes a b 0 0).take 1) := by
  rw [← bytes_eq ha hb (by decide) (by decide)]
  simp [flush, ofNat_ne ha, ofNat_ne hb, toNat_ofNat ha, toNat_ofNat hb]

theorem flush_morePads (x : UInt8) :
    flush #v[x, 64, 64, 64] = .error (.error "invalid base64 padding length") := by
  by_cases hx : x = 64 <;> simp [flush, hx]

/-! ### The loop -/

/-- What one byte does that is not whitespace. -/
theorem push_ok_iff (hspace : isAsciiWhitespace byte = false) :
    push s byte = .ok s' ↔ (s.sawPadding = true → byte = pad) ∧
      ∃ value, quartetValue byte = some value ∧ store s value (byte = pad) = .ok s' := by
  rw [push, if_neg (by rw [hspace]; exact Bool.false_ne_true)]
  by_cases hpad : s.sawPadding = true ∧ byte ≠ 61
  · rw [if_pos hpad]
    exact iff_of_false nofun fun h ↦ hpad.2 (h.1 hpad.1)
  · have himp : s.sawPadding = true → byte = pad := fun h ↦ by_contra fun hne ↦ hpad ⟨h, hne⟩
    rw [if_neg hpad, and_iff_right himp]
    rcases quartetValue byte with - | value
    · exact iff_of_false nofun fun ⟨_, h, _⟩ ↦ nomatch h
    · exact ⟨fun h ↦ ⟨value, rfl, h⟩, fun ⟨_, hvalue, h⟩ ↦ Option.some.inj hvalue ▸ h⟩

/-- The loop reads a byte, and goes on. -/
theorem decodeFrom_cons_ok_iff {rest : List UInt8} :
    decodeFrom s (byte :: rest) = .ok out ↔
      ∃ s', push s byte = .ok s' ∧ decodeFrom s' rest = .ok out := by
  rw [decodeFrom]
  rcases push s byte with e | s'
  · exact iff_of_false nofun fun ⟨_, h, _⟩ ↦ nomatch h
  · exact ⟨fun h ↦ ⟨s', rfl, h⟩, fun ⟨_, hpush, h⟩ ↦ Except.ok.inj hpush ▸ h⟩

/-- Whitespace is passed over. -/
theorem decodeFrom_filter (text : List UInt8) :
    decodeFrom s (text.filter fun byte ↦ !isAsciiWhitespace byte) = decodeFrom s text := by
  induction text generalizing s with
  | nil => rfl
  | cons byte rest ih =>
    by_cases hspace : isAsciiWhitespace byte = true
    · rw [List.filter_cons_of_neg (by rw [hspace]; exact Bool.false_ne_true), ih, decodeFrom, push,
        if_pos hspace]
    · rw [List.filter_cons_of_pos (by rw [Bool.eq_false_iff.2 hspace]; rfl), decodeFrom, decodeFrom]
      rcases push s byte with e | s'
      · rfl
      · exact ih

/-- Four bytes are read from an empty quartet on: nothing but padding follows padding. -/
structure Quartet (saw : Bool) (a' b' c' d' a b c d : UInt8) : Prop where
  first : (saw = true → a' = pad) ∧ quartetValue a' = some a
  second : (saw = true ∨ a' = pad → b' = pad) ∧ quartetValue b' = some b
  third : ((saw = true ∨ a' = pad) ∨ b' = pad → c' = pad) ∧ quartetValue c' = some c
  fourth : (((saw = true ∨ a' = pad) ∨ b' = pad) ∨ c' = pad → d' = pad) ∧ quartetValue d' = some d

/-- The state with an empty quartet. -/
def empty (out : List UInt8) (saw : Bool) : Decoder :=
  ⟨out, #v[0, 0, 0, 0], 0, saw⟩

/-- **Four bytes at a time.** -/
theorem decodeFrom_quartet {saw : Bool} {res : List UInt8} {a' b' c' d' : UInt8}
    {rest : List UInt8} (hspace : ∀ byte ∈ [a', b', c', d'], isAsciiWhitespace byte = false) :
    decodeFrom (empty out saw) (a' :: b' :: c' :: d' :: rest) = .ok res ↔
      ∃ a b c d, Quartet saw a' b' c' d' a b c d ∧ ∃ bytes, flush #v[a, b, c, d] = .ok bytes ∧
        decodeFrom (empty (out ++ bytes)
          (saw || a' = pad || b' = pad || c' = pad || d' = pad)) rest = .ok res := by
  simp only [List.forall_mem_cons] at hspace
  obtain ⟨ha, hb, hc, hd, -⟩ := hspace
  constructor
  · intro h
    obtain ⟨s₁, h₁, h⟩ := decodeFrom_cons_ok_iff.1 h
    obtain ⟨hpad₁, a, hvalue₁, hstore₁⟩ := (push_ok_iff ha).1 h₁
    obtain rfl := Except.ok.inj hstore₁
    obtain ⟨s₂, h₂, h⟩ := decodeFrom_cons_ok_iff.1 h
    obtain ⟨hpad₂, b, hvalue₂, hstore₂⟩ := (push_ok_iff hb).1 h₂
    obtain rfl := Except.ok.inj hstore₂
    obtain ⟨s₃, h₃, h⟩ := decodeFrom_cons_ok_iff.1 h
    obtain ⟨hpad₃, c, hvalue₃, hstore₃⟩ := (push_ok_iff hc).1 h₃
    obtain rfl := Except.ok.inj hstore₃
    obtain ⟨s₄, h₄, h⟩ := decodeFrom_cons_ok_iff.1 h
    obtain ⟨hpad₄, d, hvalue₄, hstore₄⟩ := (push_ok_iff hd).1 h₄
    have hmap : (flush #v[a, b, c, d]).map (fun bytes ↦ empty (out ++ bytes)
        (saw || a' = pad || b' = pad || c' = pad || d' = pad)) = .ok s₄ := hstore₄
    rcases hflush : flush #v[a, b, c, d] with e | bytes
    · rw [hflush] at hmap
      cases hmap
    · rw [hflush] at hmap
      obtain rfl := Except.ok.inj hmap
      exact ⟨a, b, c, d, ⟨⟨hpad₁, hvalue₁⟩, ⟨fun h ↦ hpad₂ (by simpa [empty] using h), hvalue₂⟩,
        ⟨fun h ↦ hpad₃ (by simpa [empty] using h), hvalue₃⟩,
        ⟨fun h ↦ hpad₄ (by simpa [empty] using h), hvalue₄⟩⟩, bytes, hflush, h⟩
  · rintro ⟨a, b, c, d, hquartet, bytes, hflush, h⟩
    refine decodeFrom_cons_ok_iff.2 ⟨_, (push_ok_iff ha).2 ⟨hquartet.first.1, a,
      hquartet.first.2, rfl⟩, ?_⟩
    refine decodeFrom_cons_ok_iff.2 ⟨_, (push_ok_iff hb).2 ⟨fun h ↦ hquartet.second.1
      (by simpa [empty] using h), b, hquartet.second.2, rfl⟩, ?_⟩
    refine decodeFrom_cons_ok_iff.2 ⟨_, (push_ok_iff hc).2 ⟨fun h ↦ hquartet.third.1
      (by simpa [empty] using h), c, hquartet.third.2, rfl⟩, ?_⟩
    refine decodeFrom_cons_ok_iff.2 ⟨_, (push_ok_iff hd).2 ⟨fun h ↦ hquartet.fourth.1
      (by simpa [empty] using h), d, hquartet.fourth.2, ?_⟩, h⟩
    exact congrArg (Except.map _) hflush

/-- The quartet fills up by one, and is emptied when it is full. -/
theorem quartetLen_of_store {value : UInt8} {padding : Bool}
    (h : store s value padding = .ok s') : s'.quartetLen = (s.quartetLen + 1) % 4 := by
  unfold store at h
  split at h
  next hlen =>
    dsimp only at h
    split at h
    next hfull =>
      rcases hflush : flush (s.quartet.set s.quartetLen value) with e | bytes
      · rw [hflush] at h
        cases h
      · rw [hflush] at h
        obtain rfl := Except.ok.inj h
        rw [hfull]
    next hfull =>
      obtain rfl := Except.ok.inj h
      exact (Nat.mod_eq_of_lt (Nat.lt_of_le_of_ne hlen hfull)).symm
  next => cases h

/-- Fewer than four bytes do not fill a quartet. -/
theorem decodeFrom_short (hspace : ∀ byte ∈ text, isAsciiWhitespace byte = false)
    (hpos : 0 < s.quartetLen + text.length) (hlt : s.quartetLen + text.length < 4) :
    decodeFrom s text ≠ .ok out := by
  induction text generalizing s with
  | nil =>
    have hne : s.quartetLen ≠ 0 := Nat.ne_of_gt hpos
    rw [decodeFrom, if_pos hne]
    nofun
  | cons byte rest ih =>
    intro h
    obtain ⟨hbyte, hspace⟩ := List.forall_mem_cons.1 hspace
    obtain ⟨s', hpush, h⟩ := decodeFrom_cons_ok_iff.1 h
    obtain ⟨-, value, -, hstore⟩ := (push_ok_iff hbyte).1 hpush
    have hlen := quartetLen_of_store hstore
    rw [List.length_cons] at hlt
    rw [Nat.mod_eq_of_lt (by omega)] at hlen
    exact ih hspace (by omega) (by omega) h

/-- Nothing may follow a quartet with padding. -/
theorem eq_nil_of_sawPadding
    (hspace : ∀ byte ∈ text, isAsciiWhitespace byte = false) {res : List UInt8}
    (h : decodeFrom (empty out true) text = .ok res) : text = [] ∧ out = res := by
  match text with
  | [] => exact ⟨rfl, Except.ok.inj h⟩
  | [_] | [_, _] | [_, _, _] => exact absurd h (decodeFrom_short hspace (by simp) (by simp [empty]))
  | a' :: b' :: c' :: d' :: rest =>
    have hfour : ∀ byte ∈ [a', b', c', d'], isAsciiWhitespace byte = false := fun byte hbyte ↦
      hspace byte (List.mem_append_left rest hbyte)
    obtain ⟨a, b, c, d, hquartet, bytes, hflush, -⟩ := (decodeFrom_quartet hfour).1 h
    obtain rfl := hquartet.second.1 (.inl rfl)
    obtain rfl := hquartet.third.1 (.inl (.inl rfl))
    obtain rfl := hquartet.fourth.1 (.inl (.inl (.inl rfl)))
    obtain rfl := Option.some.inj (quartetValue_pad.symm.trans hquartet.second.2)
    obtain rfl := Option.some.inj (quartetValue_pad.symm.trans hquartet.third.2)
    obtain rfl := Option.some.inj (quartetValue_pad.symm.trans hquartet.fourth.2)
    exact nomatch (flush_morePads a).symm.trans hflush

/-- A character that is not padding. -/
theorem value?_of_quartetValue {value : UInt8} (h : quartetValue byte = some value)
    (hne : byte ≠ pad) : ∃ n, value? byte = some n ∧ value = .ofNat n ∧ n < 64 := by
  rw [quartetValue_eq, if_neg hne, Option.map_eq_some_iff] at h
  obtain ⟨n, hn, rfl⟩ := h
  exact ⟨n, hn, rfl, value?_lt hn⟩

theorem quartetValue_of_value? {n : ℕ} (h : value? byte = some n) :
    byte ≠ pad ∧ quartetValue byte = some (.ofNat n) := by
  have hne : byte ≠ pad := by
    rintro rfl
    exact nomatch value?_pad.symm.trans h
  exact ⟨hne, by rw [quartetValue_eq, if_neg hne, h]; rfl⟩

theorem not_space_of_quartetValue {value : UInt8} (h : quartetValue byte = some value) :
    isAsciiWhitespace byte = false := by
  refine Bool.eq_false_iff.2 fun hspace ↦ ?_
  simp only [isAsciiWhitespace, Bool.or_eq_true, decide_eq_true_eq] at hspace
  obtain (((rfl | rfl) | rfl) | rfl) | rfl := hspace <;> cases h

/-- **What the loop accepts is base64.** -/
theorem reads_of_decodeFrom {out text res : List UInt8}
    (hspace : ∀ byte ∈ text, isAsciiWhitespace byte = false)
    (h : decodeFrom (empty out false) text = .ok res) :
    ∃ bytes, Reads text bytes ∧ res = out ++ bytes := by
  match text with
  | [] => exact ⟨[], .nil, by rw [List.append_nil]; exact (Except.ok.inj h).symm⟩
  | [_] | [_, _] | [_, _, _] => exact absurd h (decodeFrom_short hspace (by simp) (by simp [empty]))
  | a' :: b' :: c' :: d' :: rest =>
    have hfour : ∀ byte ∈ [a', b', c', d'], isAsciiWhitespace byte = false := fun byte hbyte ↦
      hspace byte (List.mem_append_left rest hbyte)
    have hrest : ∀ byte ∈ rest, isAsciiWhitespace byte = false := fun byte hbyte ↦
      hspace byte (List.mem_append_right [a', b', c', d'] hbyte)
    obtain ⟨a, b, c, d, hquartet, bytes, hflush, h⟩ := (decodeFrom_quartet hfour).1 h
    have hab : b' ≠ pad → a' ≠ pad := mt fun ha ↦ hquartet.second.1 (.inr ha)
    have hbc : c' ≠ pad → b' ≠ pad := mt fun hb ↦ hquartet.third.1 (.inr hb)
    have hcd : d' ≠ pad → c' ≠ pad := mt fun hc ↦ hquartet.fourth.1 (.inr hc)
    by_cases hd : d' = pad
    · -- Padding ends the text.
      subst hd
      obtain rfl := Option.some.inj (quartetValue_pad.symm.trans hquartet.fourth.2)
      rw [decide_eq_true rfl, Bool.or_true] at h
      obtain ⟨rfl, rfl⟩ := eq_nil_of_sawPadding hrest h
      by_cases hc : c' = pad
      · subst hc
        obtain rfl := Option.some.inj (quartetValue_pad.symm.trans hquartet.third.2)
        by_cases hb : b' = pad
        · subst hb
          obtain rfl := Option.some.inj (quartetValue_pad.symm.trans hquartet.second.2)
          exact nomatch (flush_morePads a).symm.trans hflush
        · obtain ⟨a, ha, rfl, halt⟩ := value?_of_quartetValue hquartet.first.2 (hab hb)
          obtain ⟨b, hb, rfl, hblt⟩ := value?_of_quartetValue hquartet.second.2 hb
          obtain rfl := Except.ok.inj ((flush_twoPads halt hblt).symm.trans hflush)
          exact ⟨_, .twoPads ha hb, rfl⟩
      · obtain ⟨a, ha, rfl, halt⟩ := value?_of_quartetValue hquartet.first.2 (hab (hbc hc))
        obtain ⟨b, hb, rfl, hblt⟩ := value?_of_quartetValue hquartet.second.2 (hbc hc)
        obtain ⟨c, hc, rfl, hclt⟩ := value?_of_quartetValue hquartet.third.2 hc
        obtain rfl := Except.ok.inj ((flush_onePad halt hblt hclt).symm.trans hflush)
        exact ⟨_, .onePad ha hb hc, rfl⟩
    · rw [decide_eq_false hd, decide_eq_false (hcd hd), decide_eq_false (hbc (hcd hd)),
        decide_eq_false (hab (hbc (hcd hd)))] at h
      obtain ⟨more, hreads, rfl⟩ := reads_of_decodeFrom hrest h
      obtain ⟨a, ha, rfl, halt⟩ := value?_of_quartetValue hquartet.first.2 (hab (hbc (hcd hd)))
      obtain ⟨b, hb, rfl, hblt⟩ := value?_of_quartetValue hquartet.second.2 (hbc (hcd hd))
      obtain ⟨c, hc, rfl, hclt⟩ := value?_of_quartetValue hquartet.third.2 (hcd hd)
      obtain ⟨d, hd, rfl, hdlt⟩ := value?_of_quartetValue hquartet.fourth.2 hd
      obtain rfl := Except.ok.inj ((flush_full halt hblt hclt hdlt).symm.trans hflush)
      exact ⟨_, .full ha hb hc hd hreads, List.append_assoc _ _ _⟩

/-- **Base64 is accepted**, for what it stands for. -/
theorem decodeFrom_of_reads {text bytes : List UInt8} (h : Reads text bytes) :
    decodeFrom (empty out false) text = .ok (out ++ bytes) := by
  have hspaces : ∀ {a' b' c' d' a b c d : UInt8}, Quartet false a' b' c' d' a b c d →
      ∀ byte ∈ [a', b', c', d'], isAsciiWhitespace byte = false := by
    intro a' b' c' d' a b c d hquartet
    simp only [List.forall_mem_cons]
    exact ⟨not_space_of_quartetValue hquartet.first.2, not_space_of_quartetValue hquartet.second.2,
      not_space_of_quartetValue hquartet.third.2, not_space_of_quartetValue hquartet.fourth.2,
      nofun⟩
  have hend : ∀ {out : List UInt8} {saw : Bool}, decodeFrom (empty out saw) [] = .ok out := rfl
  induction h generalizing out with
  | nil => rw [List.append_nil, hend]
  | @full a b c d a' b' c' d' text bytes ha hb hc hd _ ih =>
    obtain ⟨hane, hav⟩ := quartetValue_of_value? ha
    obtain ⟨hbne, hbv⟩ := quartetValue_of_value? hb
    obtain ⟨hcne, hcv⟩ := quartetValue_of_value? hc
    obtain ⟨hdne, hdv⟩ := quartetValue_of_value? hd
    have hquartet : Quartet false a' b' c' d' (.ofNat a) (.ofNat b) (.ofNat c) (.ofNat d) :=
      ⟨⟨nofun, hav⟩, ⟨by simp [hane], hbv⟩, ⟨by simp [hane, hbne], hcv⟩,
        ⟨by simp [hane, hbne, hcne], hdv⟩⟩
    refine (decodeFrom_quartet (hspaces hquartet)).2 ⟨_, _, _, _, hquartet, _,
      flush_full (value?_lt ha) (value?_lt hb) (value?_lt hc) (value?_lt hd), ?_⟩
    rw [decide_eq_false hane, decide_eq_false hbne, decide_eq_false hcne, decide_eq_false hdne,
      ← List.append_assoc]
    exact ih
  | @onePad a b c a' b' c' ha hb hc =>
    obtain ⟨hane, hav⟩ := quartetValue_of_value? ha
    obtain ⟨hbne, hbv⟩ := quartetValue_of_value? hb
    obtain ⟨hcne, hcv⟩ := quartetValue_of_value? hc
    have hquartet : Quartet false a' b' c' pad (.ofNat a) (.ofNat b) (.ofNat c) 64 :=
      ⟨⟨nofun, hav⟩, ⟨by simp [hane], hbv⟩, ⟨by simp [hane, hbne], hcv⟩,
        ⟨fun _ ↦ rfl, quartetValue_pad⟩⟩
    exact (decodeFrom_quartet (hspaces hquartet)).2 ⟨_, _, _, _, hquartet, _,
      flush_onePad (value?_lt ha) (value?_lt hb) (value?_lt hc), hend⟩
  | @twoPads a b a' b' ha hb =>
    obtain ⟨hane, hav⟩ := quartetValue_of_value? ha
    obtain ⟨hbne, hbv⟩ := quartetValue_of_value? hb
    have hquartet : Quartet false a' b' pad pad (.ofNat a) (.ofNat b) 64 64 :=
      ⟨⟨nofun, hav⟩, ⟨by simp [hane], hbv⟩, ⟨fun _ ↦ rfl, quartetValue_pad⟩,
        ⟨fun _ ↦ rfl, quartetValue_pad⟩⟩
    exact (decodeFrom_quartet (hspaces hquartet)).2 ⟨_, _, _, _, hquartet, _,
      flush_twoPads (value?_lt ha) (value?_lt hb), hend⟩

/-- What is left of a text without its whitespace. -/
def unspaced (text : List UInt8) : List UInt8 :=
  text.filter fun byte ↦ !isAsciiWhitespace byte

/-- **The decoder is exact.** -/
theorem decodeBase64Standard_ok_iff {encoded bytes : List UInt8} :
    decodeBase64Standard encoded = .ok bytes ↔ Reads (unspaced encoded) bytes := by
  have hspace : ∀ byte ∈ unspaced encoded, isAsciiWhitespace byte = false := fun byte h ↦ by
    simpa using (List.mem_filter.1 h).2
  rw [decodeBase64Standard, ← decodeFrom_filter]
  constructor
  · intro h
    obtain ⟨bytes, hreads, rfl⟩ := reads_of_decodeFrom hspace h
    exact hreads
  · exact decodeFrom_of_reads

/-! ### No index out of range -/

theorem flush_ne_panic (quartet : Vector UInt8 4) : flush quartet ≠ .error .panic := by
  unfold flush
  dsimp only
  split_ifs <;> nofun

/-- Neither does a byte, as long as the quartet has room. -/
theorem push_ne_panic (h : s.quartetLen < 4) : push s byte ≠ .error .panic := by
  unfold push
  split_ifs
  · nofun
  · nofun
  · split
    · nofun
    next value _ =>
      unfold store
      rw [dif_pos h]
      dsimp only
      split_ifs
      · rcases hflush : flush (s.quartet.set s.quartetLen value) with e | bytes
        · intro heq
          exact flush_ne_panic _ (hflush.trans (congrArg Except.error (Except.error.inj heq)))
        · nofun
      · nofun

/-- Neither does the loop. -/
theorem decodeFrom_ne_panic (h : s.quartetLen < 4) : decodeFrom s text ≠ .error .panic := by
  induction text generalizing s with
  | nil =>
    rw [decodeFrom]
    split_ifs <;> nofun
  | cons byte rest ih =>
    rw [decodeFrom]
    rcases hpush : push s byte with e | s'
    · intro heq
      exact push_ne_panic h (hpush.trans (congrArg Except.error (Except.error.inj heq)))
    · refine ih ?_
      unfold push at hpush
      split_ifs at hpush
      · exact Except.ok.inj hpush ▸ h
      · split at hpush
        · cases hpush
        · rw [quartetLen_of_store hpush]
          exact Nat.mod_lt _ (by decide)

/-! ### The words -/

/-- `f32::to_le_bytes` -/
def toLeBytes (word : UInt32) : List UInt8 :=
  [.ofNat (word.toNat % 2 ^ 8), .ofNat (word.toNat / 2 ^ 8 % 2 ^ 8),
    .ofNat (word.toNat / 2 ^ 16 % 2 ^ 8), .ofNat (word.toNat / 2 ^ 24)]

theorem length_flatMap_toLeBytes (words : List UInt32) :
    (words.flatMap toLeBytes).length = 4 * words.length := by
  induction words with
  | nil => rfl
  | cons word words ih =>
    rw [List.flatMap_cons, List.length_append, ih, List.length_cons]
    show 4 + 4 * words.length = _
    omega

/-- Words can be read back from their bytes. -/
theorem fromLeBytes_toLeBytes (words : List UInt32) :
    fromLeBytes (words.flatMap toLeBytes) = words := by
  induction words with
  | nil => rfl
  | cons word words ih =>
    have hlt := word.toNat_lt
    have hbyte : ∀ {n : ℕ}, n < 256 → (UInt8.ofNat n).toNat = n := UInt8.toNat_ofNat_of_lt'
    rw [List.flatMap_cons, toLeBytes]
    show UInt32.ofNat (_ + _ * 2 ^ 8 + _ * 2 ^ 16 + _ * 2 ^ 24) ::
      fromLeBytes (words.flatMap toLeBytes) = _
    rw [ih, hbyte (by omega), hbyte (by omega), hbyte (by omega), hbyte (by omega)]
    refine congrArg (· :: words) ?_
    have hsum : word.toNat % 2 ^ 8 + word.toNat / 2 ^ 8 % 2 ^ 8 * 2 ^ 8 +
        word.toNat / 2 ^ 16 % 2 ^ 8 * 2 ^ 16 + word.toNat / 2 ^ 24 * 2 ^ 24 = word.toNat := by
      omega
    rw [hsum, UInt32.ofNat_toNat]

/-- **The decoder gives back what was encoded**, with whitespace anywhere; it accepts exactly the
texts that are base64 but for whitespace, never leaves its quartet, and gives back every list of
words. -/
theorem decodeBase64Standard_spec (encoded : List UInt8) :
    (∀ bytes, unspaced encoded = encode bytes → decodeBase64Standard encoded = .ok bytes) ∧
    (∀ bytes, decodeBase64Standard encoded = .ok bytes ↔ Reads (unspaced encoded) bytes) ∧
    decodeBase64Standard encoded ≠ .error .panic ∧
    ∀ words, unspaced encoded = encode (words.flatMap toLeBytes) →
      decodeBase64F32Embedding encoded = .ok words := by
  have hround : ∀ bytes, unspaced encoded = encode bytes →
      decodeBase64Standard encoded = .ok bytes := fun bytes h ↦
    decodeBase64Standard_ok_iff.2 (h ▸ reads_encode bytes)
  refine ⟨hround, fun bytes ↦ decodeBase64Standard_ok_iff, decodeFrom_ne_panic (by decide),
    fun words h ↦ ?_⟩
  have hlength : (words.flatMap toLeBytes).length % 4 = 0 := by
    rw [length_flatMap_toLeBytes]
    exact Nat.mul_mod_right _ _
  rw [decodeBase64F32Embedding, hround _ h]
  dsimp only
  rw [hlength, if_neg (fun hne ↦ hne rfl), fromLeBytes_toLeBytes]

/-- The embedding `[1.0, 2.0]`. -/
example : decodeBase64F32Embedding "AACAPwAA AEA=".toUTF8.toList =
    .ok [0x3f800000, 0x40000000] := by decide +kernel

end RustCodeMcp.Base64Embedding
