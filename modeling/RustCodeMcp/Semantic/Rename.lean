import RustCodeMcp.Embeddings.VramBudget
import RustCodeMcp.Semantic.Position
import RustCodeMcp.Text.Utf8

/-!
# The symbol a rename starts from

Before a rename, the name that the caller expects is compared with the identifier at the position.
That identifier is cut out of the text byte by byte, and a byte is of an identifier if it is an
ASCII letter, a digit or an underscore. So what is compared is the ASCII part of the identifier
around the position (`identifierAtOffset_eq`), and the answer is right for every name exactly when
the identifier is ASCII throughout; otherwise it is wrong for the identifier itself and for its
ASCII part (`verifyExpectedSymbolAtPosition_iff`).

Where the position is, is said by the text before and after it. The run of identifier characters
around it is `runAt` of these two, for any predicate on characters; the bytes give the run for ASCII
characters and the language means the run for its own, and everything is about when the two are the
same.
-/

namespace RustCodeMcp.Rename

open Position

/-- Whether an offset in bytes lies between two characters. -/
def isCharBoundary : List Char → ℕ → Bool
  | _, 0 => true
  | [], _ + 1 => false
  | c :: rest, offset => decide (c.utf8Size ≤ offset) && isCharBoundary rest (offset - c.utf8Size)

/-- `text.get(start..end)` -/
def get (text : List Char) (start stop : ℕ) : Option (List Char) :=
  if start ≤ stop ∧ isCharBoundary text start ∧ isCharBoundary text stop then
    some (sliceFrom start (sliceTo stop text))
  else none

/-- A letter, a digit or an underscore of ASCII. -/
def isRustIdentByte (byte : UInt8) : Bool :=
  byte = 95 || (65 ≤ byte && byte ≤ 90) || (97 ≤ byte && byte ≤ 122) || (48 ≤ byte && byte ≤ 57)

/-- The second half of `identifier_at_offset`: the token around a byte. -/
def tokenAround (text : List Char) (probe : ℕ) : Option (List Char) := do
  let bytes := Utf8.encode text
  if !isRustIdentByte (← bytes[probe]?) then none
  else
    let start := probe - ((bytes.take probe).rtakeWhile isRustIdentByte).length
    let stop := probe + 1 + ((bytes.drop (probe + 1)).takeWhile isRustIdentByte).length
    get text start stop

/-- The identifier at a byte offset; at the end of the text, the one before it. -/
def identifierAtOffset (text : List Char) (offset : ℕ) : Option (List Char) := do
  let probe ← if offset < (Utf8.encode text).length then some offset
    else if 1 ≤ offset then some (offset - 1) else none
  tokenAround text probe

/-- The characters before the first `::`. -/
def untilPathSep : List Char → List Char
  | ':' :: ':' :: _ => []
  | c :: rest => c :: untilPathSep rest
  | [] => []

/-- The last segment of the expected name, trimmed. -/
def expectedSegment (expectedSymbolName : String) : List Char :=
  trimmed (String.ofList (untilPathSep expectedSymbolName.toList.reverse).reverse)

/-- Refuse a rename that starts from another name than the expected one. -/
def verifyExpectedSymbolAtPosition (text : List Char) (offset : ℕ) (expectedSymbolName : String) :
    Except String Unit :=
  let expected := expectedSegment expectedSymbolName
  if expected = [] then .error "symbol_name must not be empty"
  else
    match identifierAtOffset text offset with
    | none => .error "position is not on an identifier token"
    | some token =>
      if token ≠ expected then
        .error s!"position is on '{String.ofList token}', not '{String.ofList expected}'"
      else .ok ()

/-- The run of characters that contains the position between two parts of a text or, at the end of
the text, ends there. -/
def runAt (p : Char → Bool) (before after : List Char) : Option (List Char) :=
  match after with
  | [] => if before.rtakeWhile p = [] then none else some (before.rtakeWhile p)
  | c :: _ => if p c then some (before.rtakeWhile p ++ after.takeWhile p) else none

/-- The characters whose byte is of an identifier. -/
def isAsciiIdent : Char → Bool := Utf8.onChar isRustIdentByte

variable {before after : List Char}

theorem isRustIdentByte_of_le {byte : UInt8} (h : 128 ≤ byte.toNat) :
    isRustIdentByte byte = false := by
  simp only [isRustIdentByte, Bool.or_eq_false_iff, Bool.and_eq_false_iff, decide_eq_false_iff_not,
    UInt8.le_iff_toNat_le, ← UInt8.toNat_inj]
  have h95 : (95 : UInt8).toNat = 95 := rfl
  have h90 : (90 : UInt8).toNat = 90 := rfl
  have h122 : (122 : UInt8).toNat = 122 := rfl
  have h57 : (57 : UInt8).toNat = 57 := rfl
  omega

theorem isCharBoundary_cons {c : Char} {rest : List Char} {offset : ℕ}
    (h : c.utf8Size ≤ offset) :
    isCharBoundary (c :: rest) offset = isCharBoundary rest (offset - c.utf8Size) := by
  rcases offset with - | offset
  · exact absurd h (Nat.not_le.2 c.utf8Size_pos)
  · rw [isCharBoundary, decide_eq_true h, Bool.true_and]
    nofun

/-- Between two parts of a text there is a boundary. -/
theorem isCharBoundary_byteLen (before after : List Char) :
    isCharBoundary (before ++ after) (byteLen before) = true := by
  induction before with
  | nil => cases after <;> rfl
  | cons c rest ih =>
    rw [byteLen_cons, List.cons_append, isCharBoundary_cons (Nat.le_add_right _ _),
      Nat.add_sub_cancel_left, ih]

/-- What stands between two parts. -/
theorem get_append (before token after : List Char) :
    get (before ++ (token ++ after)) (byteLen before) (byteLen (before ++ token)) = some token := by
  have hstop := isCharBoundary_byteLen (before ++ token) after
  rw [List.append_assoc] at hstop
  rw [get, if_pos ⟨by rw [byteLen_append]; exact Nat.le_add_right _ _,
    isCharBoundary_byteLen _ _, hstop⟩, ← List.append_assoc, sliceTo_byteLen]
  have hafter := sliceFrom_byteLen before token
  rw [hafter]

theorem length_encode_eq (l : List Char) : (Utf8.encode l).length = byteLen l :=
  Utf8.length_encode l

theorem isRustIdentByte_high : ∀ byte : UInt8, 128 ≤ byte.toNat → isRustIdentByte byte = false :=
  fun _ ↦ isRustIdentByte_of_le

/-- **Around an ASCII character of an identifier** the bytes give the run of such characters. -/
theorem tokenAround_of_ident {c : Char} (hc : isAsciiIdent c = true) (before after : List Char) :
    tokenAround (before ++ c :: after) (byteLen before) =
      some (before.rtakeWhile isAsciiIdent ++ c :: after.takeWhile isAsciiIdent) := by
  obtain ⟨-, b, hb, hident⟩ | ⟨hnot, -⟩ := Utf8.onChar_cases isRustIdentByte_high c
  · have hbytes : Utf8.encode (before ++ c :: after) =
        Utf8.encode before ++ b :: Utf8.encode after := by
      rw [Utf8.encode_append, Utf8.encode_cons, hb]
      rfl
    have hsize : c.utf8Size = 1 := by rw [← String.length_utf8EncodeChar, hb]; rfl
    have hlen := length_encode_eq before
    have hprobe : (Utf8.encode before ++ b :: Utf8.encode after)[byteLen before]? = some b := by
      rw [← hlen, List.getElem?_append_right le_rfl, Nat.sub_self]
      rfl
    have htake : (Utf8.encode before ++ b :: Utf8.encode after).take (byteLen before) =
        Utf8.encode before := by
      rw [← hlen, List.take_left]
    have hdrop : (Utf8.encode before ++ b :: Utf8.encode after).drop (byteLen before + 1) =
        Utf8.encode after := by
      rw [← hlen, List.drop_append, List.drop_eq_nil_of_le (Nat.le_succ _),
        Nat.add_sub_cancel_left]
      rfl
    -- The characters before are those left alone and the run.
    have hsplit : byteLen before = byteLen (before.rdropWhile isAsciiIdent) +
        byteLen (before.rtakeWhile isAsciiIdent) := by
      rw [← byteLen_append, List.rdropWhile_append_rtakeWhile]
    have hget := get_append (before.rdropWhile isAsciiIdent)
      (before.rtakeWhile isAsciiIdent ++ c :: after.takeWhile isAsciiIdent)
      (after.dropWhile isAsciiIdent)
    rw [List.append_assoc, ← List.append_assoc (before.rdropWhile isAsciiIdent),
      List.rdropWhile_append_rtakeWhile, List.cons_append, List.takeWhile_append_dropWhile] at hget
    have hstart : byteLen before - byteLen (before.rtakeWhile isAsciiIdent) =
        byteLen (before.rdropWhile isAsciiIdent) := by omega
    have hstop : byteLen before + 1 + byteLen (after.takeWhile isAsciiIdent) =
        byteLen (before.rdropWhile isAsciiIdent ++
          (before.rtakeWhile isAsciiIdent ++ c :: after.takeWhile isAsciiIdent)) := by
      rw [byteLen_append, byteLen_append, byteLen_cons, hsize]
      omega
    simp only [tokenAround, hbytes, hprobe, htake, hdrop, Option.bind_eq_bind, Option.bind_some,
      hident, Bool.not_true, Bool.false_eq_true, if_false, length_encode_eq,
      Utf8.rtakeWhile_encode isRustIdentByte_high, Utf8.takeWhile_encode isRustIdentByte_high]
    exact (congrArg₂ (get _) hstart hstop).trans hget
  · exact nomatch hc.symm.trans hnot

theorem tokenAround_of_not {text : List Char} {probe : ℕ} {b : UInt8}
    (hb : (Utf8.encode text)[probe]? = some b) (hnot : isRustIdentByte b = false) :
    tokenAround text probe = none := by
  simp [tokenAround, hb, hnot]

/-- The bytes of one character of a text. -/
theorem exists_byte (before : List Char) (c : Char) (after : List Char) {k : ℕ}
    (hk : k < c.utf8Size) : ∃ b ∈ String.utf8EncodeChar c,
      (Utf8.encode (before ++ c :: after))[byteLen before + k]? = some b := by
  rw [← String.length_utf8EncodeChar] at hk
  refine ⟨(String.utf8EncodeChar c)[k], List.getElem_mem hk, ?_⟩
  rw [Utf8.encode_append, Utf8.encode_cons, ← length_encode_eq,
    List.getElem?_append_right (Nat.le_add_right _ _), Nat.add_sub_cancel_left,
    List.getElem?_append_left hk, List.getElem?_eq_getElem hk]

/-- **What the bytes give** is the run of ASCII characters of identifiers. -/
theorem identifierAtOffset_eq (before after : List Char) :
    identifierAtOffset (before ++ after) (byteLen before) = runAt isAsciiIdent before after := by
  have hlen : (Utf8.encode (before ++ after)).length = byteLen before + byteLen after := by
    rw [length_encode_eq, byteLen_append]
  rcases after with - | ⟨c, rest⟩
  · rw [identifierAtOffset, hlen, byteLen_nil, Nat.add_zero, if_neg (Nat.lt_irrefl _),
      List.append_nil, runAt]
    induction before using List.reverseRecOn with
    | nil => rfl
    | append_singleton init c _ =>
      obtain ⟨hc, b, hb, -⟩ | ⟨hc, hnone⟩ := Utf8.onChar_cases isRustIdentByte_high c
      · have hsize : c.utf8Size = 1 := by rw [← String.length_utf8EncodeChar, hb]; rfl
        have hprobe : byteLen (init ++ [c]) - 1 = byteLen init := by
          rw [byteLen_append, byteLen_cons, byteLen_nil, hsize]
          rfl
        have hrun : (init ++ [c]).rtakeWhile isAsciiIdent = init.rtakeWhile isAsciiIdent ++ [c] :=
          List.rtakeWhile_concat_pos _ _ _ hc
        rw [hprobe, if_pos (by rw [byteLen_append, byteLen_cons, hsize]; omega), hrun,
          if_neg (by simp)]
        exact tokenAround_of_ident hc init []
      · have hpos := c.utf8Size_pos
        have hprobe : byteLen (init ++ [c]) - 1 = byteLen init + (c.utf8Size - 1) := by
          rw [byteLen_append, byteLen_cons, byteLen_nil]
          omega
        have hrun : (init ++ [c]).rtakeWhile isAsciiIdent = [] :=
          List.rtakeWhile_concat_neg _ _ _ (Bool.eq_false_iff.1 hc)
        obtain ⟨b, hmem, hb⟩ := exists_byte init c [] (Nat.sub_lt hpos Nat.one_pos)
        rw [hprobe, if_pos (by rw [byteLen_append, byteLen_cons]; omega), hrun, if_pos rfl]
        exact tokenAround_of_not hb (hnone b hmem)
  · have hpos := c.utf8Size_pos
    rw [identifierAtOffset, hlen, byteLen_cons, if_pos (by omega), runAt]
    obtain ⟨hc, -⟩ | ⟨hc, hnone⟩ := Utf8.onChar_cases isRustIdentByte_high c
    · rw [isAsciiIdent, if_pos hc, List.takeWhile_cons_of_pos hc]
      exact tokenAround_of_ident hc before rest
    · obtain ⟨b, hmem, hb⟩ := exists_byte before c rest hpos
      rw [isAsciiIdent, if_neg (Bool.eq_false_iff.1 hc)]
      exact tokenAround_of_not hb (hnone b hmem)

/-! ### Runs of identifiers -/

variable {p q : Char → Bool} {l : List Char}

/-- A run to the left is that for fewer characters, if its own are among them. -/
theorem rtakeWhile_eq_of_all (h : ∀ c ∈ l.rtakeWhile q, p c = true)
    (hpq : ∀ c, p c = true → q c = true) : l.rtakeWhile p = l.rtakeWhile q := by
  induction l using List.reverseRecOn with
  | nil => rfl
  | append_singleton l c ih =>
    by_cases hq : q c = true
    · rw [List.rtakeWhile_concat_pos _ _ _ hq] at h ⊢
      have hp : p c = true := h c (List.mem_append_right _ (List.mem_singleton_self c))
      rw [List.rtakeWhile_concat_pos _ _ _ hp, ih fun d hd ↦ h d (List.mem_append_left _ hd)]
    · have hp : ¬p c = true := mt (hpq c) hq
      rw [List.rtakeWhile_concat_neg _ _ _ hp, List.rtakeWhile_concat_neg _ _ _ hq]

theorem takeWhile_eq_of_all (h : ∀ c ∈ l.takeWhile q, p c = true)
    (hpq : ∀ c, p c = true → q c = true) : l.takeWhile p = l.takeWhile q := by
  rw [← List.reverse_inj, ← List.rtakeWhile_reverse, ← List.rtakeWhile_reverse]
  refine rtakeWhile_eq_of_all (fun c hc ↦ h c ?_) hpq
  rwa [List.rtakeWhile_reverse, List.mem_reverse] at hc

/-- A run is not empty, and of characters of the kind. -/
theorem mem_runAt {ident : List Char} (h : runAt p before after = some ident) :
    ident ≠ [] ∧ ∀ c ∈ ident, p c = true := by
  unfold runAt at h
  split at h
  · split_ifs at h with hne
    obtain rfl := Option.some.inj h
    exact ⟨hne, fun c ↦ List.mem_rtakeWhile_imp⟩
  · split_ifs at h with hp
    obtain rfl := Option.some.inj h
    refine ⟨by rw [List.takeWhile_cons_of_pos hp]; simp, fun c hc ↦ ?_⟩
    exact (List.mem_append.1 hc).elim List.mem_rtakeWhile_imp List.mem_takeWhile_imp

/-- A run of fewer characters lies in a run. -/
theorem exists_runAt (hpq : ∀ c, p c = true → q c = true) {token : List Char}
    (h : runAt p before after = some token) : ∃ ident, runAt q before after = some ident := by
  unfold runAt at h ⊢
  split at h
  · split_ifs at h with hne
    refine ⟨_, if_neg fun hnil ↦ hne ?_⟩
    rw [← hnil]
    exact rtakeWhile_eq_of_all (by rw [hnil]; nofun) hpq
  · split_ifs at h with hp
    exact ⟨_, if_pos (hpq _ hp)⟩

/-- A run whose characters all are among the fewer. -/
theorem runAt_eq_of_all (hpq : ∀ c, p c = true → q c = true) {ident : List Char}
    (h : runAt q before after = some ident) (hall : ∀ c ∈ ident, p c = true) :
    runAt p before after = some ident := by
  unfold runAt at h ⊢
  split at h
  · split_ifs at h with hne
    obtain rfl := Option.some.inj h
    rw [rtakeWhile_eq_of_all hall hpq, if_neg hne]
  · rename_i c rest
    split_ifs at h with hq
    obtain rfl := Option.some.inj h
    obtain ⟨hbefore, hafter⟩ := List.forall_mem_append.1 hall
    have hp : p c = true := hafter c (by rw [List.takeWhile_cons_of_pos hq]; simp)
    rw [if_pos hp, rtakeWhile_eq_of_all hbefore hpq, takeWhile_eq_of_all hafter hpq]

/-- When the check passes, told by the run of the bytes. -/
theorem verify_ok_iff (before after : List Char) (expectedSymbolName : String) :
    verifyExpectedSymbolAtPosition (before ++ after) (byteLen before) expectedSymbolName = .ok () ↔
      runAt isAsciiIdent before after = some (expectedSegment expectedSymbolName) := by
  unfold verifyExpectedSymbolAtPosition
  rw [identifierAtOffset_eq]
  dsimp only
  split_ifs with hempty
  · exact iff_of_false nofun fun h ↦ (mem_runAt h).1 hempty
  · rcases runAt isAsciiIdent before after with - | token
    · exact iff_of_false nofun nofun
    · dsimp only
      split_ifs with hne
      · exact iff_of_false nofun fun h ↦ hne (Option.some.inj h)
      · exact iff_of_true rfl (congrArg some (not_not.1 hne))

/-- **When the check is right.** `isIdent` are Unicode's characters of identifiers, and the
underscore. The check succeeds exactly if the identifier at the position is the expected one, just
when that identifier is ASCII or the expected name is neither it nor its ASCII part around the
position. -/
theorem verifyExpectedSymbolAtPosition_iff {xidContinue : Char → Bool}
    (hxid : ∀ c : Char, c.toNat < 128 →
      isIdentChar xidContinue c = isRustIdentByte (.ofNat c.toNat))
    (before after : List Char) (expectedSymbolName : String) :
    ((verifyExpectedSymbolAtPosition (before ++ after) (byteLen before) expectedSymbolName =
        .ok () ↔
      runAt (isIdentChar xidContinue) before after = some (expectedSegment expectedSymbolName)) ↔
    ∀ ident, runAt (isIdentChar xidContinue) before after = some ident →
      (∀ c ∈ ident, c.toNat < 128) ∨ (expectedSegment expectedSymbolName ≠ ident ∧
        runAt isAsciiIdent before after ≠ some (expectedSegment expectedSymbolName))) := by
  have hascii : ∀ c, isAsciiIdent c = true → c.toNat < 128 := fun c hc ↦
    of_decide_eq_true (Bool.and_eq_true_iff.1 hc).1
  have hpq : ∀ c, isAsciiIdent c = true → isIdentChar xidContinue c = true := fun c hc ↦
    (hxid c (hascii c hc)).trans (Bool.and_eq_true_iff.1 hc).2
  have hsame : ∀ ident, runAt (isIdentChar xidContinue) before after = some ident →
      (∀ c ∈ ident, c.toNat < 128) → runAt isAsciiIdent before after = some ident := by
    intro ident hrun hall
    refine runAt_eq_of_all hpq hrun fun c hc ↦ ?_
    rw [isAsciiIdent, Utf8.onChar, decide_eq_true (hall c hc), ← hxid c (hall c hc),
      (mem_runAt hrun).2 c hc]
    rfl
  rw [verify_ok_iff]
  constructor
  · intro hiff ident hrun
    by_cases hall : ∀ c ∈ ident, c.toNat < 128
    · exact .inl hall
    · refine .inr ⟨fun heq ↦ hall ?_, fun htoken ↦ hall ?_⟩
      · have htoken := hiff.2 (heq ▸ hrun)
        exact fun c hc ↦ hascii c ((mem_runAt htoken).2 c (heq ▸ hc))
      · obtain rfl := Option.some.inj ((hiff.1 htoken).symm.trans hrun)
        exact fun c hc ↦ hascii c ((mem_runAt htoken).2 c hc)
  · intro hcond
    constructor
    · intro htoken
      obtain ⟨ident, hrun⟩ := exists_runAt hpq htoken
      rcases hcond ident hrun with hall | ⟨-, hother⟩
      · rw [hrun, ← hsame ident hrun hall, htoken]
      · exact absurd htoken hother
    · intro hrun
      rcases hcond _ hrun with hall | ⟨hother, -⟩
      · exact hsame _ hrun hall
      · exact absurd rfl hother

/-- The letters and digits of a small text. -/
def sampleXid (c : Char) : Bool :=
  c.isAlphanum || c == 'ï'

theorem sampleXid_ascii (c : Char) (h : c.toNat < 128) :
    isIdentChar sampleXid c = isRustIdentByte (.ofNat c.toNat) := by
  have hall : ∀ n : Fin 128, isIdentChar sampleXid (Char.ofNat n) =
      isRustIdentByte (.ofNat (Char.ofNat n).toNat) := by
    decide
  have hc := hall ⟨c.toNat, h⟩
  rwa [Char.ofNat_toNat] at hc

/-- The check accepts `na` at the start of `naïve`. -/
theorem part_accepted :
    runAt (isIdentChar sampleXid) [] "naïve = 1".toList = some "naïve".toList ∧
      ¬(verifyExpectedSymbolAtPosition "naïve = 1".toList 0 "crate::na" = .ok () ↔
        runAt (isIdentChar sampleXid) [] "naïve = 1".toList =
          some (expectedSegment "crate::na")) := by
  decide +kernel

theorem verifyExpectedSymbolAtPosition_let :
    verifyExpectedSymbolAtPosition ("let ".toList ++ "ab = naïve".toList) (byteLen "let ".toList)
        "m::ab" = .ok () ↔
      runAt (isIdentChar sampleXid) "let ".toList "ab = naïve".toList =
        some (expectedSegment "m::ab") :=
  (verifyExpectedSymbolAtPosition_iff sampleXid_ascii _ _ _).2 fun ident h ↦ by
    have hrun : runAt (isIdentChar sampleXid) "let ".toList "ab = naïve".toList =
        some "ab".toList := by decide +kernel
    obtain rfl := Option.some.inj (hrun.symm.trans h)
    refine .inl fun c hc ↦ ?_
    rcases List.mem_pair.1 hc with rfl | rfl <;> decide

end RustCodeMcp.Rename
