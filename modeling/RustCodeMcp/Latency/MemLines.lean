import Mathlib.Data.List.Chain
import RustCodeMcp.Latency.Log

/-!
# Lines of operations

Every measured operation is written by one format string with free text in the middle. It is read
back whatever the directory holds (`parseLog_line`): the last ` took ` is the writer's, since no
two `o` stand side by side in what it writes after it (`Plain`), and so is the last ` (`.

The label of an operation is written first, then ` took `, the seconds, and the readings of the
process's memory; the line begins with the time, the process and the target. The reader looks for
the last ` took ` and the last ` (`, so the question is what can follow the writer's own: digits,
signs and fixed words, none of which spells either of them.

A label may hold anything but a line break. The name of a tool holds no blank, since the directory
comes after the first one.
-/

namespace RustCodeMcp.ToolLatency

open Numerals Separators

/-! ### The writer -/

/-- Text without a line break. -/
abbrev OneLine := {text : List Char // '\n' ∉ text}

/-- Text without a line break or a blank. -/
abbrev Word := {text : List Char // '\n' ∉ text ∧ ' ' ∉ text}

/-- How much of a project a load takes in. -/
inductive LoadKind
  | fast
  | full

/-- Its name, as a line has it. -/
def LoadKind.debug : LoadKind → List Char
  | .fast => "Fast".toList
  | .full => "Full".toList

/-- An operation that is measured, with what its label names. -/
inductive Operation
  | tool (name : Word) (directory : Option OneLine)
  | backgroundSync (dir : OneLine)
  | maintenance (workspace : OneLine)
  | indexChanges (codebasePath : OneLine) (added modified deleted : ℕ)
  | analysisLoad (requested : LoadKind) (canonical : OneLine)
  | indexBuild (dirPath : OneLine)

namespace Operation

/-- What a changed sync counts. -/
def counts (added modified deleted : ℕ) : List Char :=
  Nat.toDigits 10 added ++ (" added, ".toList ++ (Nat.toDigits 10 modified ++
    (" modified, ".toList ++ (Nat.toDigits 10 deleted ++ " deleted)".toList))))

/-- The label of an operation. -/
def label : Operation → List Char
  | tool name none => "tool ".toList ++ name.1
  | tool name (some directory) => "tool ".toList ++ (name.1 ++ ' ' :: directory.1)
  | backgroundSync dir => "background sync of ".toList ++ dir.1
  | maintenance workspace => "vector store maintenance of ".toList ++ workspace.1
  | indexChanges codebasePath added modified deleted =>
    "index changes of ".toList ++ (codebasePath.1 ++ (" (".toList ++ counts added modified deleted))
  | analysisLoad requested canonical =>
    "analysis load ".toList ++ (requested.debug ++ (" of ".toList ++ canonical.1))
  | indexBuild dirPath => "index build of ".toList ++ dirPath.1

/-- The kind that the reader is to find. -/
def kind : Operation → Kind
  | tool name _ => .tool name.1
  | backgroundSync _ => .sync
  | maintenance _ => .maintenance
  | indexChanges .. => .indexChanges
  | analysisLoad .. => .analysisLoad
  | indexBuild _ => .indexBuild

/-- The directory that the reader is to find. -/
def directory : Operation → Option Dir
  | tool _ directory => directory.map (·.1)
  | backgroundSync dir => some dir.1
  | maintenance workspace => some workspace.1
  | indexChanges codebasePath .. => some codebasePath.1
  | analysisLoad _ canonical => some canonical.1
  | indexBuild dirPath => some dirPath.1

end Operation

/-- The memory of a process, now and at its peak. -/
structure MemReading where
  rssKib : Option UInt64
  peakKib : Option UInt64

/-- Kibibytes as whole mebibytes. -/
def mb (kib : Option UInt64) : List Char :=
  match kib with
  | some k => Nat.toDigits 10 (k / 1024).toNat
  | none => "unknown".toList

/-- With its sign, also a plus. -/
def signed (n : Int64) : List Char :=
  (if n.toInt < 0 then '-' else '+') :: Nat.toDigits 10 n.toInt.natAbs

/-- An operation going on: its label, and the memory when it began. -/
structure MemSpan where
  what : List Char
  start : MemReading

namespace MemSpan

/-- How much the memory has changed by. -/
def delta (span : MemSpan) (stop : MemReading) : List Char :=
  match span.start.rssKib, stop.rssKib with
  | some a, some b => " (".toList ++ (signed ((b.toInt64 - a.toInt64) / 1024) ++ ")".toList)
  | _, _ => []

/-- Whether the peak is a new one. -/
def newPeak (span : MemSpan) (stop : MemReading) : List Char :=
  match span.start.peakKib, stop.peakKib with
  | some a, some b => if b > a then " (new)".toList else []
  | _, _ => []

/-- What stands after the duration. -/
def readings (span : MemSpan) (stop : MemReading) (suffix : List Char) : List Char :=
  "s, RSS ".toList ++ (mb span.start.rssKib ++ (" -> ".toList ++ (mb stop.rssKib ++ (" MB".toList ++
    (span.delta stop ++ (", peak ".toList ++ (mb stop.peakKib ++ (" MB".toList ++
      (span.newPeak stop ++ suffix)))))))))

/-- The elapsed time is given in nanoseconds. -/
def log (span : MemSpan) (elapsed : ℕ) (stop : MemReading) (suffix : List Char) : List Char :=
  "mem: ".toList ++ (span.what ++ (" took ".toList ++
    (oneDecimal (elapsed / 10 ^ 9) ++ span.readings stop suffix)))

end MemSpan

/-- The end of a line of an operation that was not finished. -/
def endedEarly : List Char :=
  " [ended early: error or cancellation]".toList

/-- The line of a message in the log of a process. -/
def logLine (stamp : Stamp) (pid : UInt32) (message : List Char) : List Char :=
  stamp.text ++ ' ' :: ('[' :: (Nat.toDigits 10 pid.toNat ++ ']' ::
    ("  INFO rmc_mem: ".toList ++ message)))

/-! ### Text without two `o` -/

/-- No two `o` stand side by side in the text, and none is the first character. -/
def Plain (text : List Char) : Prop :=
  text.IsChain (fun a b ↦ ¬ (a = 'o' ∧ b = 'o')) ∧ text.head? ≠ some 'o'

/-- Texts that are plain are so one after the other. -/
theorem Plain.append {a b : List Char} (ha : Plain a) (hb : Plain b) : Plain (a ++ b) := by
  refine ⟨List.isChain_append.2 ⟨ha.1, hb.1, ?_⟩, ?_⟩
  · rintro x - y hy ⟨-, rfl⟩
    exact hb.2 hy
  · cases a with
    | nil => exact hb.2
    | cons c a => exact ha.2

theorem plain_of_notMem {text : List Char} (h : 'o' ∉ text) : Plain text := by
  refine ⟨List.Pairwise.isChain (List.pairwise_of_forall_mem_list fun a ha _ _ ⟨hab, _⟩ ↦ ?_), ?_⟩
  · exact h (hab ▸ ha)
  · exact fun hhead ↦ h (List.mem_of_head? hhead)

theorem plain_toDigits (n : ℕ) : Plain (Nat.toDigits 10 n) :=
  plain_of_notMem ((ofNat n).notMem (by decide))

theorem plain_mb (kib : Option UInt64) : Plain (mb kib) := by
  cases kib with
  | none => exact ⟨by decide, by decide⟩
  | some k => exact plain_toDigits _

theorem plain_oneDecimal (q : ℚ) : Plain (oneDecimal q) := by
  rw [oneDecimal]
  refine Plain.append (Plain.append ?_ (plain_toDigits _))
    (Plain.append (a := ['.']) ⟨by decide, by decide⟩ (plain_toDigits _))
  split_ifs
  · exact ⟨by decide, by decide⟩
  · exact ⟨by decide, by decide⟩

theorem plain_readings (span : MemSpan) (stop : MemReading) {suffix : List Char}
    (h : Plain suffix) : Plain (span.readings stop suffix) := by
  have hdelta : Plain (span.delta stop) := by
    rw [MemSpan.delta]
    split
    · refine .append ⟨by decide, by decide⟩ (.append ?_ ⟨by decide, by decide⟩)
      refine plain_of_notMem ?_
      rw [signed, List.mem_cons, not_or]
      refine ⟨?_, (ofNat _).notMem (by decide)⟩
      split_ifs <;> decide
    · exact ⟨by decide, by decide⟩
  have hpeak : Plain (span.newPeak stop) := by
    rw [MemSpan.newPeak]
    split
    · split_ifs
      · exact ⟨by decide, by decide⟩
      · exact ⟨by decide, by decide⟩
    · exact ⟨by decide, by decide⟩
  exact .append ⟨by decide, by decide⟩ (.append (plain_mb _) (.append ⟨by decide, by decide⟩
    (.append (plain_mb _) (.append ⟨by decide, by decide⟩ (.append hdelta
      (.append ⟨by decide, by decide⟩ (.append (plain_mb _) (.append ⟨by decide, by decide⟩
        (.append hpeak h)))))))))

/-- The separator does not stand in what the writer puts after its first character. -/
theorem not_infix_took {after : List Char} (h : Plain after) :
    ¬ " took ".toList <:+: "took ".toList ++ after := by
  intro hinfix
  have hspace : " took ".toList <:+: ' ' :: after :=
    infix_of_head_ne (by decide) (infix_of_head_ne (by decide) (infix_of_head_ne (by decide)
      (infix_of_head_ne (by decide) hinfix)))
  obtain hprefix | hafter := List.infix_cons_iff.1 hspace
  · obtain ⟨rest, rfl⟩ := (List.cons_prefix_cons.1 hprefix).2
    exact absurd (List.isChain_append.1 h.1).1 (by decide)
  · obtain ⟨first, rest, rfl⟩ := hafter
    exact absurd (List.isChain_append.1 (List.isChain_append.1 h.1).1).2.1 (by decide)

theorem not_infix_paren {after : List Char} (h : '(' ∉ after) :
    ¬ " (".toList <:+: "(".toList ++ after := by
  intro hinfix
  have hafter : " (".toList <:+: after := infix_of_head_ne (by decide) hinfix
  exact h (hafter.subset (List.mem_cons_of_mem _ List.mem_cons_self))

/-! ### The reader on what the writer writes -/

theorem notMem_toDigits (n : ℕ) {c : Char} (hc : c.isDigit = false) : c ∉ Nat.toDigits 10 n :=
  (ofNat n).notMem hc

namespace Operation

theorem notMem_counts (added modified deleted : ℕ) : '(' ∉ counts added modified deleted := by
  have hdigits : ∀ n, '(' ∉ Nat.toDigits 10 n := fun n ↦ notMem_toDigits n (by decide)
  simp [counts, hdigits]

/-- **A label is read as what it is the label of**, whatever its directory holds. -/
theorem parseWhat_label (op : Operation) : parseWhat op.label = some (op.kind, op.directory) := by
  match op with
  | tool name none =>
    show parseWhat ("tool ".toList ++ name.1) = _
    rw [parseWhat, stripPrefix_append]
    dsimp only
    rw [Fields.splitOnce_of_notMem name.2.2]
    rfl
  | tool name (some directory) =>
    show parseWhat ("tool ".toList ++ (name.1 ++ ' ' :: directory.1)) = _
    rw [parseWhat, stripPrefix_append]
    dsimp only
    rw [Fields.splitOnce_append name.2.2]
    rfl
  | backgroundSync dir => rfl
  | maintenance workspace => rfl
  | indexChanges codebasePath added modified deleted =>
    have hdir := rsplitOnce_append (not_infix_paren (notMem_counts added modified deleted))
      codebasePath.1
    show some (Kind.indexChanges, (rsplitOnce " (".toList (codebasePath.1 ++
      (" (".toList ++ counts added modified deleted))).bind _) = _
    exact congrArg (fun dir : Option (Dir × List Char) ↦ some (Kind.indexChanges, dir.bind _)) hdir
  | analysisLoad requested canonical =>
    cases requested with
    | fast => rfl
    | full => rfl
  | indexBuild dirPath => rfl

end Operation

/-- What a `mem:` line says after the duration does not matter. -/
theorem parseMem_append (op : Operation) {q : ℚ} (hq : 0 ≤ q) {rest : List Char}
    (hrest : Plain ("s,".toList ++ rest)) :
    parseMem (op.label ++ (" took ".toList ++ (oneDecimal q ++ ("s,".toList ++ rest)))) =
      some (op.kind, op.directory, (roundHalfEven (10 * q) : ℚ) / 10) := by
  have htook : rsplitOnce " took ".toList
      (op.label ++ (" took ".toList ++ (oneDecimal q ++ ("s,".toList ++ rest)))) =
        some (op.label, oneDecimal q ++ ("s,".toList ++ rest)) :=
    rsplitOnce_append (not_infix_took ((plain_oneDecimal q).append hrest)) op.label
  have hsecs : splitOnce "s,".toList (oneDecimal q ++ ("s,".toList ++ rest)) =
      some (oneDecimal q, rest) :=
    splitOnce_append (notMem_oneDecimal q (by decide) (by decide) (by decide)) [','] rest
  rw [parseMem, htook]
  dsimp only [Option.bind_eq_bind, Option.bind_some]
  rw [hsecs]
  dsimp only [Option.bind_some]
  rw [parseDecimal_oneDecimal hq, op.parseWhat_label]
  rfl

/-- The number of a process is read back. -/
theorem parseU32_toDigits (pid : UInt32) :
    parseU32 (Nat.toDigits 10 pid.toNat) = some pid.toNat := by
  have hplus : ∀ rest, Nat.toDigits 10 pid.toNat ≠ '+' :: rest := fun rest h ↦
    notMem_toDigits pid.toNat (c := '+') (by decide) (h ▸ List.mem_cons_self)
  have hparse : parseNat (Nat.toDigits 10 pid.toNat) = some pid.toNat := by
    have hdigits := parseNat_digits (ofNat pid.toNat)
    rwa [value_ofNat] at hdigits
  rw [parseU32, hparse, Option.filter_some, if_pos (decide_eq_true pid.toNat_lt)]
  exact hplus

/-- A line is taken apart into its time, its process and the rest. -/
theorem splitLine_logLine (stamp : Stamp) (pid : UInt32) (message : List Char) {time : ℚ}
    (htime : parseTimestamp stamp.text = some time) :
    splitLine (logLine stamp pid message) =
      some (time, pid.toNat, "  INFO rmc_mem: ".toList ++ message) := by
  have hpid := Fields.splitOnce_append (notMem_toDigits pid.toNat (c := ']') (by decide))
    ("  INFO rmc_mem: ".toList ++ message)
  have hbracket : ∀ tail, ('[' :: tail).dropWhile isWhiteSpace = '[' :: tail := fun tail ↦
    List.dropWhile_cons_of_neg (by decide)
  rw [splitLine, logLine, Fields.splitOnce_append (stamp.notMem_text (by decide) (by decide))]
  dsimp only [Option.bind_eq_bind, Option.bind_some]
  rw [htime, hbracket]
  dsimp only [Option.bind_some]
  show (Fields.splitOnce ']' (Nat.toDigits 10 pid.toNat ++ ']' :: _)).bind _ = _
  rw [hpid]
  dsimp only [Option.bind_some]
  rw [parseU32_toDigits]
  rfl

/-! ### One line of a log -/

/-- A line that is ended by a line feed. -/
theorem linesFrom_eq {line : List Char} (h : '\n' ∉ line) (rest read : List Char) :
    linesFrom (line ++ '\n' :: rest) read =
      lineText (line.reverse ++ read) :: linesFrom rest [] := by
  induction line generalizing read with
  | nil => rfl
  | cons c line ih =>
    obtain ⟨hc, hline⟩ := not_or.1 (List.mem_cons.not.1 h)
    rw [List.cons_append, linesFrom, ih hline, List.reverse_cons, List.append_assoc]
    · rfl
    · exact Ne.symm hc

theorem linesFrom_last {line : List Char} (h : '\n' ∉ line) {read : List Char}
    (hne : line.reverse ++ read ≠ []) :
    linesFrom line read = [String.ofList (line.reverse ++ read).reverse] := by
  induction line generalizing read with
  | nil => cases read with
    | nil => exact absurd rfl hne
    | cons c read => rfl
  | cons c line ih =>
    obtain ⟨hc, hline⟩ := not_or.1 (List.mem_cons.not.1 h)
    rw [List.reverse_cons, List.append_assoc] at hne ⊢
    rw [linesFrom]
    · exact ih hline hne
    · exact Ne.symm hc

/-- A line keeps its text, unless it ends with a carriage return. -/
theorem lineText_reverse {line : List Char} (h : line.getLast? ≠ some '\r') :
    lineText line.reverse = String.ofList line := by
  rw [← List.head?_reverse] at h
  rw [lineText, List.reverse_reverse]
  intro rest heq
  rw [heq] at h
  exact h rfl

/-- One line is read as it is, with a line feed at its end or without. -/
theorem lines_line {line : List Char} (hne : line ≠ []) (h : '\n' ∉ line)
    (hreturn : line.getLast? ≠ some '\r') (newline : Bool) :
    lines (String.ofList (line ++ if newline then ['\n'] else [])) = [String.ofList line] := by
  rw [lines, String.toList_ofList]
  cases newline with
  | true =>
    show linesFrom (line ++ '\n' :: []) [] = _
    rw [linesFrom_eq h, List.append_nil, lineText_reverse hreturn]
    rfl
  | false =>
    show linesFrom (line ++ []) [] = _
    have hread : line.reverse ++ [] ≠ [] := by simpa using hne
    rw [List.append_nil, linesFrom_last h hread, List.append_nil, List.reverse_reverse]

namespace Operation

/-- A label is on one line. -/
theorem newline_notMem_label (op : Operation) : '\n' ∉ op.label := by
  have hdigits : ∀ n, '\n' ∉ Nat.toDigits 10 n := fun n ↦ notMem_toDigits n (by decide)
  match op with
  | tool name none => exact List.not_mem_append (by decide) name.2.1
  | tool name (some directory) =>
    exact List.not_mem_append (by decide) (List.not_mem_append name.2.1
      (List.not_mem_cons_of_ne_of_not_mem (by decide) directory.2))
  | backgroundSync dir => exact List.not_mem_append (by decide) dir.2
  | maintenance workspace => exact List.not_mem_append (by decide) workspace.2
  | indexChanges codebasePath added modified deleted =>
    exact List.not_mem_append (by decide) (List.not_mem_append codebasePath.2
      (List.not_mem_append (by decide) (List.not_mem_append (hdigits _)
        (List.not_mem_append (by decide) (List.not_mem_append (hdigits _)
          (List.not_mem_append (by decide) (List.not_mem_append (hdigits _) (by decide))))))))
  | analysisLoad requested canonical =>
    refine List.not_mem_append (by decide) (List.not_mem_append ?_
      (List.not_mem_append (by decide) canonical.2))
    cases requested <;> decide
  | indexBuild dirPath => exact List.not_mem_append (by decide) dirPath.2

end Operation

/-- The characters of what the writer puts around the readings. -/
def alphabet : List Char :=
  "s, RSS unknown -> MB (+-), peak [ended early: error or cancellation]".toList

/-- What the readings are written with. -/
theorem notMem_readings {c : Char} (hdigit : c.isDigit = false) (h : c ∉ alphabet)
    (span : MemSpan) (stop : MemReading) {suffix : List Char} (hsuffix : suffix ⊆ alphabet) :
    c ∉ span.readings stop suffix := by
  have hfixed : ∀ {text : List Char}, text ⊆ alphabet → c ∉ text := fun hsubset hmem ↦
    h (hsubset hmem)
  have hmb : ∀ kib, c ∉ mb kib := by
    intro kib
    cases kib with
    | none => exact hfixed (by decide +kernel)
    | some k => exact notMem_toDigits _ hdigit
  have hsigned : ∀ n, c ∉ signed n := by
    intro n
    have hsign : [if n.toInt < 0 then '-' else '+'] ⊆ alphabet := by
      by_cases hneg : n.toInt < 0
      · rw [if_pos hneg]
        decide +kernel
      · rw [if_neg hneg]
        decide +kernel
    exact List.not_mem_append (s := [_]) (hfixed hsign) (notMem_toDigits _ hdigit)
  have hdelta : c ∉ span.delta stop := by
    rw [MemSpan.delta]
    split
    · exact List.not_mem_append (hfixed (by decide +kernel))
        (List.not_mem_append (hsigned _) (hfixed (by decide +kernel)))
    · exact List.not_mem_nil
  have hpeak : c ∉ span.newPeak stop := by
    rw [MemSpan.newPeak]
    split
    · split_ifs
      · exact hfixed (by decide +kernel)
      · exact List.not_mem_nil
    · exact List.not_mem_nil
  exact List.not_mem_append (hfixed (by decide +kernel)) (List.not_mem_append (hmb _)
    (List.not_mem_append (hfixed (by decide +kernel)) (List.not_mem_append (hmb _)
      (List.not_mem_append (hfixed (by decide +kernel)) (List.not_mem_append hdelta
        (List.not_mem_append (hfixed (by decide +kernel)) (List.not_mem_append (hmb _)
          (List.not_mem_append (hfixed (by decide +kernel)) (List.not_mem_append hpeak
            (hfixed hsuffix))))))))))

theorem newline_notMem_log (op : Operation) (start stop : MemReading) (elapsed : ℕ)
    {suffix : List Char} (hsuffix : suffix ⊆ alphabet) :
    '\n' ∉ (MemSpan.mk op.label start).log elapsed stop suffix :=
  List.not_mem_append (by decide) (List.not_mem_append op.newline_notMem_label
    (List.not_mem_append (by decide) (List.not_mem_append
      (notMem_oneDecimal _ (by decide) (by decide) (by decide))
        (notMem_readings (by decide) (by decide +kernel) _ _ hsuffix))))

theorem newline_notMem_logLine (stamp : Stamp) (pid : UInt32) {message : List Char}
    (h : '\n' ∉ message) : '\n' ∉ logLine stamp pid message :=
  have hmessage : '\n' ∉ ']' :: ("  INFO rmc_mem: ".toList ++ message) :=
    List.not_mem_cons_of_ne_of_not_mem (by decide) (List.not_mem_append (by decide) h)
  List.not_mem_append (stamp.notMem_text (by decide) (by decide))
    (List.not_mem_cons_of_ne_of_not_mem (by decide) (List.not_mem_cons_of_ne_of_not_mem (by decide)
      (List.not_mem_append (notMem_toDigits _ (by decide)) hmessage)))

/-- The last character of a line is one of what the writer puts after the duration. -/
theorem getLast?_logLine (stamp : Stamp) (pid : UInt32) (span : MemSpan) (elapsed : ℕ)
    (stop : MemReading) {suffix : List Char} (hsuffix : suffix ⊆ alphabet) :
    (logLine stamp pid (span.log elapsed stop suffix)).getLast? ≠ some '\r' := by
  have hreadings : '\r' ∉ span.readings stop suffix :=
    notMem_readings (by decide) (by decide +kernel) _ _ hsuffix
  have hne : span.readings stop suffix ≠ [] := List.append_ne_nil_of_left_ne_nil (by decide) _
  have hlog : span.readings stop suffix <:+ span.log elapsed stop suffix :=
    (((List.suffix_append _ _).trans (List.suffix_append _ _)).trans
      (List.suffix_append _ _)).trans (List.suffix_append _ _)
  have hmessage : ∀ message, message <:+ logLine stamp pid message := fun message ↦
    (((((List.suffix_append _ message).trans (List.suffix_cons _ _)).trans
      (List.suffix_append _ _)).trans (List.suffix_cons _ _)).trans (List.suffix_cons _ _)).trans
        (List.suffix_append _ _)
  obtain ⟨before, hline⟩ := hlog.trans (hmessage _)
  rw [← hline, List.getLast?_append_of_ne_nil _ hne]
  exact fun hlast ↦ hreadings (List.mem_of_getLast? hlast)

/-- One such line adds its span. -/
theorem scanLine_logLine (op : Operation) (start stop : MemReading) (elapsed : ℕ)
    {suffix : List Char} (hsuffix : Plain suffix) (stamp : Stamp) (pid : UInt32) {time : ℚ}
    (htime : parseTimestamp stamp.text = some time) (scan : Scan) :
    scanLine scan (logLine stamp pid ((MemSpan.mk op.label start).log elapsed stop suffix)) =
      { scan with spans := scan.spans ++ [⟨pid.toNat, op.kind, op.directory,
        time - (roundHalfEven (10 * (elapsed / 10 ^ 9)) : ℚ) / 10, time⟩] } := by
  have hsecs : (0 : ℚ) ≤ elapsed / 10 ^ 9 := by positivity
  have hplain := plain_readings (MemSpan.mk op.label start) stop hsuffix
  have hreadings : (MemSpan.mk op.label start).readings stop suffix =
      "s,".toList ++ ((MemSpan.mk op.label start).readings stop suffix).drop 2 := rfl
  rw [hreadings] at hplain
  have hmem := parseMem_append op hsecs hplain
  rw [← hreadings] at hmem
  have hsplit : splitOnce " mem: ".toList ("  INFO rmc_mem: ".toList ++
      (MemSpan.mk op.label start).log elapsed stop suffix) = some ("  INFO rmc_mem:".toList,
        op.label ++ (" took ".toList ++ (oneDecimal (elapsed / 10 ^ 9) ++
          (MemSpan.mk op.label start).readings stop suffix))) := rfl
  have htarget : contains "rmc_mem:".toList ("  INFO rmc_mem: ".toList ++
      (MemSpan.mk op.label start).log elapsed stop suffix) = true := rfl
  rw [scanLine, splitLine_logLine stamp pid _ htime]
  dsimp only
  rw [hsplit]
  dsimp only
  rw [if_pos htarget, hmem]

/-- A directory that is known stays. -/
theorem Operation.attributed_eq (op : Operation) (pid : ℕ) (startAt endAt : ℚ)
    (owners : List Span) : attributed owners ⟨pid, op.kind, op.directory, startAt, endAt⟩ =
      ⟨pid, op.kind, op.directory, startAt, endAt⟩ := by
  match op with
  | tool name none => rfl
  | tool name (some directory) => rfl
  | backgroundSync dir => rfl
  | maintenance workspace => rfl
  | indexChanges codebasePath added modified deleted => rfl
  | analysisLoad requested canonical => rfl
  | indexBuild dirPath => rfl

theorem parsed_single {span : Span} (h : ∀ owners, attributed owners span = span) :
    ({ Scan.start with spans := Scan.start.spans ++ [span] } : Scan).parsed = ⟨[span], 0, 0⟩ := by
  show (⟨sortByEnd [attributed _ span], 0, 0⟩ : Parsed) = _
  rw [h, sortByEnd, List.mergeSort_singleton]

/-- **Every line of an operation is read as that operation**, with its directory, the time of the
line as its end and the printed duration as its length. -/
theorem parseLog_line (op : Operation) (start stop : MemReading) (elapsed : ℕ)
    (early newline : Bool) (stamp : Stamp) (pid : UInt32) :
    ∃ time secs, parseTimestamp stamp.text = some time ∧
      parseDecimal (oneDecimal (elapsed / 10 ^ 9)) = some secs ∧
      parseLog (String.ofList (logLine stamp pid ((MemSpan.mk op.label start).log elapsed stop
        (if early then endedEarly else [])) ++ if newline then ['\n'] else [])) =
        ⟨[⟨pid.toNat, op.kind, op.directory, time - secs, time⟩], 0, 0⟩ := by
  have htime := stamp.parseTimestamp_text
  have hsecs : (0 : ℚ) ≤ elapsed / 10 ^ 9 := by positivity
  refine ⟨_, _, htime, parseDecimal_oneDecimal hsecs, ?_⟩
  generalize 86400 * (days stamp.date : ℚ) + stamp.ofDay = time at htime
  have hsuffix : (if early then endedEarly else []) ⊆ alphabet := by
    cases early <;> decide +kernel
  have hplain : Plain (if early then endedEarly else []) := by
    cases early <;> exact ⟨by decide +kernel, by decide +kernel⟩
  generalize (if early then endedEarly else []) = suffix at hsuffix hplain
  have hne : logLine stamp pid ((MemSpan.mk op.label start).log elapsed stop suffix) ≠ [] :=
    List.append_ne_nil_of_right_ne_nil _ (List.cons_ne_nil _ _)
  have hlines := lines_line hne
    (newline_notMem_logLine stamp pid (newline_notMem_log op start stop elapsed hsuffix))
    (getLast?_logLine stamp pid _ elapsed stop hsuffix) newline
  have hscan := scanLine_logLine op start stop elapsed hplain stamp pid htime .start
  rw [parseLog, scanText, hlines, List.map_singleton, String.toList_ofList, List.foldl_cons,
    List.foldl_nil, hscan]
  exact parsed_single (op.attributed_eq pid.toNat _ time)

end RustCodeMcp.ToolLatency
