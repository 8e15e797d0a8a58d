import RustCodeMcp.Latency.Log
import RustCodeMcp.Order.Rearranged

/-!
# Logs read file by file

Two texts read one by one give what they give together where neither needs a line of the other: no
pair is opened in the first and closed in the second, no process has measured lines of a kind in
one and pairs of that kind in the other, and no line without a directory has its innermost owner
in the other (`absorb_parseLog_iff`).

The proof follows the scan. What a line does to the lines held open depends on its pair and its
process alone (`settle`), so that a text can be read pair by pair and process by process: its lines
for one of them are a list of marks. Two lists of marks give the same spans apart and joined exactly
if the second needs nothing that the first left open.

Directories are looked for afterwards, among the owners of the whole: reading two texts together can
only bring a line closer owners, and it matters when those are of another directory.
-/

namespace RustCodeMcp.ToolLatency

open Rearranged Separators

/-! ### What a line says -/

/-- The span of a `mem:` line. -/
def measured (line : List Char) : Option Span := do
  let (time, pid, rest) ← splitLine line
  let (_, what) ← splitOnce " mem: ".toList rest
  if contains "rmc_mem:".toList rest then
    let (kind, workspace, secs) ← parseMem what
    return ⟨pid, kind, workspace, time - secs, time⟩
  else none

/-- A line of a pair: the time, and the directory of an opening line. -/
abbrev Mark := ℚ × Option Dir

/-- An opening line names its directory. -/
def Mark.isOpening (mark : Mark) : Bool :=
  mark.2.isSome

/-- What a line is for a pair: an opening, which is tried first, or a closing. -/
def TextPair.mark (pair : TextPair) (time : ℚ) (rest : List Char) : Option Mark :=
  match pair.opens rest with
  | some dir => some (time, some (trimmed (String.ofList dir)))
  | none => if pair.closes rest then some (time, none) else none

/-- The mark of a line of a process for a pair. -/
def markOf (pair : TextPair) (pid : ℕ) (line : List Char) : Option Mark := do
  let (time, writer, rest) ← splitLine line
  if writer = pid && (splitOnce " mem: ".toList rest).isNone then pair.mark time rest else none

/-! ### What the texts need of each other -/

/-- The lines of a text. -/
def linesOf (text : String) : List (List Char) :=
  (lines text).map String.toList

/-- The spans that a text measures. -/
def measuredIn (text : String) : List Span :=
  (linesOf text).filterMap measured

/-- The lines of a pair and a process in a text. -/
def marksIn (pair : TextPair) (pid : ℕ) (text : String) : List Mark :=
  (linesOf text).filterMap (markOf pair pid)

/-- The process writes the `mem:` lines of the kind itself. -/
def measures (kind : Kind) (pid : ℕ) (text : String) : Bool :=
  (measuredIn text).any fun span ↦ (span.kind, span.pid) = (kind, pid)

/-- The last mark is an opening one. -/
def LeftOpen (marks : List Mark) : Prop :=
  ∃ mark ∈ marks.getLast?, mark.isOpening = true

/-- No closing mark comes after an opening one. -/
def Unpaired (marks : List Mark) : Prop :=
  marks.Pairwise fun mark later ↦ mark.isOpening = true → later.isOpening = true

/-- There is no closing mark, or at least two opening ones are before the first. -/
def SelfContained (marks : List Mark) : Prop :=
  (∀ mark ∈ marks, mark.isOpening = true) ∨ 2 ≤ (marks.takeWhile Mark.isOpening).length

/-- The pairs of a process in two texts. Where it writes the `mem:` lines of the kind in one text
only, the other has no pair; where in neither, nothing that the first leaves open is closed in the
second, or made a guess there. -/
def PairsApart (pair : TextPair) (pid : ℕ) (a b : String) : Prop :=
  if measures pair.kind pid a then
    measures pair.kind pid b = true ∨ Unpaired (marksIn pair pid b)
  else if measures pair.kind pid b then
    Unpaired (marksIn pair pid a)
  else
    LeftOpen (marksIn pair pid a) → SelfContained (marksIn pair pid b)

/-- A line that gets its directory from an owner. -/
def isDirless (span : Span) : Bool :=
  span.workspace.isNone && (span.kind = .maintenance || span.kind = .indexChanges)

/-- The first of the shortest owners around a span. -/
def innermost (owners : List Span) (span : Span) : Option Span :=
  (owners.filter (encloses span)).argmin Span.took

/-- The spans of a text that lines without a directory are put down to. -/
def ownersIn (text : String) : List Span :=
  (measuredIn text).filter isOwner

/-- Neither text needs a line of the other. -/
structure Apart (a b : String) : Prop where
  pairs : ∀ pair ∈ TEXT_PAIRS, ∀ pid, PairsApart pair pid a b
  /-- A line of the first text without a directory has an owner there that is no longer than any of
  the second, or of the same directory. -/
  first : ∀ span ∈ measuredIn a, isDirless span = true →
    ∀ other ∈ innermost (ownersIn b) span, ∃ own ∈ innermost (ownersIn a) span,
      own.took ≤ other.took ∨ own.workspace = other.workspace
  /-- For a line of the second text its own owner has to be shorter. -/
  second : ∀ span ∈ measuredIn b, isDirless span = true →
    ∀ other ∈ innermost (ownersIn a) span, ∃ own ∈ innermost (ownersIn b) span,
      own.took < other.took ∨ own.workspace = other.workspace

/-- The same spans, up to the order of those that end at the same time, and the same counters. -/
structure Parsed.Agrees (parsed other : Parsed) : Prop where
  spans : parsed.spans.Perm other.spans
  ends : parsed.spans.map Span.endAt = other.spans.map Span.endAt
  rebuiltFromText : parsed.rebuiltFromText = other.rebuiltFromText
  pairedByGuess : parsed.pairedByGuess = other.pairedByGuess

/-! ### What a line does -/

/-- The kind and the process of a span. -/
def keyOf (x : Span × Bool) : Kind × ℕ :=
  (x.1.kind, x.1.pid)

/-- What a scan holds for a pair and a process: its opening lines and its spans. -/
abbrev Held := List (ℚ × Dir) × List (Span × Bool)

/-- What is held for one pair and one process. -/
def Scan.held (scan : Scan) (entry : TextPair × ℕ) (pid : ℕ) : Held :=
  (scan.opened (entry.2, pid), scan.fromText.filter fun x ↦ keyOf x = (entry.1.kind, pid))

/-- A closing mark takes the last opening one, and drops the others. -/
def settle (kind : Kind) (pid : ℕ) (held : Held) (mark : Mark) : Held :=
  match mark.2 with
  | some dir => (held.1 ++ [(mark.1, dir)], held.2)
  | none =>
    match held.1.getLast? with
    | some (start, dir) =>
      ([], held.2 ++ [(⟨pid, kind, some dir, start, mark.1⟩, !held.1.dropLast.isEmpty)])
    | none => held

variable {scan : Scan} {entry other : TextPair × ℕ} {time : ℚ} {pid writer : ℕ}
  {rest line : List Char}

theorem spans_scanPair (time : ℚ) (pid : ℕ) (rest : List Char) (scan : Scan)
    (entry : TextPair × ℕ) : (scanPair time pid rest scan entry).spans = scan.spans := by
  unfold scanPair
  dsimp only
  split
  · rfl
  · split_ifs
    · split <;> rfl
    · rfl

/-- A pair settles its own mark. -/
theorem held_scanPair_self :
    (scanPair time pid rest scan entry).held entry pid =
      (entry.1.mark time rest).elim (scan.held entry pid)
        (settle entry.1.kind pid (scan.held entry pid)) := by
  rw [scanPair, TextPair.mark]
  cases entry.1.opens rest with
  | some dir => exact Prod.ext (Function.update_self _ _ _) rfl
  | none =>
    cases entry.1.closes rest with
    | false => rfl
    | true =>
      simp only [if_true, Option.elim_some, settle, Scan.held]
      cases (scan.opened (entry.2, pid)).getLast? with
      | none => rfl
      | some open' =>
        refine Prod.ext (Function.update_self _ _ _) ?_
        show (scan.fromText ++ [_]).filter _ = scan.fromText.filter _ ++ [_]
        rw [List.filter_append, List.filter_singleton, keyOf, decide_eq_true rfl]
        rfl

/-- And leaves the others alone. -/
theorem held_scanPair_of_ne
    (h : writer ≠ pid ∨ entry.2 ≠ other.2 ∧ entry.1.kind ≠ other.1.kind) :
    (scanPair time writer rest scan other).held entry pid = scan.held entry pid := by
  have hindex : (entry.2, pid) ≠ (other.2, writer) := by
    grind
  have hkind : (other.1.kind, writer) ≠ (entry.1.kind, pid) := by
    grind
  rw [scanPair]
  cases other.1.opens rest with
  | some dir => exact Prod.ext (Function.update_of_ne hindex _ _) rfl
  | none =>
    cases other.1.closes rest with
    | false => rfl
    | true =>
      simp only [if_true, Scan.held]
      cases (scan.opened (other.2, writer)).getLast? with
      | none => rfl
      | some open' =>
        refine Prod.ext (Function.update_of_ne hindex _ _) ?_
        show (scan.fromText ++ [_]).filter _ = scan.fromText.filter _
        rw [List.filter_append, List.filter_singleton, keyOf, decide_eq_false hkind]
        exact List.append_nil _

/-- The pairs are told apart by their index and by their kind. -/
theorem pairwise_entries :
    TEXT_PAIRS.zipIdx.Pairwise fun entry other ↦
      entry.2 ≠ other.2 ∧ entry.1.kind ≠ other.1.kind := by
  decide

theorem held_foldl_of_ne {entries : List (TextPair × ℕ)}
    (h : ∀ other ∈ entries, writer ≠ pid ∨ entry.2 ≠ other.2 ∧ entry.1.kind ≠ other.1.kind)
    (scan : Scan) :
    (entries.foldl (scanPair time writer rest) scan).held entry pid = scan.held entry pid := by
  induction entries generalizing scan with
  | nil => rfl
  | cons other entries ih =>
    obtain ⟨hother, hentries⟩ := List.forall_mem_cons.1 h
    rw [List.foldl_cons, ih hentries, held_scanPair_of_ne hother]

theorem held_foldl {entries : List (TextPair × ℕ)}
    (h : entries.Pairwise fun entry other ↦ entry.2 ≠ other.2 ∧ entry.1.kind ≠ other.1.kind)
    (hentry : entry ∈ entries) (scan : Scan) :
    (entries.foldl (scanPair time pid rest) scan).held entry pid =
      (entry.1.mark time rest).elim (scan.held entry pid)
        (settle entry.1.kind pid (scan.held entry pid)) := by
  obtain ⟨before, after, rfl⟩ := List.append_of_mem hentry
  obtain ⟨-, hafter, hbefore⟩ := List.pairwise_append.1 h
  have hne : ∀ other ∈ before, pid ≠ pid ∨ entry.2 ≠ other.2 ∧ entry.1.kind ≠ other.1.kind :=
    fun other hother ↦ .inr ((hbefore other hother entry List.mem_cons_self).imp Ne.symm Ne.symm)
  rw [List.foldl_append, List.foldl_cons,
    held_foldl_of_ne fun other hother ↦ .inr ((List.pairwise_cons.1 hafter).1 other hother),
    held_scanPair_self, held_foldl_of_ne hne]

theorem spans_foldl (time : ℚ) (pid : ℕ) (rest : List Char) (entries : List (TextPair × ℕ))
    (scan : Scan) : (entries.foldl (scanPair time pid rest) scan).spans = scan.spans := by
  induction entries generalizing scan with
  | nil => rfl
  | cons entry entries ih => rw [List.foldl_cons, ih, spans_scanPair]

/-- A line adds the span it measured. -/
theorem spans_scanLine (scan : Scan) (line : List Char) :
    (scanLine scan line).spans = scan.spans ++ (measured line).toList := by
  rw [scanLine, measured]
  match splitLine line with
  | none => exact (List.append_nil _).symm
  | some (time, pid, rest) =>
    dsimp only [Option.bind_eq_bind, Option.bind_some]
    match splitOnce " mem: ".toList rest with
    | none =>
      dsimp only [Option.bind_none]
      rw [spans_foldl]
      exact (List.append_nil _).symm
    | some (_, what) =>
      dsimp only [Option.bind_some]
      split_ifs
      · match parseMem what with
        | none => exact (List.append_nil _).symm
        | some (kind, workspace, secs) => rfl
      · exact (List.append_nil _).symm

/-- A line settles the mark it has for a pair and a process. -/
theorem held_scanLine (hentry : entry ∈ TEXT_PAIRS.zipIdx) (pid : ℕ) (scan : Scan)
    (line : List Char) :
    (scanLine scan line).held entry pid =
      (markOf entry.1 pid line).elim (scan.held entry pid)
        (settle entry.1.kind pid (scan.held entry pid)) := by
  rw [scanLine, markOf]
  match splitLine line with
  | none => rfl
  | some (time, writer, rest) =>
    dsimp only [Option.bind_eq_bind, Option.bind_some]
    match splitOnce " mem: ".toList rest with
    | some (_, what) =>
      simp only [Option.isNone_some, Bool.and_false, Bool.false_eq_true, if_false]
      split_ifs
      · match parseMem what with
        | none => rfl
        | some (kind, workspace, secs) => rfl
      · rfl
    | none =>
      dsimp only [Option.isNone_none]
      by_cases hwriter : writer = pid
      · rw [if_pos (by simpa using hwriter), hwriter]
        exact held_foldl pairwise_entries hentry scan
      · rw [if_neg (by simpa using hwriter)]
        exact held_foldl_of_ne (fun _ _ ↦ .inl hwriter) scan

theorem spans_run (ls : List (List Char)) (scan : Scan) :
    (ls.foldl scanLine scan).spans = scan.spans ++ ls.filterMap measured := by
  induction ls generalizing scan with
  | nil => exact (List.append_nil _).symm
  | cons line ls ih =>
    rw [List.foldl_cons, ih, spans_scanLine, List.filterMap_cons, List.append_assoc]
    cases measured line <;> rfl

theorem held_run (hentry : entry ∈ TEXT_PAIRS.zipIdx) (pid : ℕ) (ls : List (List Char))
    (scan : Scan) :
    (ls.foldl scanLine scan).held entry pid =
      (ls.filterMap (markOf entry.1 pid)).foldl (settle entry.1.kind pid)
        (scan.held entry pid) := by
  induction ls generalizing scan with
  | nil => rfl
  | cons line ls ih =>
    rw [List.foldl_cons, ih, held_scanLine hentry, List.filterMap_cons]
    cases markOf entry.1 pid line <;> rfl

/-! ### Opening and closing marks -/

variable {kind : Kind} {opened left : List (ℚ × Dir)} {marks : List Mark} {start : ℚ} {dir : Dir}

/-- The spans that marks give after some opening ones. -/
def pairsFrom (kind : Kind) (pid : ℕ) (opened : List (ℚ × Dir)) (marks : List Mark) :
    List (Span × Bool) :=
  (marks.foldl (settle kind pid) (opened, [])).2

/-- What is closed so far does not matter. -/
theorem foldl_settle (kind : Kind) (pid : ℕ) (opened : List (ℚ × Dir)) (spans : List (Span × Bool))
    (marks : List Mark) :
    marks.foldl (settle kind pid) (opened, spans) =
      ((marks.foldl (settle kind pid) (opened, [])).1,
        spans ++ pairsFrom kind pid opened marks) := by
  rw [pairsFrom]
  induction marks generalizing opened spans with
  | nil => exact Prod.ext rfl (List.append_nil _).symm
  | cons mark marks ih =>
    rw [List.foldl_cons, List.foldl_cons]
    obtain ⟨time, _ | dir⟩ := mark
    · simp only [settle]
      match opened.getLast? with
      | none => exact ih opened spans
      | some (start, dir) =>
        dsimp only
        rw [ih, ih [] ([] ++ _), List.nil_append, List.append_assoc]
    · exact ih (opened ++ [(time, dir)]) spans

theorem pairsFrom_opening :
    pairsFrom kind pid opened ((time, some dir) :: marks) =
      pairsFrom kind pid (opened ++ [(time, dir)]) marks :=
  rfl

theorem pairsFrom_closing_nil :
    pairsFrom kind pid [] ((time, none) :: marks) = pairsFrom kind pid [] marks :=
  rfl

theorem pairsFrom_closing :
    pairsFrom kind pid (opened ++ [(start, dir)]) ((time, none) :: marks) =
      (⟨pid, kind, some dir, start, time⟩, !opened.isEmpty) :: pairsFrom kind pid [] marks := by
  rw [pairsFrom, List.foldl_cons, settle]
  dsimp only
  rw [List.getLast?_concat, List.dropLast_concat]
  dsimp only
  rw [foldl_settle]
  rfl

theorem leftOpen_iff (kind : Kind) (pid : ℕ) (marks : List Mark) (spans : List (Span × Bool)) :
    LeftOpen marks ↔ (marks.foldl (settle kind pid) ([], spans)).1 ≠ [] := by
  induction marks using List.reverseRecOn with
  | nil => exact iff_of_false nofun fun h ↦ h rfl
  | append_singleton marks mark ih =>
    rw [LeftOpen, List.getLast?_concat, List.foldl_concat, settle]
    obtain ⟨time, _ | dir⟩ := mark
    · refine iff_of_false ?_ ?_
      · rintro ⟨mark, hmark, hopening⟩
        obtain rfl := Option.some.inj hmark
        exact Bool.false_ne_true hopening
      · dsimp only
        match hlast : (marks.foldl (settle kind pid) ([], spans)).1.getLast? with
        | none => exact fun h ↦ h (List.getLast?_eq_none_iff.1 hlast)
        | some (start, dir) => exact fun h ↦ h rfl
    · exact iff_of_true ⟨_, rfl, rfl⟩ (List.append_ne_nil_of_right_ne_nil _ (List.cons_ne_nil _ _))

/-- Nothing is paired exactly when nothing is closed that was opened. -/
theorem pairsFrom_eq_nil_iff :
    pairsFrom kind pid opened marks = [] ↔
      (opened ≠ [] → ∀ mark ∈ marks, mark.isOpening = true) ∧ Unpaired marks := by
  induction marks generalizing opened with
  | nil => exact iff_of_true rfl ⟨fun _ _ h ↦ absurd h List.not_mem_nil, List.Pairwise.nil⟩
  | cons mark marks ih =>
    rw [Unpaired, List.pairwise_cons, List.forall_mem_cons]
    obtain ⟨time, _ | dir⟩ := mark
    · obtain rfl | ⟨opened, ⟨start, dir⟩, rfl⟩ := List.eq_nil_or_concat' opened
      · rw [pairsFrom_closing_nil, ih]
        exact ⟨fun h ↦ ⟨fun hne ↦ absurd rfl hne, fun _ _ ↦ nofun, h.2⟩,
          fun h ↦ ⟨fun hne ↦ absurd rfl hne, h.2.2⟩⟩
      · rw [pairsFrom_closing]
        refine iff_of_false (List.cons_ne_nil _ _) fun h ↦ ?_
        exact Bool.false_ne_true
          (h.1 (List.append_ne_nil_of_right_ne_nil _ (List.cons_ne_nil _ _))).1
    · rw [pairsFrom_opening, ih]
      have hne : opened ++ [(time, dir)] ≠ [] :=
        List.append_ne_nil_of_right_ne_nil _ (List.cons_ne_nil _ _)
      exact ⟨fun h ↦ ⟨fun _ ↦ ⟨rfl, h.1 hne⟩, fun mark hmark _ ↦ h.1 hne mark hmark, h.2⟩,
        fun h ↦ ⟨fun _ mark hmark ↦ h.2.1 mark hmark rfl, h.2.2⟩⟩

/-- What was left open is not seen where the first closing mark finds two opening ones that came
later. -/
theorem pairsFrom_append_of_selfContained (kind : Kind) (pid : ℕ) (hleft : left ≠ [])
    (h : (∀ mark ∈ marks, mark.isOpening = true) ∨
      2 ≤ opened.length + (marks.takeWhile Mark.isOpening).length) :
    pairsFrom kind pid (left ++ opened) marks = pairsFrom kind pid opened marks := by
  induction marks generalizing opened with
  | nil => rfl
  | cons mark marks ih =>
    rw [List.forall_mem_cons] at h
    obtain ⟨time, _ | dir⟩ := mark
    · have hlength : 2 ≤ opened.length :=
        h.resolve_left fun hall ↦ Bool.false_ne_true hall.1
      obtain rfl | ⟨opened, ⟨start, dir⟩, rfl⟩ := List.eq_nil_or_concat' opened
      · exact absurd hlength (by decide)
      · rw [List.length_append, List.length_singleton] at hlength
        have hopened : opened.isEmpty = false :=
          List.isEmpty_eq_false_iff.2 (List.ne_nil_of_length_pos (by omega))
        have hboth : (left ++ opened).isEmpty = false :=
          List.isEmpty_eq_false_iff.2 (List.append_ne_nil_of_left_ne_nil hleft _)
        rw [← List.append_assoc, pairsFrom_closing, pairsFrom_closing, hopened, hboth]
    · rw [pairsFrom_opening, pairsFrom_opening, List.append_assoc]
      refine ih (h.imp And.right fun hlength ↦ ?_)
      rw [List.takeWhile_cons_of_pos rfl, List.length_cons] at hlength
      rw [List.length_append, List.length_singleton]
      omega

/-- Elsewhere it is the start of one more span, or makes the first span a guess. -/
theorem pairsFrom_append_of_not_selfContained (kind : Kind) (pid : ℕ) (hleft : left ≠ [])
    (h : ¬ ((∀ mark ∈ marks, mark.isOpening = true) ∨
      2 ≤ opened.length + (marks.takeWhile Mark.isOpening).length)) :
    (∃ x, pairsFrom kind pid (left ++ opened) marks = x :: pairsFrom kind pid opened marks) ∨
      ∃ span rest, pairsFrom kind pid opened marks = (span, false) :: rest ∧
        pairsFrom kind pid (left ++ opened) marks = (span, true) :: rest := by
  induction marks generalizing opened with
  | nil => exact absurd (.inl nofun) h
  | cons mark marks ih =>
    obtain ⟨hclosing, hlength⟩ := not_or.1 h
    rw [List.forall_mem_cons] at hclosing
    obtain ⟨time, _ | dir⟩ := mark
    · obtain rfl | ⟨opened, ⟨start, dir⟩, rfl⟩ := List.eq_nil_or_concat' opened
      · obtain rfl | ⟨left, ⟨start, dir⟩, rfl⟩ := List.eq_nil_or_concat' left
        · exact absurd rfl hleft
        · rw [List.append_nil, pairsFrom_closing, pairsFrom_closing_nil]
          exact .inl ⟨_, rfl⟩
      · rw [List.length_append, List.length_singleton] at hlength
        obtain rfl : opened = [] := List.length_eq_zero_iff.1 (by omega)
        rw [← List.append_assoc, pairsFrom_closing, pairsFrom_closing, List.append_nil]
        refine .inr ⟨_, _, rfl, ?_⟩
        rw [List.isEmpty_eq_false_iff.2 hleft]
        rfl
    · rw [pairsFrom_opening, pairsFrom_opening, List.append_assoc]
      refine ih (not_or.2 ⟨fun hall ↦ hclosing ⟨rfl, hall⟩, ?_⟩)
      rw [List.takeWhile_cons_of_pos rfl, List.length_cons] at hlength
      rw [List.length_append, List.length_singleton]
      omega

/-! ### The pairs that are kept -/

/-- The pairs of a process are kept when it measures none of their kind. -/
theorem filter_kept (hentry : entry ∈ TEXT_PAIRS.zipIdx) (pid : ℕ) (scan : Scan) :
    (scan.kept.filter fun x ↦ keyOf x = (entry.1.kind, pid)) =
      if scan.spans.any fun span ↦ (span.kind, span.pid) = (entry.1.kind, pid) then []
      else (scan.held entry pid).2 := by
  have hpair : TEXT_PAIRS.any (fun pair ↦ pair.kind = entry.1.kind) = true :=
    List.any_eq_true.2 ⟨entry.1, List.fst_mem_of_mem_zipIdx hentry, decide_eq_true rfl⟩
  have hmeasured : (((scan.spans.filter fun span ↦ TEXT_PAIRS.any fun pair ↦
      pair.kind = span.kind).map fun span ↦ (span.kind, span.pid)).contains (entry.1.kind, pid)) =
        scan.spans.any fun span ↦ (span.kind, span.pid) = (entry.1.kind, pid) := by
    rw [Bool.eq_iff_iff, List.contains_iff_mem, List.mem_map, List.any_eq_true]
    refine exists_congr fun span ↦ ?_
    rw [List.mem_filter, decide_eq_true_iff]
    refine ⟨fun h ↦ ⟨h.1.1, h.2⟩, fun h ↦ ⟨⟨h.1, ?_⟩, h.2⟩⟩
    have hkind : span.kind = entry.1.kind := (Prod.ext_iff.1 h.2).1
    rw [hkind]
    exact hpair
  rw [Scan.kept]
  dsimp only
  rw [List.filter_filter, ← hmeasured, Scan.held]
  split_ifs with h
  · refine List.filter_eq_nil_iff.2 fun x _ hx ↦ ?_
    obtain ⟨hkey, hkept⟩ := Bool.and_eq_true_iff.1 hx
    have heq : keyOf x = (entry.1.kind, pid) := of_decide_eq_true hkey
    rw [keyOf] at heq
    rw [heq, h] at hkept
    exact Bool.false_ne_true hkept
  · refine List.filter_congr fun x _ ↦ ?_
    by_cases hkey : keyOf x = (entry.1.kind, pid)
    · have hpid : (x.1.kind, x.1.pid) = (entry.1.kind, pid) := hkey
      rw [hpid, Bool.eq_false_iff.2 h]
      exact Bool.and_true _
    · rw [decide_eq_false hkey]
      rfl

variable {a b ab : String} {x : Span × Bool}

theorem spans_scanText (text : String) : (scanText text).spans = measuredIn text := by
  show ((linesOf text).foldl scanLine .start).spans = _
  rw [spans_run]
  rfl

/-- The opening marks that are left at the end of a text. -/
def leftIn (pair : TextPair) (pid : ℕ) (text : String) : List (ℚ × Dir) :=
  ((marksIn pair pid text).foldl (settle pair.kind pid) ([], [])).1

/-- What is kept of a pair and a process, told from their marks. -/
theorem filter_kept_scanText (hentry : entry ∈ TEXT_PAIRS.zipIdx) (pid : ℕ) (text : String) :
    ((scanText text).kept.filter fun x ↦ keyOf x = (entry.1.kind, pid)) =
      if measures entry.1.kind pid text then []
      else pairsFrom entry.1.kind pid [] (marksIn entry.1 pid text) := by
  rw [filter_kept hentry, spans_scanText]
  show (if measures _ _ _ then []
    else (((linesOf text).foldl scanLine .start).held entry pid).2) = _
  rw [held_run hentry]
  rfl

theorem measuredIn_append (hlines : linesOf ab = linesOf a ++ linesOf b) :
    measuredIn ab = measuredIn a ++ measuredIn b := by
  rw [measuredIn, hlines, List.filterMap_append]
  rfl

/-- In two texts together the second starts with what the first left open. -/
theorem filter_kept_append (hlines : linesOf ab = linesOf a ++ linesOf b)
    (hentry : entry ∈ TEXT_PAIRS.zipIdx) (pid : ℕ) :
    ((scanText ab).kept.filter fun x ↦ keyOf x = (entry.1.kind, pid)) =
      if measures entry.1.kind pid a || measures entry.1.kind pid b then []
      else pairsFrom entry.1.kind pid [] (marksIn entry.1 pid a) ++
        pairsFrom entry.1.kind pid (leftIn entry.1 pid a) (marksIn entry.1 pid b) := by
  have hmarks : marksIn entry.1 pid ab = marksIn entry.1 pid a ++ marksIn entry.1 pid b := by
    rw [marksIn, hlines, List.filterMap_append]
    rfl
  rw [filter_kept_scanText hentry, hmarks, measures, measuredIn_append hlines, List.any_append,
    pairsFrom, List.foldl_append]
  show (if _ then [] else (List.foldl _ (leftIn entry.1 pid a, pairsFrom entry.1.kind pid []
    (marksIn entry.1 pid a)) (marksIn entry.1 pid b)).2) = _
  rw [foldl_settle]
  rfl

/-- What the first text leaves open is not seen in the second, or starts one more span there, or
makes the first span there a guess. -/
theorem pairsFrom_leftIn_cases (pair : TextPair) (pid : ℕ) (a b : String) :
    ((LeftOpen (marksIn pair pid a) → SelfContained (marksIn pair pid b)) ∧
      pairsFrom pair.kind pid (leftIn pair pid a) (marksIn pair pid b) =
        pairsFrom pair.kind pid [] (marksIn pair pid b)) ∨
    ¬ (LeftOpen (marksIn pair pid a) → SelfContained (marksIn pair pid b)) ∧
      ((∃ x, pairsFrom pair.kind pid (leftIn pair pid a) (marksIn pair pid b) =
        x :: pairsFrom pair.kind pid [] (marksIn pair pid b)) ∨
      ∃ span rest, pairsFrom pair.kind pid [] (marksIn pair pid b) = (span, false) :: rest ∧
        pairsFrom pair.kind pid (leftIn pair pid a) (marksIn pair pid b) =
          (span, true) :: rest) := by
  have hopen : LeftOpen (marksIn pair pid a) ↔ leftIn pair pid a ≠ [] := leftOpen_iff _ _ _ _
  have hself : SelfContained (marksIn pair pid b) ↔
      (∀ mark ∈ marksIn pair pid b, mark.isOpening = true) ∨
        2 ≤ ([] : List (ℚ × Dir)).length +
          ((marksIn pair pid b).takeWhile Mark.isOpening).length := by
    rw [List.length_nil, Nat.zero_add]
    rfl
  rw [hopen]
  by_cases hleft : leftIn pair pid a = []
  · exact .inl ⟨fun h ↦ absurd hleft h, by rw [hleft]⟩
  · by_cases hcontained : SelfContained (marksIn pair pid b)
    · have heq := pairsFrom_append_of_selfContained pair.kind pid hleft (hself.1 hcontained)
      rw [List.append_nil] at heq
      exact .inl ⟨fun _ ↦ hcontained, heq⟩
    · have hcases := pairsFrom_append_of_not_selfContained pair.kind pid hleft
        (hself.not.1 hcontained)
      rw [List.append_nil] at hcases
      exact .inr ⟨fun h ↦ hcontained (h hleft), hcases⟩

/-- The pairs of a process together and one by one. They are the same, or not as many, or one is a
guess only together. -/
theorem filter_kept_cases (hlines : linesOf ab = linesOf a ++ linesOf b)
    (hentry : entry ∈ TEXT_PAIRS.zipIdx) (pid : ℕ) {together apart : List (Span × Bool)}
    (htogether : together = (scanText ab).kept.filter fun x ↦ keyOf x = (entry.1.kind, pid))
    (hapart : apart = ((scanText a).kept ++ (scanText b).kept).filter fun x ↦
      keyOf x = (entry.1.kind, pid)) :
    PairsApart entry.1 pid a b ∧ together = apart ∨ ¬ PairsApart entry.1 pid a b ∧
      (together.length ≠ apart.length ∨ ∃ before span after,
        apart = before ++ (span, false) :: after ∧ together = before ++ (span, true) :: after) := by
  have hunpaired : ∀ text, Unpaired (marksIn entry.1 pid text) ↔
      pairsFrom entry.1.kind pid [] (marksIn entry.1 pid text) = [] := fun text ↦ by
    rw [pairsFrom_eq_nil_iff]
    exact (and_iff_right fun h ↦ absurd rfl h).symm
  rw [filter_kept_append hlines hentry] at htogether
  rw [List.filter_append, filter_kept_scanText hentry, filter_kept_scanText hentry] at hapart
  rw [PairsApart]
  -- A measured span leaves the pairs of its kind out: in one part alone, or in both.
  cases hfirst : measures entry.1.kind pid a with
  | true =>
    rw [hfirst, Bool.true_or, if_pos rfl] at htogether
    rw [hfirst, if_pos rfl, List.nil_append] at hapart
    rw [if_pos rfl]
    cases hsecond : measures entry.1.kind pid b with
    | true =>
      rw [hsecond, if_pos rfl] at hapart
      exact .inl ⟨.inl rfl, htogether.trans hapart.symm⟩
    | false =>
      rw [hsecond, if_neg Bool.false_ne_true] at hapart
      rw [hunpaired, ← hapart, htogether]
      -- The second part's pairs are dropped beside a measured first: no change only if it has none.
      obtain rfl | hne := eq_or_ne apart []
      · exact .inl ⟨.inr rfl, rfl⟩
      · refine .inr ⟨?_, .inl fun hlength ↦ hne (List.length_eq_zero_iff.1 hlength.symm)⟩
        exact not_or.2 ⟨Bool.false_ne_true, hne⟩
  | false =>
    rw [hfirst, Bool.false_or] at htogether
    rw [hfirst, if_neg Bool.false_ne_true] at hapart
    rw [if_neg Bool.false_ne_true]
    cases hsecond : measures entry.1.kind pid b with
    | true =>
      rw [hsecond, if_pos rfl] at htogether
      rw [hsecond, if_pos rfl, List.append_nil] at hapart
      rw [if_pos rfl, hunpaired, ← hapart, htogether]
      obtain rfl | hne := eq_or_ne apart []
      · exact .inl ⟨rfl, rfl⟩
      · exact .inr ⟨hne, .inl fun hlength ↦ hne (List.length_eq_zero_iff.1 hlength.symm)⟩
    | false =>
      rw [hsecond, if_neg Bool.false_ne_true] at htogether hapart
      rw [if_neg Bool.false_ne_true, htogether, hapart]
      refine (pairsFrom_leftIn_cases entry.1 pid a b).imp (And.imp_right (congrArg _))
        (And.imp_right (Or.imp ?_ ?_))
      · rintro ⟨x, hx⟩ hlength
        rw [hx, List.length_append, List.length_append, List.length_cons] at hlength
        omega
      · rintro ⟨span, rest, hold, hnew⟩
        exact ⟨_, span, rest, congrArg _ hold, congrArg _ hnew⟩

/-! ### The kinds of the pairs -/

theorem kind_scanPair (h : x ∈ (scanPair time pid rest scan entry).fromText) :
    x ∈ scan.fromText ∨ x.1.kind = entry.1.kind := by
  unfold scanPair at h
  dsimp only at h
  split at h
  · exact .inl h
  · split_ifs at h
    · split at h
      · exact (List.mem_append.1 h).imp_right fun hx ↦ by rw [List.mem_singleton.1 hx]
      · exact .inl h
    · exact .inl h

theorem kind_foldl {entries : List (TextPair × ℕ)}
    (h : x ∈ (entries.foldl (scanPair time pid rest) scan).fromText) :
    x ∈ scan.fromText ∨ ∃ entry ∈ entries, x.1.kind = entry.1.kind := by
  induction entries generalizing scan with
  | nil => exact .inl h
  | cons entry entries ih =>
    obtain hx | ⟨other, hother, hkind⟩ := ih h
    · exact (kind_scanPair hx).imp_right fun hkind ↦ ⟨entry, List.mem_cons_self, hkind⟩
    · exact .inr ⟨other, List.mem_cons_of_mem _ hother, hkind⟩

theorem kind_scanLine (h : x ∈ (scanLine scan line).fromText) :
    x ∈ scan.fromText ∨ ∃ entry ∈ TEXT_PAIRS.zipIdx, x.1.kind = entry.1.kind := by
  unfold scanLine at h
  split at h
  · exact .inl h
  · split at h
    · split_ifs at h
      · split at h
        · exact .inl h
        · exact .inl h
      · exact .inl h
    · exact kind_foldl h

/-- A span of a pair has the kind of the pair. -/
theorem kind_run {ls : List (List Char)} (h : x ∈ (ls.foldl scanLine scan).fromText) :
    x ∈ scan.fromText ∨ ∃ entry ∈ TEXT_PAIRS.zipIdx, x.1.kind = entry.1.kind := by
  induction ls generalizing scan with
  | nil => exact .inl h
  | cons line ls ih => exact (ih h).elim kind_scanLine .inr

theorem kind_kept {text : String} (h : x ∈ (scanText text).kept) :
    ∃ entry ∈ TEXT_PAIRS.zipIdx, x.1.kind = entry.1.kind :=
  (kind_run (List.mem_filter.1 h).1).resolve_left List.not_mem_nil

/-! ### All pairs -/

/-- Texts that are apart keep together what they keep one by one. -/
theorem kept_perm (hlines : linesOf ab = linesOf a ++ linesOf b)
    (h : ∀ pair ∈ TEXT_PAIRS, ∀ pid, PairsApart pair pid a b) :
    (scanText ab).kept.Perm ((scanText a).kept ++ (scanText b).kept) := by
  refine perm_of_filter keyOf fun x hx ↦ ?_
  obtain ⟨entry, hentry, hkind⟩ : ∃ entry ∈ TEXT_PAIRS.zipIdx, x.1.kind = entry.1.kind := by
    rw [List.mem_append] at hx
    exact hx.elim kind_kept fun hx ↦ hx.elim kind_kept kind_kept
  have hkey : keyOf x = (entry.1.kind, x.1.pid) := Prod.ext hkind rfl
  obtain ⟨-, heq⟩ | ⟨hnot, -⟩ := filter_kept_cases hlines hentry x.1.pid rfl rfl
  · rw [hkey]
    exact .of_eq heq
  · exact absurd (h entry.1 (List.fst_mem_of_mem_zipIdx hentry) x.1.pid) hnot

/-- Only together a pair may be a guess, at a process with as many pairs of a kind. -/
theorem filter_guesses_subperm (hlines : linesOf ab = linesOf a ++ linesOf b)
    (hentry : entry ∈ TEXT_PAIRS.zipIdx) (pid : ℕ)
    (hlength : ((scanText ab).kept.filter fun x ↦ keyOf x = (entry.1.kind, pid)).length =
      (((scanText a).kept ++ (scanText b).kept).filter fun x ↦
        keyOf x = (entry.1.kind, pid)).length) :
    ((((scanText a).kept ++ (scanText b).kept).filter fun x ↦
      keyOf x = (entry.1.kind, pid)).filter Prod.snd).Subperm
    (((scanText ab).kept.filter fun x ↦ keyOf x = (entry.1.kind, pid)).filter Prod.snd) := by
  obtain ⟨-, heq⟩ | ⟨-, hne | ⟨before, span, after, hold, hnew⟩⟩ :=
    filter_kept_cases hlines hentry pid rfl rfl
  · rw [heq]
  · exact absurd hlength hne
  · rw [hold, hnew, List.filter_append, List.filter_append]
    exact ((List.sublist_cons_self _ _).append_left _).subperm

/-- **The pairs of two texts are the same together** exactly when they are at each process. -/
theorem kept_perm_iff (hlines : linesOf ab = linesOf a ++ linesOf b) :
    ((scanText ab).kept.map Prod.fst).Perm
        (((scanText a).kept ++ (scanText b).kept).map Prod.fst) ∧
      (scanText ab).kept.countP (·.2) = ((scanText a).kept ++ (scanText b).kept).countP (·.2) ↔
    ∀ pair ∈ TEXT_PAIRS, ∀ pid, PairsApart pair pid a b := by
  refine ⟨?_, fun h ↦ ⟨(kept_perm hlines h).map _, (kept_perm hlines h).countP_eq _⟩⟩
  rintro ⟨hspans, hguesses⟩
  have hlength : ∀ k : Kind × ℕ, ((scanText ab).kept.filter fun x ↦ keyOf x = k).length =
      (((scanText a).kept ++ (scanText b).kept).filter fun x ↦ keyOf x = k).length := by
    intro k
    have hkey := (hspans.filter fun span ↦ (span.kind, span.pid) = k).length_eq
    rwa [List.filter_map, List.filter_map, List.length_map, List.length_map] at hkey
  -- the guesses are the same at each process, since there are no more of them
  have hsame : ∀ k : Kind × ℕ,
      ((((scanText a).kept ++ (scanText b).kept).filter Prod.snd).filter fun x ↦
        keyOf x = k).Perm (((scanText ab).kept.filter Prod.snd).filter fun x ↦ keyOf x = k) := by
    refine filter_perm_of_length_eq keyOf (fun x hx ↦ ?_) ?_
    · obtain ⟨entry, hentry, hkind⟩ : ∃ entry ∈ TEXT_PAIRS.zipIdx, x.1.kind = entry.1.kind :=
        (List.mem_append.1 (List.mem_filter.1 hx).1).elim kind_kept kind_kept
      have hkey : keyOf x = (entry.1.kind, x.1.pid) := Prod.ext hkind rfl
      rw [hkey, List.filter_comm, List.filter_comm _ _ (scanText ab).kept]
      exact filter_guesses_subperm hlines hentry x.1.pid (hlength _)
    · rw [← List.countP_eq_length_filter, ← List.countP_eq_length_filter]
      exact hguesses.symm
  intro pair hpair pid
  obtain ⟨index, hindex, rfl⟩ := List.getElem_of_mem hpair
  have hentry : (TEXT_PAIRS[index], index) ∈ TEXT_PAIRS.zipIdx :=
    List.mem_zipIdx_iff_getElem?.2 (List.getElem?_eq_getElem hindex)
  obtain ⟨hapart, -⟩ | ⟨-, hne | ⟨before, span, after, hold, hnew⟩⟩ :=
    filter_kept_cases hlines hentry pid rfl rfl
  · exact hapart
  · exact absurd (hlength _) hne
  · have hcount := (hsame (TEXT_PAIRS[index].kind, pid)).length_eq
    rw [List.filter_comm, List.filter_comm _ _ (scanText ab).kept, hold, hnew, List.filter_append,
      List.filter_append, List.length_append, List.length_append] at hcount
    exact absurd (Nat.add_left_cancel hcount) (Nat.ne_of_lt (Nat.lt_succ_self _))

/-! ### Directories -/

variable {span : Span} {own others owners : List Span}

/-- A line without a directory gets that of its innermost owner. -/
theorem attributed_eq (owners : List Span) (span : Span) :
    attributed owners span =
      if isDirless span then
        { span with workspace := (innermost owners span).bind Span.workspace }
      else span := by
  rw [attributed, isDirless, innermost]
  cases span.workspace with
  | none =>
    cases decide (span.kind = .maintenance) || decide (span.kind = .indexChanges) with
    | false => rfl
    | true => rfl
  | some dir => rfl

/-- Among more owners the innermost is one of the two, the first of equal ones. -/
theorem innermost_append (own others : List Span) (span : Span) :
    innermost (own ++ others) span = match innermost own span, innermost others span with
      | none, other => other
      | some owner, none => some owner
      | some owner, some other => if other.took < owner.took then some other else some owner := by
  rw [innermost, List.filter_append, argmin_append, innermost, innermost]
  cases (own.filter (encloses span)).argmin Span.took with
  | none => rfl
  | some owner => cases (others.filter (encloses span)).argmin Span.took <;> rfl

theorem workspace_ne_none {owner : Span} (h : ∀ owner ∈ owners, isOwner owner = true)
    (howner : owner ∈ innermost owners span) : owner.workspace ≠ none := by
  have hmem := (List.mem_filter.1 (List.argmin_mem howner)).1
  exact Option.isSome_iff_ne_none.1 (Bool.and_eq_true_iff.1 (h owner hmem)).1

/-- A span is put down to the same directory by other owners, if it needs one at all. -/
theorem attributed_eq_iff :
    attributed own span = attributed others span ↔ (isDirless span = true →
      (innermost own span).bind Span.workspace = (innermost others span).bind Span.workspace) := by
  rw [attributed_eq, attributed_eq]
  cases isDirless span with
  | false => exact iff_of_true rfl nofun
  | true => exact ⟨fun h _ ↦ (Span.mk.inj h).2.2.1, fun h ↦ by rw [h rfl]⟩

/-- A line keeps the directory of its own owner beside later owners. -/
theorem attributed_append_left (h : ∀ owner ∈ others, isOwner owner = true) :
    attributed (own ++ others) span = attributed own span ↔ (isDirless span = true →
      ∀ other ∈ innermost others span, ∃ owner ∈ innermost own span,
        owner.took ≤ other.took ∨ owner.workspace = other.workspace) := by
  rw [attributed_eq_iff]
  refine forall_congr' fun _ ↦ ?_
  rw [innermost_append]
  match hown : innermost own span, hother : innermost others span with
  | none, none => exact iff_of_true rfl nofun
  | some owner, none => exact iff_of_true rfl nofun
  | none, some other =>
    refine iff_of_false (fun heq ↦ workspace_ne_none h hother heq) fun hall ↦ ?_
    obtain ⟨owner, howner, -⟩ := hall other rfl
    nomatch howner
  | some owner, some other =>
    dsimp only
    simp only [Option.mem_def, Option.some.injEq, forall_eq', exists_eq_left']
    split_ifs with hlt
    · exact ⟨fun heq ↦ .inr heq.symm, fun hor ↦ (hor.resolve_left (not_le.2 hlt)).symm⟩
    · exact iff_of_true rfl (.inl (not_lt.1 hlt))

/-- And beside earlier ones, where its own owner is shorter. -/
theorem attributed_append_right (h : ∀ owner ∈ others, isOwner owner = true) :
    attributed (others ++ own) span = attributed own span ↔ (isDirless span = true →
      ∀ other ∈ innermost others span, ∃ owner ∈ innermost own span,
        owner.took < other.took ∨ owner.workspace = other.workspace) := by
  rw [attributed_eq_iff]
  refine forall_congr' fun _ ↦ ?_
  rw [innermost_append]
  match hother : innermost others span, hown : innermost own span with
  | none, none => exact iff_of_true rfl nofun
  | none, some owner => exact iff_of_true rfl nofun
  | some other, none =>
    refine iff_of_false (fun heq ↦ workspace_ne_none h hother heq) fun hall ↦ ?_
    obtain ⟨owner, howner, -⟩ := hall other rfl
    nomatch howner
  | some other, some owner =>
    dsimp only
    simp only [Option.mem_def, Option.some.injEq, forall_eq', exists_eq_left']
    split_ifs with hlt
    · exact iff_of_true rfl (.inl hlt)
    · exact ⟨fun heq ↦ .inr heq.symm, fun hor ↦ (hor.resolve_left hlt).symm⟩

/-! ### Whole texts -/

/-- A text that ends with a line feed is read apart from what follows it. -/
theorem linesFrom_append (text rest read : List Char) :
    linesFrom (text ++ '\n' :: rest) read =
      linesFrom (text ++ ['\n']) read ++ linesFrom rest [] := by
  induction text generalizing read with
  | nil => rfl
  | cons c text ih =>
    by_cases hc : c = '\n'
    · rw [hc]
      exact congrArg (lineText read :: ·) (ih [])
    · rw [List.cons_append, List.cons_append, linesFrom, linesFrom, ih]
      · exact fun h ↦ absurd h hc
      · exact fun h ↦ absurd h hc

theorem linesOf_append (a b : String) :
    linesOf (a ++ "\n" ++ b) = linesOf (a ++ "\n") ++ linesOf b := by
  rw [linesOf, linesOf, linesOf, ← List.map_append, lines, lines, lines, String.toList_append,
    String.toList_append, List.append_assoc]
  exact congrArg _ (linesFrom_append a.toList b.toList [])

theorem kind_of_mem_zipIdx :
    ∀ entry ∈ TEXT_PAIRS.zipIdx, entry.1.kind = .analysisLoad ∨ entry.1.kind = .indexBuild := by
  decide

/-- The kinds of the lines whose directory may be missing. -/
def isStore (span : Span) : Bool :=
  span.kind = .maintenance || span.kind = .indexChanges

theorem spec_of_kept {text : String} (h : x ∈ (scanText text).kept) :
    isOwner x.1 = false ∧ isStore x.1 = false := by
  obtain ⟨entry, hentry, hkind⟩ := kind_kept h
  rw [isOwner, isStore, hkind]
  obtain heq | heq := kind_of_mem_zipIdx entry hentry
  · rw [heq]
    exact ⟨Bool.and_false _, rfl⟩
  · rw [heq]
    exact ⟨Bool.and_false _, rfl⟩

/-- A line of another kind keeps its directory, or has none. -/
theorem attributed_of_isStore (owners : List Span) (h : isStore span = false) :
    attributed owners span = span := by
  rw [attributed_eq, isDirless, show (_ || _) = false from h, Bool.and_false]
  rfl

/-- The spans of a text: the measured ones, each with its directory, and the pairs. -/
theorem spans_parseLog (text : String) :
    (parseLog text).spans.Perm ((measuredIn text).map (attributed (ownersIn text)) ++
      (scanText text).kept.map Prod.fst) := by
  have hkept : ((scanText text).kept.map Prod.fst).filter isOwner = [] := by
    refine List.filter_eq_nil_iff.2 fun span hspan ↦ ?_
    obtain ⟨x, hx, rfl⟩ := List.mem_map.1 hspan
    exact Bool.eq_false_iff.1 (spec_of_kept hx).1
  have howners : (measuredIn text ++ (scanText text).kept.map Prod.fst).filter isOwner =
      ownersIn text := by
    rw [List.filter_append, hkept, List.append_nil, ownersIn]
  have hsame : ((scanText text).kept.map Prod.fst).map (attributed (ownersIn text)) =
      (scanText text).kept.map Prod.fst := by
    rw [List.map_map]
    exact List.map_congr_left fun x hx ↦ attributed_of_isStore _ (spec_of_kept hx).2
  show (sortByEnd (attributeDirless ((scanText text).spans ++ _))).Perm _
  refine (List.mergeSort_perm _ _).trans (.of_eq ?_)
  rw [attributeDirless, spans_scanText, howners, List.map_append, hsame]

/-- Putting a line down to a directory does not change its kind. -/
theorem isStore_attributed (owners : List Span) (span : Span) :
    isStore (attributed owners span) = isStore span := by
  rw [attributed_eq]
  split_ifs
  · rfl
  · rfl

/-- A line without a directory shows in what it is given which line it was. -/
theorem eq_of_attributed {span' : Span} (h : isDirless span = true) (h' : isDirless span' = true)
    (heq : attributed owners span = attributed others span') : span = span' := by
  have hnone : ∀ {s : Span}, isDirless s = true → s.workspace = none := fun hs ↦
    Option.isNone_iff_eq_none.1 (Bool.and_eq_true_iff.1 hs).1
  rw [attributed_eq, attributed_eq, if_pos h, if_pos h', Span.mk.injEq] at heq
  obtain ⟨hpid, hkind, -, hstart, hend⟩ := heq
  show (⟨span.pid, span.kind, span.workspace, span.startAt, span.endAt⟩ : Span) =
    ⟨span'.pid, span'.kind, span'.workspace, span'.startAt, span'.endAt⟩
  rw [hpid, hkind, hnone h, hnone h', hstart, hend]

/-- The spans are the same where each line is given the same directory and the pairs are the
same. -/
theorem spans_perm_iff {tagged : List (Span × List Span)} {pairs pairs' : List Span}
    (hpairs : ∀ span ∈ pairs, isStore span = false)
    (hpairs' : ∀ span ∈ pairs', isStore span = false) (owners : List Span) :
    ((tagged.map fun x ↦ attributed owners x.1) ++ pairs).Perm
        ((tagged.map fun x ↦ attributed x.2 x.1) ++ pairs') ↔
      (∀ x ∈ tagged, attributed owners x.1 = attributed x.2 x.1) ∧ pairs.Perm pairs' := by
  constructor
  · intro h
    have hnone : ∀ {spans : List Span}, (∀ span ∈ spans, isStore span = false) →
        spans.filter isStore = [] := fun hspans ↦
      List.filter_eq_nil_iff.2 fun span hspan ↦ Bool.eq_false_iff.1 (hspans span hspan)
    have hstore : ((tagged.filter fun x ↦ isStore x.1).map fun x ↦ attributed owners x.1).Perm
        ((tagged.filter fun x ↦ isStore x.1).map fun x ↦ attributed x.2 x.1) := by
      have hfilter := h.filter isStore
      rw [List.filter_append, List.filter_append, hnone hpairs, hnone hpairs', List.append_nil,
        List.append_nil, List.filter_map, List.filter_map] at hfilter
      have hcomp : ∀ ownersOf : Span × List Span → List Span,
          (isStore ∘ fun x : Span × List Span ↦ attributed (ownersOf x) x.1) =
            fun x ↦ isStore x.1 := fun ownersOf ↦ funext fun x ↦ isStore_attributed _ _
      rwa [hcomp fun _ ↦ owners, hcomp Prod.snd] at hfilter
    have hsame : ∀ x : Span × List Span, isDirless x.1 = false →
        attributed owners x.1 = attributed x.2 x.1 := fun x hx ↦
      attributed_eq_iff.2 fun hdirless ↦ absurd (hdirless.symm.trans hx) nofun
    have hkey : ∀ x y : Span × List Span, isDirless x.1 = true → isDirless y.1 = true →
        attributed owners y.1 = attributed x.2 x.1 → attributed owners x.1 = attributed x.2 x.1 :=
      fun x y hx hy heq ↦ by rw [← heq, eq_of_attributed hy hx heq]
    have hagree := (map_perm_map_iff (fun x _ ↦ hsame x) fun x _ y _ ↦ hkey x y).1 hstore
    have hall : ∀ x ∈ tagged, attributed owners x.1 = attributed x.2 x.1 := by
      intro x hx
      cases hstore : isStore x.1 with
      | true => exact hagree x (List.mem_filter.2 ⟨hx, hstore⟩)
      | false => rw [attributed_of_isStore _ hstore, attributed_of_isStore _ hstore]
    rw [List.map_congr_left hall] at h
    exact ⟨hall, (List.perm_append_left_iff _).1 h⟩
  · rintro ⟨hall, hperm⟩
    rw [List.map_congr_left hall]
    exact hperm.append_left _

/-- The reports are in the order of the ends. -/
theorem pairwise_sortByEnd (spans : List Span) :
    ((sortByEnd spans).map Span.endAt).Pairwise (· ≤ ·) := by
  refine List.pairwise_map.2 ((List.pairwise_mergeSort (fun a b c hab hbc ↦ ?_) (fun a b ↦ ?_)
    spans).imp of_decide_eq_true)
  · exact decide_eq_true ((of_decide_eq_true hab).trans (of_decide_eq_true hbc))
  · simpa using le_total a.endAt b.endAt

/-- The measured spans of two texts, each with the owners in its own text. -/
def taggedIn (a b : String) : List (Span × List Span) :=
  ((measuredIn a).map fun span ↦ (span, ownersIn a)) ++
    (measuredIn b).map fun span ↦ (span, ownersIn b)

theorem isOwner_of_mem_ownersIn {text : String} :
    ∀ owner ∈ ownersIn text, isOwner owner = true :=
  fun _ howner ↦ (List.mem_filter.1 howner).2

/-- What has to hold of the lines without a directory. -/
theorem tagged_agree_iff (a b : String) :
    (∀ x ∈ taggedIn a b, attributed (ownersIn a ++ ownersIn b) x.1 = attributed x.2 x.1) ↔
      (∀ span ∈ measuredIn a, isDirless span = true →
        ∀ other ∈ innermost (ownersIn b) span, ∃ own ∈ innermost (ownersIn a) span,
          own.took ≤ other.took ∨ own.workspace = other.workspace) ∧
      ∀ span ∈ measuredIn b, isDirless span = true →
        ∀ other ∈ innermost (ownersIn a) span, ∃ own ∈ innermost (ownersIn b) span,
          own.took < other.took ∨ own.workspace = other.workspace := by
  rw [taggedIn, List.forall_mem_append, List.forall_mem_map, List.forall_mem_map]
  exact and_congr (forall₂_congr fun _ _ ↦ attributed_append_left isOwner_of_mem_ownersIn)
    (forall₂_congr fun _ _ ↦ attributed_append_right isOwner_of_mem_ownersIn)

/-- The spans of two texts read together. -/
theorem spans_together (hlines : linesOf ab = linesOf a ++ linesOf b) :
    (parseLog ab).spans.Perm
      (((taggedIn a b).map fun x ↦ attributed (ownersIn a ++ ownersIn b) x.1) ++
        (scanText ab).kept.map Prod.fst) := by
  have howners : ownersIn ab = ownersIn a ++ ownersIn b := by
    rw [ownersIn, measuredIn_append hlines, List.filter_append]
    rfl
  refine (spans_parseLog ab).trans (.of_eq ?_)
  rw [howners, measuredIn_append hlines, taggedIn, List.map_append, List.map_append, List.map_map,
    List.map_map]
  rfl

/-- The spans of two texts read one by one. -/
theorem spans_absorb (a b : String) :
    ((parseLog a).absorb (parseLog b)).spans.Perm
      (((taggedIn a b).map fun x ↦ attributed x.2 x.1) ++
        ((scanText a).kept ++ (scanText b).kept).map Prod.fst) := by
  refine (List.mergeSort_perm _ _).trans ?_
  refine ((spans_parseLog a).append (spans_parseLog b)).trans ?_
  rw [taggedIn, List.map_append, List.map_append, List.map_map, List.map_map, List.append_assoc,
    List.append_assoc]
  exact (List.perm_append_comm_assoc _ _ _).append_left _

/-- **Two texts give the same one by one and together** exactly when neither needs a line of the
other. -/
theorem absorb_parseLog_iff (a b : String) :
    ((parseLog (a ++ "\n")).absorb (parseLog b)).Agrees (parseLog (a ++ "\n" ++ b)) ↔
      Apart (a ++ "\n") b := by
  have hlines := linesOf_append a b
  generalize a ++ "\n" = a at hlines ⊢
  have hstore : ∀ {kept : List (Span × Bool)}, (∀ x ∈ kept, isStore x.1 = false) →
      ∀ span ∈ kept.map Prod.fst, isStore span = false := fun h ↦ List.forall_mem_map.2 h
  have hspans := @spans_perm_iff (taggedIn a b) _ _
    (hstore fun x (hx : x ∈ (scanText (a ++ b)).kept) ↦ (spec_of_kept hx).2)
    (hstore fun x (hx : x ∈ (scanText a).kept ++ (scanText b).kept) ↦
      (List.mem_append.1 hx).elim (fun h ↦ (spec_of_kept h).2) fun h ↦ (spec_of_kept h).2)
    (ownersIn a ++ ownersIn b)
  rw [tagged_agree_iff] at hspans
  have hguesses : ((parseLog a).absorb (parseLog b)).pairedByGuess =
      ((scanText a).kept ++ (scanText b).kept).countP (·.2) := List.countP_append.symm
  constructor
  · intro h
    have hperm := (spans_together hlines).symm.trans (h.spans.symm.trans (spans_absorb a b))
    obtain ⟨⟨hfirst, hsecond⟩, hkept⟩ := hspans.1 hperm
    exact ⟨(kept_perm_iff hlines).1 ⟨hkept, h.pairedByGuess.symm.trans hguesses⟩, hfirst, hsecond⟩
  · rintro ⟨hpairs, hfirst, hsecond⟩
    obtain ⟨hkept, hcount⟩ := (kept_perm_iff hlines).2 hpairs
    have hperm := (spans_absorb a b).trans ((hspans.2 ⟨⟨hfirst, hsecond⟩, hkept⟩).symm.trans
      (spans_together hlines).symm)
    have hlength := (kept_perm hlines hpairs).length_eq
    rw [List.length_append] at hlength
    exact ⟨hperm, (hperm.map Span.endAt).eq_of_pairwise' (pairwise_sortByEnd _)
      (pairwise_sortByEnd _), hlength.symm, hguesses.trans hcount.symm⟩

/-- A pair that is opened in one file and closed in the next is found only together. -/
theorem not_agrees_across_files :
    let a := "2026-01-01T00:00:00Z [7] Loading IDE for project: /p"
    let b := "2026-01-01T00:00:05Z [7] IDE loaded successfully"
    (parseLog (a ++ "\n" ++ b)).rebuiltFromText = 1 ∧
      ((parseLog (a ++ "\n")).absorb (parseLog b)).rebuiltFromText = 0 ∧
      ¬ ((parseLog (a ++ "\n")).absorb (parseLog b)).Agrees (parseLog (a ++ "\n" ++ b)) := by
  intro a b
  have htogether : (parseLog (a ++ "\n" ++ b)).rebuiltFromText = 1 := by
    decide +kernel
  have hapart : ((parseLog (a ++ "\n")).absorb (parseLog b)).rebuiltFromText = 0 := by
    decide +kernel
  refine ⟨htogether, hapart, fun h ↦ ?_⟩
  have heq := h.rebuiltFromText
  rw [htogether, hapart] at heq
  nomatch heq

end RustCodeMcp.ToolLatency
