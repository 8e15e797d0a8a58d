import Mathlib.Data.List.MinMax
import Mathlib.Data.List.Sort
import RustCodeMcp.Chunker.Split
import RustCodeMcp.Embeddings.VramBudget
import RustCodeMcp.Latency.Timestamps
import RustCodeMcp.Text.Separators

/-!
# Operations in a log

A `mem:` line is an operation that ended at the line's time and took as long as it says. Older
binaries wrote loads and index builds as an opening and a closing line of text, which are paired
per process, and maintenance and index lines without the directory, which is found in the enclosing
sync or `index_codebase` call. Times are exact here, and a duration that is no number is not read.

A text is read line by line, with the lines that opened something held back by pair and process. A
closing line takes the last of them; where several were open, it is a guess which one it closes, and
the span is marked as guessed. Old and new binaries write to the same files, so that the pairs of a
process are dropped when it turns out to measure the kind itself (`Scan.kept`).
-/

namespace RustCodeMcp.ToolLatency

open Numerals Separators

/-- A directory as it stands in a line. -/
abbrev Dir := List Char

/-- What an operation was. -/
inductive Kind
  | tool (name : List Char)
  | sync
  | maintenance
  | indexChanges
  | analysisLoad
  | indexBuild
deriving DecidableEq

/-- From `startAt` to `endAt`, in seconds since the epoch. -/
structure Span where
  pid : ℕ
  kind : Kind
  workspace : Option Dir
  startAt : ℚ
  endAt : ℚ
deriving DecidableEq

/-- What a log says: the spans, and how many of them were rebuilt from pairs, or guessed. -/
structure Parsed where
  spans : List Span
  rebuiltFromText : ℕ
  pairedByGuess : ℕ

/-- What the rounding of times and durations may make up. -/
def ROUNDING_SECS : ℚ := 15 / 100

/-- The duration. -/
def Span.took (span : Span) : ℚ :=
  span.endAt - span.startAt

/-! ### Lines -/

/-- `str::parse::<u32>` -/
def parseU32 (text : List Char) : Option ℕ :=
  let digits := match text with
    | '+' :: rest => rest
    | text => text
  (parseNat digits).filter (· < 2 ^ 32)

/-- The timestamp, the pid (0 when the line has none) and the rest. -/
def splitLine (line : List Char) : Option (ℚ × ℕ × List Char) := do
  let (stamp, rest) ← Fields.splitOnce ' ' line
  let time ← parseTimestamp stamp
  match rest.dropWhile isWhiteSpace with
  | '[' :: tail =>
    let (pid, rest) ← Fields.splitOnce ']' tail
    let pid ← parseU32 pid
    return (time, pid, rest)
  | rest => return (time, 0, rest)

/-- The operation, and its directory. -/
def parseWhat (what : List Char) : Option (Kind × Option Dir) :=
  if let some tool := stripPrefix "tool ".toList what then
    match Fields.splitOnce ' ' tool with
    | some (name, dir) => some (.tool name, some dir)
    | none => some (.tool tool, none)
  else if let some dir := stripPrefix "background sync of ".toList what then
    some (.sync, some dir)
  else if let some tail := stripPrefix "vector store maintenance".toList what then
    some (.maintenance, stripPrefix " of ".toList tail)
  else if let some tail := stripPrefix "index changes".toList what then
    some (.indexChanges, do
      let tail ← stripPrefix " of ".toList tail
      let (dir, _) ← rsplitOnce " (".toList tail
      return dir)
  else if let some tail := stripPrefix "analysis load ".toList what then
    (splitOnce " of ".toList tail).map fun (_, dir) ↦ (.analysisLoad, some dir)
  else if let some dir := stripPrefix "index build of ".toList what then
    some (.indexBuild, some dir)
  else none

/-- What a `mem:` line measured: `<what> took <secs>s, …`. -/
def parseMem (whatAndRest : List Char) : Option (Kind × Option Dir × ℚ) := do
  let (what, rest) ← rsplitOnce " took ".toList whatAndRest
  let (secs, _) ← splitOnce "s,".toList rest
  let secs ← parseDecimal secs
  let (kind, workspace) ← parseWhat what
  return (kind, workspace, secs)

/-! ### Pairs of text lines -/

/-- An opening line and a closing one, as older binaries wrote them. -/
structure TextPair where
  kind : Kind
  opens : List Char → Option Dir
  closes : List Char → Bool

/-- The loads and the index builds. -/
def TEXT_PAIRS : List TextPair :=
  [{ kind := .analysisLoad
     opens := fun rest ↦ (splitOnce " IDE for project: ".toList rest).map (·.2)
     closes := fun rest ↦ "IDE loaded successfully".toList.isSuffixOf rest },
   { kind := .indexBuild
     opens := fun rest ↦ (splitOnce
       "rmc_server::tools::endpoints::query: Initializing unified indexer for ".toList rest).map
         (·.2)
     closes := contains "rmc_server::tools::endpoints::query: Indexed ".toList }]

/-- What has been read so far. The lines that opened something are kept by pair and pid. -/
structure Scan where
  spans : List Span
  opened : ℕ × ℕ → List (ℚ × Dir)
  fromText : List (Span × Bool)

/-- Nothing read yet. -/
def Scan.start : Scan :=
  ⟨[], fun _ ↦ [], []⟩

/-- What a line does for one pair: open it, close it, or nothing. -/
def scanPair (time : ℚ) (pid : ℕ) (rest : List Char) (scan : Scan) (entry : TextPair × ℕ) : Scan :=
  let (pair, index) := entry
  let opened := scan.opened (index, pid)
  match pair.opens rest with
  | some dir =>
    let open' := (time, trimmed (String.ofList dir))
    { scan with opened := Function.update scan.opened (index, pid) (opened ++ [open']) }
  | none =>
    if pair.closes rest then
      match opened.getLast? with
      | some (start, dir) =>
        { scan with
          opened := Function.update scan.opened (index, pid) []
          fromText := scan.fromText ++
            [(⟨pid, pair.kind, some dir, start, time⟩, !opened.dropLast.isEmpty)] }
      | none => scan
    else scan

/-- One line: a measurement, or a line of the pairs. -/
def scanLine (scan : Scan) (line : List Char) : Scan :=
  match splitLine line with
  | none => scan
  | some (time, pid, rest) =>
    match splitOnce " mem: ".toList rest with
    | some (_, what) =>
      if contains "rmc_mem:".toList rest then
        match parseMem what with
        | some (kind, workspace, secs) =>
          { scan with spans := scan.spans ++ [⟨pid, kind, workspace, time - secs, time⟩] }
        | none => scan
      else scan
    | none => TEXT_PAIRS.zipIdx.foldl (scanPair time pid rest) scan

/-! ### Directories -/

/-- A sync or an `index_codebase` call whose directory is known. -/
def isOwner (span : Span) : Bool :=
  span.workspace.isSome && (span.kind = .sync || span.kind = .tool "index_codebase".toList)

/-- The owner ran around the span, in the same process. -/
def encloses (span owner : Span) : Bool :=
  owner.pid = span.pid && owner.startAt ≤ span.startAt + ROUNDING_SECS &&
    span.endAt ≤ owner.endAt + ROUNDING_SECS

/-- A maintenance or index line without a directory gets the one of the shortest enclosing owner,
the first of them. -/
def attributed (owners : List Span) (span : Span) : Span :=
  if span.workspace.isSome || !(span.kind = .maintenance || span.kind = .indexChanges) then span
  else
    { span with
      workspace := ((owners.filter (encloses span)).argmin Span.took).bind Span.workspace }

/-- Every line gets its directory. -/
def attributeDirless (spans : List Span) : List Span :=
  spans.map (attributed (spans.filter isOwner))

/-! ### Logs -/

/-- The order of the report. -/
def sortByEnd (spans : List Span) : List Span :=
  spans.mergeSort fun a b ↦ a.endAt ≤ b.endAt

/-- A process that writes the `mem:` line of a kind itself has its text pairs of that kind
ignored. -/
def Scan.kept (scan : Scan) : List (Span × Bool) :=
  let withMemLines := (scan.spans.filter fun span ↦
    TEXT_PAIRS.any fun pair ↦ pair.kind = span.kind).map fun span ↦ (span.kind, span.pid)
  scan.fromText.filter fun (span, _) ↦ !withMemLines.contains (span.kind, span.pid)

/-- What a finished scan amounts to. -/
def Scan.parsed (scan : Scan) : Parsed where
  spans := sortByEnd (attributeDirless (scan.spans ++ scan.kept.map (·.1)))
  rebuiltFromText := scan.kept.length
  pairedByGuess := scan.kept.countP (·.2)

/-- Read a text. -/
def scanText (text : String) : Scan :=
  ((lines text).map String.toList).foldl scanLine .start

/-- Read a log. -/
def parseLog (text : String) : Parsed :=
  (scanText text).parsed

/-- Put two logs together. -/
def Parsed.absorb (parsed other : Parsed) : Parsed where
  spans := sortByEnd (parsed.spans ++ other.spans)
  rebuiltFromText := parsed.rebuiltFromText + other.rebuiltFromText
  pairedByGuess := parsed.pairedByGuess + other.pairedByGuess

end RustCodeMcp.ToolLatency
