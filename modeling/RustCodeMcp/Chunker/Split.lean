import Mathlib.Data.List.MinMax
import RustCodeMcp.Chunker.Types

/-!
# Splitting oversized chunks

Chunks whose embedded text has more tokens than the target are dropped or cut up. A container
(`impl`, `module`, `trait`) with a chunk inside it is dropped: its children cover what is worth
finding, and carry its name from then on. Anything else is cut by lines, as many to a part as the
target allows, but at least one.

Every part, and every candidate for one, gets a fresh identifier; the functions here take the next
one and answer the next one still unused.

**The order of the two steps matters.** Containers are chosen first, by what is in the file and not
by what splitting makes of it, and the children of a dropped container are renamed before they are
cut; so the parts of a long method already carry the name of its `impl`. Which container gives its
name is a search for the smallest one around a chunk (`nearestSkippedParent`), and the first of
several equally small.

Tokens are counted by a tokenizer that is a parameter here, and estimated where it fails.
-/

namespace RustCodeMcp

/-! ### Lines -/

/-- The text of a line, given its characters in reverse: a carriage return before the line feed is
not part of it. -/
def lineText : List Char → String
  | '\r' :: line => String.ofList line.reverse
  | line => String.ofList line.reverse

/-- The lines of a text, given what is read of the first one, in reverse. A last line need not end
with a line feed, and an empty one is none. -/
def linesFrom : List Char → List Char → List String
  | [], [] => []
  | [], line => [String.ofList line.reverse]
  | '\n' :: rest, line => lineText line :: linesFrom rest []
  | c :: rest, line => linesFrom rest (c :: line)

/-- The lines of a text, as `str::lines` gives them. -/
def lines (text : String) : List String :=
  linesFrom text.toList []

/-- Lines put together to a text. -/
def joinLines (lines : List String) : String :=
  "\n".intercalate lines

example : lines "a\r\nb\n\nc" = ["a", "b", "", "c"] ∧ lines "a\n" = ["a"] ∧ lines "" = [] := by
  decide

/-! ### Counting tokens -/

/-- How many tokens a chunk is taken to have: as counted, or a quarter of the bytes of its embedded
text; at least one. -/
def tokenCountOrEstimate (tokenCount : CodeChunk → Option ℕ) (chunk : CodeChunk) : ℕ :=
  max ((tokenCount chunk).getD ((chunk.formatForEmbedding.utf8ByteSize + 3) / 4)) 1

/-! ### Containers -/

/-- The kinds of symbols that hold others. -/
def isContainerKind (symbolKind : String) : Bool :=
  ["impl", "module", "trait"].contains symbolKind

/-- The child's lines are among the parent's, and not all of them. -/
def strictlyContains (parent child : CodeChunk) : Bool :=
  decide (parent.context.filePath = child.context.filePath) &&
    decide (parent.context.lineStart ≤ child.context.lineStart) &&
    decide (child.context.lineEnd ≤ parent.context.lineEnd) &&
    (decide (parent.context.lineStart < child.context.lineStart) ||
      decide (child.context.lineEnd < parent.context.lineEnd))

/-- Which chunks to drop: oversized containers with a chunk inside them. -/
def skipContainer (config : ChunkSplitConfig) (tokenCount : CodeChunk → Option ℕ)
    (chunks : List CodeChunk) : List Bool :=
  chunks.zipIdx.map fun (chunk, idx) ↦
    if tokenCountOrEstimate tokenCount chunk ≤ config.targetTokens ||
        !isContainerKind chunk.context.symbolKind then false
    else chunks.zipIdx.any fun (child, childIdx) ↦
      decide (childIdx ≠ idx) && strictlyContains chunk child

/-- The smallest dropped chunk around the one at `idx`, the first one if several are. Ranges that
contain a chunk are not empty unless its own is, so their lengths are plain differences. -/
def nearestSkippedParent (idx : ℕ) (chunk : CodeChunk) (chunks : List CodeChunk)
    (skip : List Bool) : Option CodeChunk :=
  ((chunks.zipIdx.filter fun (parent, parentIdx) ↦
      skip.getD parentIdx false && decide (parentIdx ≠ idx) && strictlyContains parent chunk).argmin
    fun (parent, _) ↦ parent.context.lineEnd - parent.context.lineStart).map Prod.fst

/-! ### Cutting a chunk by lines -/

/-- A part of `source` holding `content`. A `bare` part keeps the symbol's name, place and part
number but not its docstring, imports and calls. -/
def makePartChunk (id : ChunkId) (source : CodeChunk) (startLineOffset endLineOffset : ℕ)
    (content : String) (bare : Bool) : CodeChunk where
  id
  content
  context := { source.context with
    lineStart := source.context.lineStart + startLineOffset
    lineEnd := source.context.lineStart + (endLineOffset - 1)
    docstring := if bare then none else source.context.docstring
    imports := if bare then [] else source.context.imports
    outgoingCalls := if bare then [] else source.context.outgoingCalls }

/-- Where the cutting of a chunk stands. -/
structure LineSplit where
  /-- The parts cut so far. -/
  parts : List CodeChunk
  /-- The offset of the first line not in them. -/
  partStart : ℕ
  /-- The lines read since. -/
  currentLines : List String
  /-- The next identifier. -/
  next : ℕ

section Split

variable (config : ChunkSplitConfig) (tokenCount : CodeChunk → Option ℕ)

/-- Whether the part about to be cut drops the symbol's context. -/
def LineSplit.bare (state : LineSplit) : Bool :=
  config.contextInFirstPartOnly && !state.parts.isEmpty

/-- Read one more line: it joins the current ones, unless the part would get too large with it. -/
def LineSplit.read (chunk : CodeChunk) (state : LineSplit) (line : String × ℕ) : LineSplit :=
  let candidate := makePartChunk ⟨state.next⟩ chunk state.partStart (line.2 + 1)
    (joinLines (state.currentLines ++ [line.1])) (state.bare config)
  if !state.currentLines.isEmpty &&
      decide (config.targetTokens < tokenCountOrEstimate tokenCount candidate) then
    let part := makePartChunk ⟨state.next + 1⟩ chunk state.partStart line.2
      (joinLines state.currentLines) (state.bare config)
    { parts := state.parts ++ [part]
      partStart := line.2
      currentLines := [line.1]
      next := state.next + 2 }
  else { state with currentLines := state.currentLines ++ [line.1], next := state.next + 1 }

/-- The parts with their numbers. -/
def numberParts (parts : List CodeChunk) : List CodeChunk :=
  parts.mapIdx fun idx part ↦
    { part with context := { part.context with
        splitPart := some (idx + 1)
        splitTotal := some parts.length } }

/-- Cut a chunk by lines. -/
def splitLeafChunk (chunk : CodeChunk) (next : ℕ) : List CodeChunk × ℕ :=
  let chunkLines := lines chunk.content
  if chunkLines.length ≤ 1 then ([chunk], next)
  else
    let state := chunkLines.zipIdx.foldl (LineSplit.read config tokenCount chunk) ⟨[], 0, [], next⟩
    let (parts, next) :=
      if state.currentLines.isEmpty then (state.parts, state.next)
      else (state.parts ++ [makePartChunk ⟨state.next⟩ chunk state.partStart chunkLines.length
        (joinLines state.currentLines) (state.bare config)], state.next + 1)
    if parts.length ≤ 1 then ([chunk], next)
    else (numberParts parts, next)

/-- A chunk under the name of the smallest dropped chunk around it, if there is one. -/
def withSkippedParent (chunks : List CodeChunk) (skip : List Bool) (idx : ℕ) (chunk : CodeChunk) :
    CodeChunk :=
  match nearestSkippedParent idx chunk chunks skip with
  | some parent => { chunk with context := { chunk.context with
      parentSymbolName := some parent.context.symbolName } }
  | none => chunk

/-- What becomes of a chunk that is not dropped. -/
def splitChunk (chunk : CodeChunk) (next : ℕ) : List CodeChunk × ℕ :=
  if config.targetTokens < tokenCountOrEstimate tokenCount chunk then
    splitLeafChunk config tokenCount chunk next
  else ([chunk], next)

/-- The output with what becomes of one more chunk. -/
def splitNext (chunks : List CodeChunk) (output : List CodeChunk × ℕ) (chunk : CodeChunk × ℕ) :
    List CodeChunk × ℕ :=
  let skip := skipContainer config tokenCount chunks
  if skip.getD chunk.2 false then output
  else
    let pieces := splitChunk config tokenCount
      (withSkippedParent chunks skip chunk.2 chunk.1) output.2
    (output.1 ++ pieces.1, pieces.2)

/-- Split or elide chunks whose formatted embedding text exceeds the target. -/
def splitOversizedChunks (chunks : List CodeChunk) (next : ℕ) : List CodeChunk × ℕ :=
  chunks.zipIdx.foldl (splitNext config tokenCount chunks) ([], next)

end Split

end RustCodeMcp
