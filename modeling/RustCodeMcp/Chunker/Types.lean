import Mathlib.Data.Nat.Notation

/-!
# Code chunks

The data a file is cut into: a chunk is a piece of code under a random identifier, with the context
it is embedded and searched with. `formatForEmbedding` is the text the embedder and the token
counter see.

Identifiers are UUIDs. Nothing reads more of them than whether two are equal, so they are numbers
drawn from a supply that never repeats one.
-/

namespace RustCodeMcp

/-- A path, as the components in which paths are compared and printed. -/
abbrev PathBuf := List String

/-- Named, so that every look-up of a path has one proof of it. -/
instance PathBuf.lawfulBEq : LawfulBEq PathBuf :=
  List.instLawfulBEq

/-- The printed form of a path. -/
def PathBuf.display (path : PathBuf) : String :=
  "/".intercalate path

/-- A unique identifier for a code chunk. -/
structure ChunkId where
  /-- The UUID. -/
  uuid : ℕ
  deriving DecidableEq

/-- How many imports, and how many outgoing calls, a chunk's embedded text names. -/
def EMBEDDED_CONTEXT_ITEMS : ℕ := 5

/-- Context information for a code chunk. -/
structure ChunkContext where
  /-- The file the chunk was cut from. -/
  filePath : PathBuf
  /-- Module path, outermost first. -/
  modulePath : List String
  /-- Symbol the chunk represents. -/
  symbolName : String
  /-- Kind of symbol. -/
  symbolKind : String
  /-- Documentation string. -/
  docstring : Option String
  /-- The file's first imports. -/
  imports : List String
  /-- The first functions the symbol calls. -/
  outgoingCalls : List String
  /-- Parent symbol omitted or split to create this smaller chunk. -/
  parentSymbolName : Option String
  /-- One-based part number when a symbol is line-split. -/
  splitPart : Option ℕ
  /-- Number of parts when a symbol is line-split. -/
  splitTotal : Option ℕ
  /-- First line in the source file. -/
  lineStart : ℕ
  /-- Last line in the source file. -/
  lineEnd : ℕ
  deriving DecidableEq

/-- A code chunk without its identifier: what the chunker makes of a file's text. -/
structure ChunkBody where
  /-- The code. -/
  content : String
  /-- Its context. -/
  context : ChunkContext
  deriving DecidableEq

/-- A code chunk with content and context. -/
structure CodeChunk where
  /-- Unique identifier. -/
  id : ChunkId
  /-- The code. -/
  content : String
  /-- Its context. -/
  context : ChunkContext
  deriving DecidableEq

/-- The chunk up to its identifier. -/
def CodeChunk.body (chunk : CodeChunk) : ChunkBody :=
  ⟨chunk.content, chunk.context⟩

/-- The text of a chunk the embedder sees: its context, one comment line each, and its code. -/
def CodeChunk.formatForEmbedding (chunk : CodeChunk) : String :=
  let context := chunk.context
  let file := ["// File: " ++ context.filePath.display,
    "// Location: lines " ++ toString context.lineStart ++ "-" ++ toString context.lineEnd]
  let module :=
    if context.modulePath.isEmpty then []
    else ["// Module: " ++ "::".intercalate context.modulePath]
  let symbol := ["// Symbol: " ++ context.symbolName ++ " (" ++ context.symbolKind ++ ")"]
  let parent := (context.parentSymbolName.map ("// Parent: " ++ ·)).toList
  let part := match context.splitPart, context.splitTotal with
    | some part, some total => ["// Chunk part: " ++ toString part ++ "/" ++ toString total]
    | _, _ => []
  let purpose := (context.docstring.map ("// Purpose: " ++ ·)).toList
  let imports :=
    if context.imports.isEmpty then []
    else ["// Imports: " ++ ", ".intercalate (context.imports.take EMBEDDED_CONTEXT_ITEMS)]
  let calls :=
    if context.outgoingCalls.isEmpty then []
    else ["// Calls: " ++ ", ".intercalate (context.outgoingCalls.take EMBEDDED_CONTEXT_ITEMS)]
  "\n".intercalate
    (file ++ module ++ symbol ++ parent ++ part ++ purpose ++ imports ++ calls ++
      ["", chunk.content])

/-- Token limits for splitting oversized chunks before embedding. -/
structure ChunkSplitConfig where
  /-- Preferred upper bound for the embedded text. -/
  targetTokens : ℕ
  /-- Hard upper bound; single-line chunks may still exceed it. -/
  hardMaxTokens : ℕ
  /-- Whether only the first part of a line-split symbol carries its docstring, imports and
  calls. -/
  contextInFirstPartOnly : Bool

/-- The limits as they are accepted: a target of at least one token, a hard bound at least the
target. -/
def ChunkSplitConfig.new (targetTokens hardMaxTokens : ℕ) : ChunkSplitConfig :=
  let targetTokens := max targetTokens 1
  { targetTokens, hardMaxTokens := max hardMaxTokens targetTokens, contextInFirstPartOnly := false }

/-- The same budget with `contextInFirstPartOnly` set to `on`. -/
def ChunkSplitConfig.withContextInFirstPartOnly (config : ChunkSplitConfig) (on : Bool) :
    ChunkSplitConfig :=
  { config with contextInFirstPartOnly := on }

end RustCodeMcp
