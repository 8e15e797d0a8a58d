import Mathlib.Algebra.GroupWithZero.Nat
import Mathlib.Data.List.Infix
import RustCodeMcp.Effect.Program
import RustCodeMcp.Embeddings.Batching
import RustCodeMcp.Machine.Runs

/-!
# Remote embedding

The texts are sorted by length and cut into batches, whose requests are made concurrently. A batch
that is refused as too large is halved; what comes back is put in order by the index within a
request, then by the index among the texts.

The programs here make requests and get whatever a server answers: any status, any items, or
nothing.

**A program here has no state but its own.** Time, retries after a pause and the connection are left
to whoever runs it; what it sees is one answer for each request, so that all a server can do is in
the type of an answer: a status, a body that may be unreadable, items with any indexes and any
vectors. The halves of a refused batch go back onto the list of what is to be requested, the first
before the second, so the answers come in the order of the inputs however often a batch is halved.

Requests of different batches overlap, but a batch makes one request at a time; the state of a run
is the list of its batches with what each is waiting for.
-/

namespace RustCodeMcp.OpenRouter

open Effect

/-- A vector. -/
abbrev Embedding := List Float32

/-- How vectors are sent. -/
inductive OpenRouterEncodingFormat
  | float
  | base64

/-- The name of a format. -/
def OpenRouterEncodingFormat.asStr : OpenRouterEncodingFormat → String
  | .float => "float"
  | .base64 => "base64"

/-- What providers are sorted by. -/
inductive OpenRouterProviderSort
  | price
  | throughput
  | latency

/-- Which provider is to answer. -/
structure OpenRouterProviderPreferences where
  sort : Option OpenRouterProviderSort
  preferredMinThroughput : Option ℕ
  preferredMaxLatency : Option Float

/-- What the environment sets; a limit that is not positive is replaced by its default. -/
structure OpenRouterRuntimeConfig where
  maxBatchInputs : ℕ
  maxBatchTokens : ℕ
  concurrency : ℕ
  encodingFormat : OpenRouterEncodingFormat
  provider : Option OpenRouterProviderPreferences
  maxBatchInputs_pos : 0 < maxBatchInputs
  maxBatchTokens_pos : 0 < maxBatchTokens
  concurrency_pos : 0 < concurrency

/-- The embedder: its model, and what it was configured with. -/
structure OpenRouterEmbedder where
  model : String
  dim : ℕ
  config : OpenRouterRuntimeConfig
  /-- By the token counter, or by the lengths of the texts: one for each text. -/
  estimateTokenLengths : (texts : List String) →
    { lengths : List ℕ // lengths.length = texts.length }

/-! ### Batches -/

/-- Why a batch has no vectors: it is too large, or anything else. -/
inductive OpenRouterBatchError
  | payloadTooLarge (message : String)
  | fatal (message : String)

/-- A text with its position and its length. -/
structure OpenRouterInput where
  originalIndex : ℕ
  text : String
  tokenLen : ℕ

/-- Texts that are asked for together. -/
structure OpenRouterInputBatch where
  inputs : List OpenRouterInput

namespace OpenRouterInputBatch

/-- The texts of a batch. -/
def texts (batch : OpenRouterInputBatch) : List String :=
  batch.inputs.map OpenRouterInput.text

/-- How many they are. -/
def len (batch : OpenRouterInputBatch) : ℕ :=
  batch.inputs.length

/-- A batch in two. -/
def splitAt (batch : OpenRouterInputBatch) (mid : ℕ) :
    OpenRouterInputBatch × OpenRouterInputBatch :=
  (⟨batch.inputs.take mid⟩, ⟨batch.inputs.drop mid⟩)

end OpenRouterInputBatch

/-- The inputs, by length and then by position. -/
def sortOpenrouterInputs (inputs : List OpenRouterInput) : List OpenRouterInput :=
  inputs.mergeSort fun a b ↦
    decide (a.tokenLen < b.tokenLen ∨ a.tokenLen = b.tokenLen ∧ a.originalIndex ≤ b.originalIndex)

/-- The inputs, by length and then by position. -/
def sortedInputs (texts : List String) (tokenLengths : List ℕ) : List OpenRouterInput :=
  sortOpenrouterInputs ((texts.zip tokenLengths).zipIdx.map fun ((text, tokenLen), originalIndex) ↦
    { originalIndex, text, tokenLen := max tokenLen 1 })

/-- The batches of some texts. -/
def planRemoteInputBatches (texts : List String) (tokenLengths : List ℕ)
    (config : OpenRouterRuntimeConfig) : List OpenRouterInputBatch :=
  let inputs := sortedInputs texts tokenLengths
  (planBatches inputs config.maxBatchInputs config.maxBatchTokens OpenRouterInput.tokenLen).map
    fun plan ↦ ⟨plan.slice inputs⟩

/-- Every position of a list, or the message for the first one without a value. -/
def collectPositions {E : Type} (omitted : ℕ → String) (output : List (Option E)) :
    Except String (List E) :=
  output.zipIdx.mapM fun (maybe, idx) ↦
    match maybe with
    | some value => .ok value
    | none => .error (omitted idx)

/-- The vectors in the order of the texts; each position has to be there. -/
def restoreOriginalEmbeddingOrder (expectedCount : ℕ) (embeddings : List (ℕ × Embedding)) :
    Except String (List Embedding) := do
  let output ← embeddings.foldlM (fun output (originalIndex, embedding) ↦
    if originalIndex ≥ expectedCount then
      .error (s!"OpenRouter embedding result had out-of-range original index {originalIndex} for " ++
        s!"{expectedCount} inputs")
    else .ok (output.set originalIndex (some embedding))) (List.replicate expectedCount none)
  collectPositions (fun idx ↦ s!"OpenRouter embedding result omitted original index {idx}") output

/-! ### Responses -/

/-- A vector as it is sent: as numbers, or encoded. -/
inductive EmbeddingResponseEmbedding
  | float (embedding : Embedding)
  | base64 (encoded : String)

/-- An item of an answer: an index, and a vector. -/
structure EmbeddingResponseItem where
  embedding : EmbeddingResponseEmbedding
  index : ℕ

/-- A body that could be read. -/
structure Body where
  text : String
  /-- What the JSON parser makes of it. -/
  data : Except String (List EmbeddingResponseItem)

/-- The status of an answer. -/
structure StatusCode where
  code : ℕ
  /-- The code with its canonical reason. -/
  text : String

/-- What comes of a request. -/
inductive Response
  /-- Nothing came back; a failed connection and a timeout may be retried. -/
  | failed (retryable : Bool) (message : String)
  | answered (status : StatusCode) (body : Except String Body)

/-- From 200 to 299. -/
def StatusCode.isSuccess (status : StatusCode) : Bool :=
  200 ≤ status.code && status.code < 300

/-- The loop over the characters of an encoded text. -/
structure Decoding where
  output : List UInt8
  quartet : List ℕ
  sawPadding : Bool

/-- What a character of the alphabet stands for. -/
def base64Value (byte : UInt8) : Except String ℕ :=
  let n := byte.toNat
  if 65 ≤ n ∧ n ≤ 90 then .ok (n - 65)
  else if 97 ≤ n ∧ n ≤ 122 then .ok (n - 97 + 26)
  else if 48 ≤ n ∧ n ≤ 57 then .ok (n - 48 + 52)
  else if n = 43 then .ok 62
  else if n = 47 then .ok 63
  else if n = 61 then .ok 64
  else
    let digits := String.ofList (Nat.toDigits 16 n)
    .error ("invalid base64 byte 0x" ++ (if n < 16 then "0" else "") ++ digits)

/-- The bytes of four characters. -/
def decodeQuartet (q₀ q₁ q₂ q₃ : ℕ) : Except String (List UInt8) :=
  let padding := ([q₀, q₁, q₂, q₃].filter (· = 64)).length
  if padding > 2 then .error "invalid base64 padding length"
  else if q₀ = 64 ∨ q₁ = 64 then .error "invalid base64 padding position"
  else if padding = 1 ∧ q₃ ≠ 64 then .error "invalid base64 padding position"
  else if padding = 2 ∧ (q₂ ≠ 64 ∨ q₃ ≠ 64) then .error "invalid base64 padding position"
  else
    let b₂ := if q₂ = 64 then 0 else q₂
    let b₃ := if q₃ = 64 then 0 else q₃
    let triple := q₀ * 2 ^ 18 + q₁ * 2 ^ 12 + b₂ * 2 ^ 6 + b₃
    .ok ([UInt8.ofNat (triple / 2 ^ 16)] ++
      (if padding < 2 then [UInt8.ofNat (triple / 2 ^ 8)] else []) ++
      if padding = 0 then [UInt8.ofNat triple] else [])

/-- One character more. -/
def Decoding.read (s : Decoding) (byte : UInt8) : Except String Decoding :=
  if byte.toNat ∈ [9, 10, 12, 13, 32] then .ok s
  else if s.sawPadding ∧ byte.toNat ≠ 61 then .error "non-padding character after base64 padding"
  else do
    let value ← base64Value byte
    let sawPadding := s.sawPadding || value = 64
    match s.quartet ++ [value] with
    | [q₀, q₁, q₂, q₃] =>
      let bytes ← decodeQuartet q₀ q₁ q₂ q₃
      .ok { output := s.output ++ bytes, quartet := [], sawPadding }
    | quartet => .ok { s with quartet, sawPadding }

/-- `decode_base64_standard` -/
def decodeBase64Standard (encoded : String) : Except String (List UInt8) := do
  let s ← encoded.toUTF8.toList.foldlM Decoding.read ⟨[], [], false⟩
  if s.quartet.length ≠ 0 then .error "incomplete base64 quartet" else .ok s.output

/-- Four bytes a number, the lowest first. -/
def f32sFromLeBytes : List UInt8 → List Float32
  | b₀ :: b₁ :: b₂ :: b₃ :: bytes =>
    Float32.ofBits (b₀.toUInt32 ||| b₁.toUInt32 <<< 8 ||| b₂.toUInt32 <<< 16 |||
      b₃.toUInt32 <<< 24) :: f32sFromLeBytes bytes
  | _ => []

/-- `decode_base64_f32_embedding` -/
def decodeBase64F32Embedding (encoded : String) : Except String Embedding := do
  let bytes ← decodeBase64Standard encoded
  if bytes.length % 4 ≠ 0 then
    .error s!"decoded byte length {bytes.length} is not divisible by 4"
  else .ok (f32sFromLeBytes bytes)

/-- The vector that was sent. -/
def EmbeddingResponseEmbedding.intoEmbedding :
    EmbeddingResponseEmbedding → Except String Embedding
  | .float embedding => .ok embedding
  | .base64 encoded => decodeBase64F32Embedding encoded

/-- Put one item of an answer at its index. -/
def placeItem (expectedDim expectedCount : ℕ) (output : List (Option Embedding))
    (item : EmbeddingResponseItem) : Except String (List (Option Embedding)) :=
  if item.index ≥ expectedCount then
    .error (s!"OpenRouter returned out-of-range embedding index {item.index} for " ++
      s!"{expectedCount} inputs")
  else
    match item.embedding.intoEmbedding with
    | .error err =>
      .error s!"OpenRouter returned invalid base64 embedding at index {item.index}: {err}"
    | .ok embedding =>
      if embedding.length ≠ expectedDim then
        .error (s!"OpenRouter returned embedding dimension {embedding.length} at index " ++
          s!"{item.index}, expected {expectedDim}")
      else .ok (output.set item.index (some embedding))

/-- The vectors of an answer, one for each text of the request and of the right dimension. -/
def parseEmbeddingsResponse (body : Body) (expectedDim expectedCount : ℕ) :
    Except String (List Embedding) :=
  match body.data with
  | .error e => .error s!"OpenRouter embeddings response was not valid JSON: {e}"
  | .ok data =>
    if data.length ≠ expectedCount then
      .error s!"OpenRouter returned {data.length} embeddings for {expectedCount} inputs"
    else do
      let output ← data.foldlM (placeItem expectedDim expectedCount)
        (List.replicate expectedCount none)
      collectPositions
        (fun idx ↦ s!"OpenRouter response omitted embedding for input index {idx}") output

/-! ### Requests -/

/-- What is asked for. -/
structure EmbeddingRequest where
  model : String
  input : List String
  encodingFormat : String
  dimensions : ℕ
  inputType : String
  provider : Option OpenRouterProviderPreferences

/-- A program that makes requests. -/
abbrev Client (α : Type) : Type :=
  Prog OpenRouterBatchError EmbeddingRequest (fun _ ↦ Response) α

/-- How often a request is made again. -/
def maxRetries : ℕ := 3

/-- The beginning of a body, for a message. -/
def bodySnippet (body : String) : String :=
  let snippet := String.ofList (body.toList.take 500)
  if body.length > 500 then snippet ++ "..." else snippet

/-- The text of a body, empty if it could not be read. -/
def bodyText : Except String Body → String
  | .ok body => body.text
  | .error _ => ""

/-- The server finds the request too large. -/
def isPayloadTooLarge (status : StatusCode) (body : String) : Bool :=
  status.code = 413 ||
    (status.code = 400 && "too large".toList <:+: body.toList.map Char.toLower)

/-- The request may be made again. -/
def isRetryableStatus (status : StatusCode) : Bool :=
  status.code ∈ [429, 500, 502, 503, 504, 529]

namespace OpenRouterEmbedder

variable (embedder : OpenRouterEmbedder)

/-- The batches of the texts of a call. -/
def planRemoteBatches (texts : List String) : List OpenRouterInputBatch :=
  planRemoteInputBatches texts (embedder.estimateTokenLengths texts) embedder.config

/-- The request for some texts. -/
def requestFor (inputType : String) (texts : List String) : EmbeddingRequest where
  model := embedder.model
  input := texts
  encodingFormat := embedder.config.encodingFormat.asStr
  dimensions := embedder.dim
  inputType
  provider := embedder.config.provider

/-- The attempts that are left of the loop over `0..=MAX_RETRIES`. -/
def requestAttempts (request : EmbeddingRequest) : ℕ → Option String → Client (List Embedding)
  | 0, lastRetryable => .fail (.fatal (lastRetryable.getD "OpenRouter request failed"))
  | remaining + 1, _ => do
    let response ← Prog.perform request
    match response with
    | .answered status body =>
      if status.isSuccess then
        match body with
        | .error e => .fail (.fatal
            ("OpenRouter response body read failed after " ++ status.text ++ ": " ++ e))
        | .ok body =>
          match parseEmbeddingsResponse body embedder.dim request.input.length with
          | .ok embeddings => pure embeddings
          | .error err => .fail (.fatal err)
      else
        let body := bodyText body
        let msg := "OpenRouter embeddings request failed with HTTP " ++ status.text ++ ": " ++
          bodySnippet body
        if isPayloadTooLarge status body then .fail (.payloadTooLarge msg)
        else if isRetryableStatus status ∧ 0 < remaining then
          requestAttempts request remaining (some msg)
        else .fail (.fatal msg)
    | .failed retryable err =>
      let msg := "OpenRouter request failed: " ++ err
      if retryable ∧ 0 < remaining then requestAttempts request remaining (some msg)
      else .fail (.fatal msg)

/-- `request_batch` -/
def requestBatch (inputType : String) (texts : List String) : Client (List Embedding) :=
  embedder.requestAttempts (embedder.requestFor inputType texts) (maxRetries + 1) none

/-- How many requests, less the retries, a batch and its halves can come to. -/
def weight (pending : List OpenRouterInputBatch) : ℕ :=
  (pending.map fun batch ↦ max 1 (2 * batch.len - 1)).sum

theorem weight_lt_cons (batch : OpenRouterInputBatch) (pending : List OpenRouterInputBatch) :
    weight pending < weight (batch :: pending) := by
  rw [weight, weight, List.map_cons, List.sum_cons]
  omega

theorem weight_halves_lt {batch : OpenRouterInputBatch} (pending : List OpenRouterInputBatch)
    (h : 1 < batch.len) :
    weight ((batch.splitAt (batch.len / 2)).1 :: (batch.splitAt (batch.len / 2)).2 :: pending) <
      weight (batch :: pending) := by
  simp only [weight, List.map_cons, List.sum_cons, OpenRouterInputBatch.splitAt,
    OpenRouterInputBatch.len, List.length_take, List.length_drop] at *
  omega

/-- The loop over the batches that are pending. -/
def requestPending (inputType : String) (pending : List OpenRouterInputBatch)
    (orderedEmbeddings : List (ℕ × Embedding)) : Client (List (ℕ × Embedding)) :=
  match pending with
  | [] => pure orderedEmbeddings
  | batch :: pending => do
    let answer ← (embedder.requestBatch inputType batch.texts).attempt
    match answer with
    | .ok embeddings =>
      requestPending inputType pending (orderedEmbeddings ++
        (batch.inputs.map OpenRouterInput.originalIndex).zip embeddings)
    | .error (.payloadTooLarge msg) =>
      if 1 < batch.len then
        let halves := batch.splitAt (batch.len / 2)
        requestPending inputType (halves.1 :: halves.2 :: pending) orderedEmbeddings
      else .fail (.payloadTooLarge msg)
    | .error err => .fail err
termination_by weight pending
decreasing_by
  · exact weight_lt_cons batch pending
  · exact weight_halves_lt pending ‹_›

/-- `request_batch_with_split` -/
def requestBatchWithSplit (inputType : String) (batch : OpenRouterInputBatch) :
    Client (List (ℕ × Embedding)) :=
  embedder.requestPending inputType [batch] []

end OpenRouterEmbedder

/-! ### The requests of all batches -/

/-- A request, and the answer to it. -/
abbrev Exchange : Type :=
  (_ : EmbeddingRequest) × Response

/-- A batch whose requests are being made. -/
structure Task where
  batch : OpenRouterInputBatch
  /-- What has been requested, and what came back. -/
  log : List Exchange
  rest : Client (List (ℕ × Embedding))

/-- The batches that are being requested, and what the run has returned. -/
structure Embedding.State where
  /-- The batches that no request has been made for. -/
  waiting : List OpenRouterInputBatch
  running : List Task
  /-- The batches whose result has been taken. -/
  taken : List Task
  orderedEmbeddings : List (ℕ × Embedding)
  result : Option (Except String (List Embedding))

/-- What can happen next: the next batch is started, the server answers the request that a batch
waits for, the result of a batch that has ended is taken, or there is none left. -/
inductive Event
  | start
  | answer (task : ℕ) (response : Response)
  | take (task : ℕ)
  | finish

namespace OpenRouterEmbedder

variable (embedder : OpenRouterEmbedder) (inputType : String) (texts : List String)

/-- The start of `embed_with_split`. -/
def start : Embedding.State where
  waiting := embedder.planRemoteBatches texts
  running := []
  taken := []
  orderedEmbeddings := []
  result := if texts.isEmpty then some (.ok []) else none

/-- What happens next; none once the run has returned. -/
def step (s : Embedding.State) : Event → Option Embedding.State
  | .start =>
    match s.waiting with
    | batch :: waiting =>
      if s.running.length < embedder.config.concurrency then
        some { s with
          waiting
          running := s.running ++ [⟨batch, [], embedder.requestBatchWithSplit inputType batch⟩] }
      else none
    | [] => none
  | .answer i response =>
    match s.running[i]? with
    | some ⟨batch, log, .call request k⟩ =>
      some { s with
        running := s.running.set i ⟨batch, log ++ [⟨request, response⟩], k (.ok response)⟩ }
    | _ => none
  | .take i =>
    match s.running[i]? with
    | some ⟨batch, log, .ret embeddings⟩ =>
      some { s with
        running := s.running.eraseIdx i
        taken := s.taken ++ [⟨batch, log, .ret embeddings⟩]
        orderedEmbeddings := s.orderedEmbeddings ++ embeddings }
    | some ⟨_, _, .fail (.payloadTooLarge msg)⟩ =>
      some { s with result := some (.error
        ("OpenRouter rejected a single embedding input as too large: " ++ msg)) }
    | some ⟨_, _, .fail (.fatal msg)⟩ => some { s with result := some (.error msg) }
    | _ => none
  | .finish =>
    if s.running.isEmpty ∧ s.waiting.isEmpty then
      some { s with
        result := some (restoreOriginalEmbeddingOrder texts.length s.orderedEmbeddings) }
    else none

/-- `embed_with_split`: nothing happens after it has returned. -/
def embedWithSplit : Machine Embedding.State Event where
  start := embedder.start texts
  step s event := if s.result.isSome then none else embedder.step inputType texts s event

end OpenRouterEmbedder

end RustCodeMcp.OpenRouter
