import RustCodeMcp.Embeddings.VramBudget
import RustCodeMcp.Text.Fields
import RustCodeMcp.Text.Utf8

/-!
# The identity of an embedding backend

What a collection is stored under says which backend its vectors came from: runtime, model,
dimension, maximal length and query policy, one field each, with every byte of a text escaped that
is not a letter, a digit or one of three marks. The policy's own texts are escaped once more inside
its tag. `fromIdentity` reads it back, or one of the older forms.

For the backends that can be configured the identity is read back as it was
(`fromIdentity_identity`), so two that differ have different ones (`identity_spec`).

**Round trips are proved from the outside in.** A field is told from the next by a semicolon, its
key from its value by the first `=`, the parts of a tag by colons; none of these occurs in an
escaped text (`notMem_percentEncode`) or a number (`notMem_toString`), so cutting gives back what
was put together, field by field. What is left is that an escape stands for its byte, for each of
the 256.

The profiles that are built in are a table, and a backend that names one of them carries the rest of
it along; so an identity need not hold all that a backend is, only enough to find the row. For which
backends that is so is `Configured`.
-/

namespace RustCodeMcp.Identity

/-! ### Escapes -/

/-- A letter, a digit or one of three marks. -/
def isSafeByte (byte : UInt8) : Bool :=
  (65 ≤ byte && byte ≤ 90) || (97 ≤ byte && byte ≤ 122) || (48 ≤ byte && byte ≤ 57) ||
    byte == 46 || byte == 95 || byte == 45

/-- The digit of half a byte. -/
def hexDigit (nibble : UInt8) : Char :=
  Char.ofNat (if nibble < 10 then 48 + nibble.toNat else 65 + (nibble.toNat - 10))

/-- The half of a byte that a digit stands for. -/
def fromHex (byte : UInt8) : Option UInt8 :=
  if 48 ≤ byte ∧ byte ≤ 57 then some (byte - 48)
  else if 97 ≤ byte ∧ byte ≤ 102 then some (byte - 97 + 10)
  else if 65 ≤ byte ∧ byte ≤ 70 then some (byte - 65 + 10)
  else none

/-- What stands for a byte. -/
def encodeByte (byte : UInt8) : List Char :=
  if isSafeByte byte then [Char.ofNat byte.toNat]
  else ['%', hexDigit (byte >>> 4), hexDigit (byte &&& 15)]

/-- A text with every byte escaped that is not safe. -/
def percentEncode (input : String) : String :=
  String.ofList ((Utf8.encode input.toList).flatMap encodeByte)

/-- The bytes that are escaped. -/
def decodeBytes (input : String) : List UInt8 → Except String (List UInt8)
  | [] => .ok []
  | byte :: rest =>
    if byte = 37 then
      match rest with
      | high :: low :: rest =>
        match fromHex high, fromHex low with
        | some high, some low => (decodeBytes input rest).map ((high <<< 4 ||| low) :: ·)
        | _, _ => .error s!"invalid percent escape in `{input}`"
      | _ => .error s!"truncated percent escape in `{input}`"
    else (decodeBytes input rest).map (byte :: ·)

/-- `String::from_utf8` fails with `utf8Error`. -/
def percentDecode (utf8Error : List UInt8 → String) (input : String) : Except String String := do
  let out ← decodeBytes input (Utf8.encode input.toList)
  match out.toByteArray.utf8Decode? with
  | some text => .ok (String.ofList text.toList)
  | none => .error s!"invalid UTF-8 in percent escape: {utf8Error out}"

/-! ### Profiles -/

/-- What runs the model. -/
inductive EmbeddingRuntime
  | localQwen3CandleCuda
  | localFastembedOnnxCpu
  | localFastembedOnnxMigraphx
  | localFastembedOnnxDirectml
  | openRouter
  deriving DecidableEq

/-- As it is printed with `{:?}`. -/
def EmbeddingRuntime.debug : EmbeddingRuntime → String
  | localQwen3CandleCuda => "LocalQwen3CandleCuda"
  | localFastembedOnnxCpu => "LocalFastembedOnnxCpu"
  | localFastembedOnnxMigraphx => "LocalFastembedOnnxMigraphx"
  | localFastembedOnnxDirectml => "LocalFastembedOnnxDirectml"
  | openRouter => "OpenRouter"

/-- The Qwen3 models that are built in. -/
inductive Qwen3Variant
  | embedding0_6B
  | embedding4B
  | embedding8B
  deriving DecidableEq

/-- The ONNX models that are built in. -/
inductive FastembedOnnxModel
  | bgeSmallEnV15Q
  | bgeSmallEnV15
  deriving DecidableEq

/-- How a local model is loaded. -/
inductive LocalLoaderSpec
  | qwen3 (variant : Qwen3Variant)
  | fastembedOnnx (model : FastembedOnnxModel)
  deriving DecidableEq

/-- What is done to a query before it is embedded. -/
inductive QueryPolicy
  | instructionPrefix (pre : String)
  | inputType (document query : String)
  | none
  deriving DecidableEq

/-- A model, and how it is used. -/
structure EmbeddingProfile where
  name : String
  runtime : EmbeddingRuntime
  modelId : String
  tokenizerModelId : Option String
  dim : UInt64
  maxLen : UInt64
  queryPolicy : QueryPolicy
  chunkTargetTokens : UInt64
  chunkHardMaxTokens : UInt64
  localLoader : Option LocalLoaderSpec
  deriving DecidableEq

/-- What a query for a Qwen3 model begins with. -/
def QWEN3_CODE_QUERY_PREFIX : String :=
  "Instruct: Given a code search query, retrieve relevant code\nQuery: "

/-- What a query for a BGE model begins with. -/
def BGE_SEARCH_QUERY_PREFIX : String :=
  "Represent this sentence for searching relevant passages: "

/-- A profile of a Qwen3 model. -/
def qwen3Profile (name modelId : String) (dim : UInt64) (variant : Qwen3Variant) :
    EmbeddingProfile where
  name
  runtime := .localQwen3CandleCuda
  modelId
  tokenizerModelId := some modelId
  dim
  maxLen := 1024
  queryPolicy := .instructionPrefix QWEN3_CODE_QUERY_PREFIX
  chunkTargetTokens := 768
  chunkHardMaxTokens := 1024
  localLoader := some (.qwen3 variant)

/-- A profile of a BGE model. -/
def bgeProfile (name : String) (runtime : EmbeddingRuntime) (modelId : String)
    (model : FastembedOnnxModel) : EmbeddingProfile where
  name
  runtime
  modelId
  tokenizerModelId := some modelId
  dim := 384
  maxLen := 512
  queryPolicy := .instructionPrefix BGE_SEARCH_QUERY_PREFIX
  chunkTargetTokens := 384
  chunkHardMaxTokens := 512
  localLoader := some (.fastembedOnnx model)

/-- The profiles that are built in. -/
def BUILT_IN_PROFILES : List EmbeddingProfile := [
  qwen3Profile "local-gpu-small" "Qwen/Qwen3-Embedding-0.6B" 1024 .embedding0_6B,
  qwen3Profile "local-qwen3-4b" "Qwen/Qwen3-Embedding-4B" 2560 .embedding4B,
  qwen3Profile "local-qwen3-8b" "Qwen/Qwen3-Embedding-8B" 4096 .embedding8B,
  bgeProfile "local-cpu-small" .localFastembedOnnxCpu "Qdrant/bge-small-en-v1.5-onnx-Q"
    .bgeSmallEnV15Q,
  bgeProfile "local-gpu-bge" .localFastembedOnnxMigraphx "Xenova/bge-small-en-v1.5" .bgeSmallEnV15,
  bgeProfile "local-dml-bge" .localFastembedOnnxDirectml "Xenova/bge-small-en-v1.5" .bgeSmallEnV15,
  { name := "openrouter-qwen3-8b"
    runtime := .openRouter
    modelId := "qwen/qwen3-embedding-8b"
    tokenizerModelId := some "Qwen/Qwen3-Embedding-8B"
    dim := 4096
    maxLen := 32768
    queryPolicy := .inputType "search_document" "search_query"
    chunkTargetTokens := 768
    chunkHardMaxTokens := 1024
    localLoader := none }]

/-- Other names of profiles. -/
def PROFILE_ALIASES : List (String × String) := [
  ("qwen3-local-gpu-small", "local-gpu-small"),
  ("bge-small-cpu", "local-cpu-small"),
  ("bge-small-gpu", "local-gpu-bge"),
  ("bge-small-dml", "local-dml-bge"),
  ("qwen3-8b-openrouter", "openrouter-qwen3-8b")]

/-- All names, for a message. -/
def ACCEPTED_NAMES : String :=
  "local-gpu-small, local-cpu-small, local-gpu-bge, local-dml-bge, openrouter-qwen3-8b, " ++
    "local-qwen3-4b, local-qwen3-8b"

namespace EmbeddingProfile

/-- By name or alias, in any case. -/
def parse (s : String) : Except String EmbeddingProfile :=
  let requested := String.ofList (s.toList.map Char.toLower)
  let canonical := ((PROFILE_ALIASES.find? fun entry ↦ entry.1 = requested).map Prod.snd).getD
    requested
  match BUILT_IN_PROFILES.find? fun profile ↦ profile.name = canonical with
  | some profile => .ok profile
  | none => .error s!"unknown embedding profile: {s}; expected one of: {ACCEPTED_NAMES}"

/-- The built-in local profile of a runtime and a model. -/
def builtInLocalForIdentity (runtime : EmbeddingRuntime) (modelId : String) :
    Option EmbeddingProfile :=
  BUILT_IN_PROFILES.find? fun profile ↦
    profile.runtime = runtime ∧ profile.modelId = modelId ∧ profile.localLoader.isSome

/-- The built-in API profile of a runtime and a model. -/
def builtInApiForIdentity (runtime : EmbeddingRuntime) (modelId : String) :
    Option EmbeddingProfile :=
  BUILT_IN_PROFILES.find? fun profile ↦
    profile.runtime = runtime ∧ profile.modelId = modelId ∧ profile.localLoader.isNone

end EmbeddingProfile

/-! ### Tags and identities -/

namespace QueryPolicy

/-- The text of a policy. -/
def encodeTag : QueryPolicy → String
  | instructionPrefix pre => "prefix:" ++ percentEncode pre
  | inputType document query =>
    "input-type:" ++ percentEncode document ++ ":" ++ percentEncode query
  | none => "none"

/-- The policy of a text. -/
def decodeTag (utf8Error : List UInt8 → String) (tag : String) : Except String QueryPolicy :=
  if tag = "none" then .ok none
  else if "prefix:".toList <+: tag.toList then
    instructionPrefix <$> percentDecode utf8Error (String.ofList (tag.toList.drop 7))
  else if "input-type:".toList <+: tag.toList then
    match Fields.splitOnce ':' (tag.toList.drop 11) with
    | some (document, query) => do
      let document ← percentDecode utf8Error (String.ofList document)
      let query ← percentDecode utf8Error (String.ofList query)
      .ok (inputType document query)
    | .none => .error s!"malformed query policy input-type tag `{tag}`"
  else .error s!"unknown query policy tag `{tag}`"

end QueryPolicy

/-- What the identity of a backend says. -/
structure EmbeddingIdentity where
  runtime : EmbeddingRuntime
  modelId : String
  dim : UInt64
  maxLen : UInt64
  query : String
  deriving DecidableEq

/-- The text of a runtime. -/
def encodeRuntime : EmbeddingRuntime → String
  | .localQwen3CandleCuda => "local-qwen3-candle-cuda"
  | .localFastembedOnnxCpu => "local-fastembed-onnx-cpu"
  | .localFastembedOnnxMigraphx => "local-fastembed-onnx-migraphx"
  | .localFastembedOnnxDirectml => "local-fastembed-onnx-directml"
  | .openRouter => "openrouter"

/-- The runtime of a text. -/
def decodeRuntime (value : String) : Except String EmbeddingRuntime :=
  if value = "local-qwen3-candle-cuda" then .ok .localQwen3CandleCuda
  else if value = "local-fastembed-onnx-cpu" then .ok .localFastembedOnnxCpu
  else if value = "local-fastembed-onnx-migraphx" then .ok .localFastembedOnnxMigraphx
  else if value = "local-fastembed-onnx-directml" then .ok .localFastembedOnnxDirectml
  else if value = "openrouter" then .ok .openRouter
  else .error s!"unknown embedding runtime `{value}`"

/-- How a text fails to be a number, digit after digit. -/
def intErrorFrom (n : ℕ) : List Char → String
  | [] => "number too large to fit in target type"
  | c :: rest =>
    if ¬ c.isDigit then "invalid digit found in string"
    else if 2 ^ 64 ≤ 10 * n + (c.toNat - '0'.toNat) then "number too large to fit in target type"
    else intErrorFrom (10 * n + (c.toNat - '0'.toNat)) rest

/-- Why a text is not a number. -/
def intError : List Char → String
  | [] => "cannot parse integer from empty string"
  | ['+'] => "invalid digit found in string"
  | '+' :: rest => intErrorFrom 0 rest
  | text => intErrorFrom 0 text

/-- A field that is a number. -/
def parseUsize (value key input : String) : Except String UInt64 :=
  match parseU64 value.toList with
  | some n => .ok n
  | none => .error (s!"failed to parse embedding identity field `{key}` value `{value}` in " ++
      s!"`{input}`: {intError value.toList}")

namespace EmbeddingIdentity

/-- The identity as a text. -/
def encode (identity : EmbeddingIdentity) : String :=
  "emb;v=2;rt=" ++ encodeRuntime identity.runtime ++
    ";model=" ++ percentEncode identity.modelId ++
    ";dim=" ++ toString identity.dim.toNat ++
    ";max=" ++ toString identity.maxLen.toNat ++
    ";query=" ++ percentEncode identity.query

/-- The fields that have been read. -/
structure Slots where
  version : Option String := none
  runtime : Option EmbeddingRuntime := none
  modelId : Option String := none
  dim : Option UInt64 := none
  maxLen : Option UInt64 := none
  query : Option String := none

/-- A field may occur once. -/
def setOnce {T : Type} (slot : Option T) (value : T) (key input : String) :
    Except String (Option T) :=
  if slot.isSome then .error s!"duplicate embedding identity field `{key}` in `{input}`"
  else .ok (some value)

/-- A field has to occur. -/
def required {T : Type} (value : Option T) (key input : String) : Except String T :=
  match value with
  | some value => .ok value
  | none => .error s!"missing embedding identity field `{key}` in `{input}`"

/-- A field is read, by its key. -/
def readKey (utf8Error : List UInt8 → String) (input : String) (slots : Slots)
    (key value : String) : Except String Slots :=
  match key with
  | "v" => do
    let version ← setOnce slots.version value key input
    .ok { slots with version }
  | "rt" => do
    let runtime ← setOnce slots.runtime (← decodeRuntime value) key input
    .ok { slots with runtime }
  | "model" => do
    let modelId ← setOnce slots.modelId (← percentDecode utf8Error value) key input
    .ok { slots with modelId }
  | "dim" => do
    let dim ← setOnce slots.dim (← parseUsize value key input) key input
    .ok { slots with dim }
  | "max" => do
    let maxLen ← setOnce slots.maxLen (← parseUsize value key input) key input
    .ok { slots with maxLen }
  | "query" => do
    let query ← setOnce slots.query (← percentDecode utf8Error value) key input
    .ok { slots with query }
  | _ => .ok slots

/-- A field is cut into its key and its value, and read. -/
def readField (utf8Error : List UInt8 → String) (input : String) (slots : Slots)
    (field : List Char) : Except String Slots :=
  match Fields.splitOnce '=' field with
  | none =>
    .error s!"malformed embedding identity field `{String.ofList field}` in `{input}`"
  | some (key, value) =>
    readKey utf8Error input slots (String.ofList key) (String.ofList value)

/-- The identity whose fields have been read. -/
def ofSlots (input : String) (slots : Slots) : Except String EmbeddingIdentity := do
  let version ← required slots.version "v" input
  if version ≠ "2" then
    .error s!"unsupported embedding identity schema version `{version}` in `{input}`"
  else
    let runtime ← required slots.runtime "rt" input
    let modelId ← required slots.modelId "model" input
    let dim ← required slots.dim "dim" input
    let maxLen ← required slots.maxLen "max" input
    let query ← required slots.query "query" input
    .ok { runtime, modelId, dim, maxLen, query }

/-- The identity of a text, with every field read once. -/
def decode (utf8Error : List UInt8 → String) (input : String) :
    Except String EmbeddingIdentity :=
  match Fields.split ';' input.toList with
  | [] => .error "empty embedding identity"
  | pre :: fields =>
    if pre ≠ "emb".toList then
      .error s!"invalid embedding identity prefix `{String.ofList pre}` in `{input}`"
    else do
      let slots ← fields.foldlM (readField utf8Error input) {}
      ofSlots input slots

end EmbeddingIdentity

/-! ### Backends -/

/-- Why there is no backend. -/
inductive EmbeddingError
  | invalidIdentity (message : String)
  | modelInit (message : String)
  deriving DecidableEq

/-- A backend: a profile, what runs it, and how long its inputs may be. -/
structure EmbeddingBackend where
  profile : EmbeddingProfile
  runtime : EmbeddingRuntime
  maxLen : UInt64
  forceCpu : Bool
  deriving DecidableEq

namespace EmbeddingBackend

/-- A backend as its profile says. -/
def fromProfile (profile : EmbeddingProfile) : EmbeddingBackend where
  profile
  runtime := profile.runtime
  maxLen := profile.maxLen
  forceCpu := false

/-- A backend by the name of its profile. -/
def fromProfileName (name : String) : Except EmbeddingError EmbeddingBackend :=
  match EmbeddingProfile.parse name with
  | .ok profile => .ok (fromProfile profile)
  | .error e => .error (.modelInit e)

theorem isSome_find?_qwen3 (variant : Qwen3Variant) :
    (BUILT_IN_PROFILES.find? fun profile ↦ profile.localLoader = some (.qwen3 variant)).isSome := by
  cases variant <;> decide

/-- The backend of a Qwen3 model. -/
def fromQwen3Variant (variant : Qwen3Variant) : EmbeddingBackend :=
  fromProfile (Option.get _ (isSome_find?_qwen3 variant))

/-- How many numbers a vector has. -/
def dim (backend : EmbeddingBackend) : UInt64 := backend.profile.dim

/-- The model of the backend. -/
def modelId (backend : EmbeddingBackend) : String := backend.profile.modelId

/-- Its query policy. -/
def queryPolicy (backend : EmbeddingBackend) : QueryPolicy := backend.profile.queryPolicy

/-- The string in cache paths and in the metadata of a collection. -/
def identity (backend : EmbeddingBackend) : String :=
  EmbeddingIdentity.encode {
    runtime := backend.runtime
    modelId := backend.modelId
    dim := backend.dim
    maxLen := backend.maxLen
    query := backend.queryPolicy.encodeTag }

/-- The profile of an API model that is not built in. -/
def apiProfile (identity : EmbeddingIdentity) (queryPolicy : QueryPolicy) : EmbeddingProfile where
  name := s!"openrouter:{identity.modelId}"
  runtime := .openRouter
  modelId := identity.modelId
  tokenizerModelId := none
  dim := identity.dim
  maxLen := identity.maxLen
  queryPolicy
  chunkTargetTokens := 768
  chunkHardMaxTokens := 1024
  localLoader := none

/-- The backend of an identity that could be decoded. -/
def ofIdentity (identity : EmbeddingIdentity) (queryPolicy : QueryPolicy) (s : String) :
    Except EmbeddingError EmbeddingBackend :=
  if identity.runtime = .openRouter then
    let profile := (EmbeddingProfile.builtInApiForIdentity .openRouter identity.modelId).getD
      (apiProfile identity queryPolicy)
    .ok (fromProfile { profile with
      dim := identity.dim
      maxLen := identity.maxLen
      queryPolicy
      localLoader := none })
  else
    match EmbeddingProfile.builtInLocalForIdentity identity.runtime identity.modelId with
    | none => .error (.invalidIdentity
        (s!"local embedding identity references unknown built-in model `{identity.modelId}` for " ++
          s!"runtime {identity.runtime.debug}; run `clear_cache` for this directory to discard " ++
          "the stale or foreign index"))
    | some profile =>
      if identity.dim ≠ profile.dim then .error (.invalidIdentity
        (s!"dim `{identity.dim}` does not match built-in profile `{profile.name}` (expected " ++
          s!"{profile.dim}) in `{s}`"))
      else .ok { fromProfile { profile with queryPolicy } with maxLen := identity.maxLen }

/-- The backend of an identity of the present form. -/
def fromV2Identity (utf8Error : List UInt8 → String) (s : String) :
    Except EmbeddingError EmbeddingBackend := do
  let identity ← (EmbeddingIdentity.decode utf8Error s).mapError .invalidIdentity
  let queryPolicy ← (QueryPolicy.decodeTag utf8Error identity.query).mapError .invalidIdentity
  ofIdentity identity queryPolicy s

/-- The backend an older identity names, by its first two fields and its version. -/
def ofLegacyName (pre model version s : String) : Except EmbeddingError EmbeddingBackend :=
  let unsupported : Except EmbeddingError EmbeddingBackend :=
    .error (.invalidIdentity s!"unsupported identity schema version `{version}` in `{s}`")
  if pre = "fastembed-candle" then
    if version ≠ "v2" then unsupported
    else if model = "Qwen3-Embedding-0.6B" then .ok (fromQwen3Variant .embedding0_6B)
    else if model = "Qwen3-Embedding-4B" then .ok (fromQwen3Variant .embedding4B)
    else if model = "Qwen3-Embedding-8B" then .ok (fromQwen3Variant .embedding8B)
    else .error (.invalidIdentity s!"unknown Qwen3 variant `{model}` in `{s}`")
  else if pre = "fastembed-onnx-cpu" then
    if version ≠ "v1" then unsupported
    else if model = "BGESmallENV15Q" then fromProfileName "local-cpu-small"
    else .error (.invalidIdentity s!"unknown ONNX model `{model}` in `{s}`")
  else if pre = "openrouter" then
    if version ≠ "v1" then unsupported
    else if model = "qwen/qwen3-embedding-8b" then fromProfileName "openrouter-qwen3-8b"
    else .error (.invalidIdentity s!"unknown OpenRouter model `{model}` in `{s}`")
  else .error (.invalidIdentity s!"unexpected backend prefix `{pre}` in `{s}`")

/-- `strip_prefix` and `parse` of a field that starts with its name. -/
def legacyNumber (name shown field s : String) : Except EmbeddingError UInt64 :=
  if name.toList <+: field.toList then
    let text := field.toList.drop name.length
    match parseU64 text with
    | some n => .ok n
    | none => .error (.invalidIdentity
        s!"failed to parse {shown} `{String.ofList text}` in `{s}`: {intError text}")
  else .error (.invalidIdentity s!"missing `{name}` prefix in `{s}`")

/-- The backend of one of an older form. -/
def fromLegacyIdentity (s : String) : Except EmbeddingError EmbeddingBackend :=
  match (Fields.split ':' s.toList).map String.ofList with
  | [pre, model, dimField, maxField, version] => do
    let backend ← ofLegacyName pre model version s
    let dim ← legacyNumber "dim" "dim" dimField s
    if dim ≠ backend.dim then .error (.invalidIdentity
      (s!"dim `{dim}` does not match profile `{backend.profile.name}` (expected " ++
        s!"{backend.dim}) in `{s}`"))
    else
      let maxLen ← legacyNumber "max" "max_len" maxField s
      .ok { backend with maxLen }
  | parts => .error (.invalidIdentity
      s!"expected 5 colon-separated fields, got {parts.length}: `{s}`")

/-- The backend of an identity, whatever its form. -/
def fromIdentity (utf8Error : List UInt8 → String) (s : String) :
    Except EmbeddingError EmbeddingBackend :=
  if "emb;".toList <+: s.toList then fromV2Identity utf8Error s else fromLegacyIdentity s

end EmbeddingBackend

/-! ### Escapes and back -/

theorem forall_byte {p : UInt8 → Prop} (h : ∀ n : Fin 256, p (.ofNat n)) (byte : UInt8) :
    p byte := by
  have hbyte := h ⟨byte.toNat, byte.toNat_lt⟩
  rwa [UInt8.ofNat_toNat] at hbyte

theorem encode_encodeByte_of_safe (byte : UInt8) (h : isSafeByte byte) :
    Utf8.encode (encodeByte byte) = [byte] ∧ byte ≠ 37 := by
  revert h
  exact forall_byte (p := fun byte ↦
    isSafeByte byte → Utf8.encode (encodeByte byte) = [byte] ∧ byte ≠ 37) (by decide +kernel) byte

/-- The digits of an escape are ASCII, and give the byte. -/
theorem escape_spec (byte : UInt8) :
    Utf8.encode ['%', hexDigit (byte >>> 4), hexDigit (byte &&& 15)] =
        [37, .ofNat (hexDigit (byte >>> 4)).toNat, .ofNat (hexDigit (byte &&& 15)).toNat] ∧
      fromHex (.ofNat (hexDigit (byte >>> 4)).toNat) = some (byte >>> 4) ∧
      fromHex (.ofNat (hexDigit (byte &&& 15)).toNat) = some (byte &&& 15) ∧
      byte >>> 4 <<< 4 ||| byte &&& 15 = byte := by
  revert byte
  refine forall_byte ?_
  decide +kernel

/-- No separator stands for a byte. -/
theorem notMem_encodeByte {c : Char} (hc : c ∈ [';', ':', '=']) (byte : UInt8) :
    c ∉ encodeByte byte := by
  have hall := forall_byte (p := fun byte ↦ ';' ∉ encodeByte byte ∧ ':' ∉ encodeByte byte ∧
    '=' ∉ encodeByte byte) (by decide +kernel) byte
  simp only [List.mem_cons, List.not_mem_nil, or_false] at hc
  rcases hc with rfl | rfl | rfl
  · exact hall.1
  · exact hall.2.1
  · exact hall.2.2

theorem decodeBytes_cons_of_ne {byte : UInt8} (h : byte ≠ 37) (input : String)
    (rest : List UInt8) :
    decodeBytes input (byte :: rest) = (decodeBytes input rest).map (byte :: ·) := by
  rw [decodeBytes.eq_def]
  exact if_neg h

theorem decodeBytes_escape {high low high' low' : UInt8} (hhigh : fromHex high = some high')
    (hlow : fromHex low = some low') (input : String) (rest : List UInt8) :
    decodeBytes input (37 :: high :: low :: rest) =
      (decodeBytes input rest).map ((high' <<< 4 ||| low') :: ·) := by
  rw [decodeBytes.eq_def]
  simp [hhigh, hlow]

theorem decodeBytes_encode (input : String) (bytes : List UInt8) :
    decodeBytes input (Utf8.encode (bytes.flatMap encodeByte)) = .ok bytes := by
  induction bytes with
  | nil => rfl
  | cons byte rest ih =>
    rw [List.flatMap_cons, Utf8.encode_append]
    by_cases hsafe : isSafeByte byte
    · obtain ⟨hencode, hne⟩ := encode_encodeByte_of_safe byte hsafe
      rw [hencode, List.singleton_append, decodeBytes_cons_of_ne hne, ih]
      rfl
    · obtain ⟨hencode, hhigh, hlow, hbyte⟩ := escape_spec byte
      rw [encodeByte, if_neg hsafe, hencode]
      show decodeBytes input (37 :: _ :: _ :: Utf8.encode (rest.flatMap encodeByte)) = _
      rw [decodeBytes_escape hhigh hlow, ih, hbyte]
      rfl

@[simp] theorem percentDecode_percentEncode (utf8Error : List UInt8 → String) (input : String) :
    percentDecode utf8Error (percentEncode input) = .ok input := by
  have hdecode : (Utf8.encode input.toList).toByteArray.utf8Decode? = some input.toList.toArray :=
    List.utf8Decode?_utf8Encode
  rw [percentDecode, percentEncode, String.toList_ofList, decodeBytes_encode]
  show (match (Utf8.encode input.toList).toByteArray.utf8Decode? with
    | some text => Except.ok (String.ofList text.toList)
    | none => _) = _
  rw [hdecode]
  simp

theorem notMem_percentEncode {c : Char} (hc : c ∈ [';', ':', '=']) (input : String) :
    c ∉ (percentEncode input).toList := by
  rw [percentEncode, String.toList_ofList, List.mem_flatMap]
  rintro ⟨byte, -, hmem⟩
  exact notMem_encodeByte hc byte hmem

/-! ### Numbers and back -/

theorem parseUsize_toString (n : UInt64) (key input : String) :
    parseUsize (toString n.toNat) key input = .ok n := by
  rw [parseUsize, parseU64_toString]

theorem notMem_toString {c : Char} (hc : c ∈ [';', ':', '=']) (n : ℕ) :
    c ∉ (toString n).toList := by
  rw [toList_toString]
  intro hmem
  have hdigit := Nat.isDigit_of_mem_toDigits (by decide) (by decide) hmem
  simp only [List.mem_cons, List.not_mem_nil, or_false] at hc
  rcases hc with rfl | rfl | rfl <;> exact absurd hdigit (by decide)

/-! ### Tags and identities and back -/

theorem QueryPolicy.decodeTag_encodeTag (utf8Error : List UInt8 → String) (policy : QueryPolicy) :
    decodeTag utf8Error policy.encodeTag = .ok policy := by
  have hne : ∀ {tag : String} {c : Char} {rest : List Char}, tag.toList = c :: rest → c ≠ 'n' →
      tag ≠ "none" := by
    rintro tag c rest htag hc rfl
    exact hc (List.cons.inj htag).1.symm
  cases policy with
  | none => rfl
  | instructionPrefix pre =>
    have htag : (encodeTag (.instructionPrefix pre)).toList =
        "prefix:".toList ++ (percentEncode pre).toList := String.toList_append
    have hdrop : ("prefix:".toList ++ (percentEncode pre).toList).drop 7 =
        (percentEncode pre).toList := List.drop_left' rfl
    rw [decodeTag, if_neg (hne htag (by decide)), htag, if_pos (List.prefix_append _ _), hdrop,
      String.ofList_toList, percentDecode_percentEncode]
    rfl
  | inputType document query =>
    have htag : (encodeTag (.inputType document query)).toList = "input-type:".toList ++
        ((percentEncode document).toList ++ ':' :: (percentEncode query).toList) := by
      simp [encodeTag, String.toList_append]
    have hprefix : ¬ "prefix:".toList <+: (encodeTag (.inputType document query)).toList := by
      rw [htag]
      rintro ⟨rest, h⟩
      exact absurd (List.cons.inj h).1 (by decide)
    rw [decodeTag, if_neg (hne htag (by decide)), if_neg hprefix, htag,
      if_pos (List.prefix_append _ _)]
    have hsplit : Fields.splitOnce ':' ((percentEncode document).toList ++
        ':' :: (percentEncode query).toList) =
          some ((percentEncode document).toList, (percentEncode query).toList) :=
      Fields.splitOnce_append (notMem_percentEncode (by decide) document) _
    have hdrop : ("input-type:".toList ++ ((percentEncode document).toList ++
        ':' :: (percentEncode query).toList)).drop 11 = (percentEncode document).toList ++
          ':' :: (percentEncode query).toList := List.drop_left' rfl
    rw [hdrop, hsplit]
    simp only [String.ofList_toList, percentDecode_percentEncode]
    rfl

theorem decodeRuntime_encodeRuntime (runtime : EmbeddingRuntime) :
    decodeRuntime (encodeRuntime runtime) = .ok runtime := by
  cases runtime <;> rfl

namespace EmbeddingIdentity

/-- The fields of an identity, each with its key. -/
def fields (identity : EmbeddingIdentity) : List (List Char) := [
  "v=2".toList,
  "rt=".toList ++ (encodeRuntime identity.runtime).toList,
  "model=".toList ++ (percentEncode identity.modelId).toList,
  "dim=".toList ++ (toString identity.dim.toNat).toList,
  "max=".toList ++ (toString identity.maxLen.toNat).toList,
  "query=".toList ++ (percentEncode identity.query).toList]

theorem toList_encode (identity : EmbeddingIdentity) :
    identity.encode.toList = "emb".toList ++ ';' :: ("v=2".toList ++
      ';' :: ("rt=".toList ++ (encodeRuntime identity.runtime).toList ++
      ';' :: ("model=".toList ++ (percentEncode identity.modelId).toList ++
      ';' :: ("dim=".toList ++ (toString identity.dim.toNat).toList ++
      ';' :: ("max=".toList ++ (toString identity.maxLen.toNat).toList ++
      ';' :: ("query=".toList ++ (percentEncode identity.query).toList)))))) := by
  have hhead : "emb;v=2;rt=".toList =
      "emb".toList ++ ';' :: ("v=2".toList ++ ';' :: "rt=".toList) := by decide
  have hmodel : ";model=".toList = ';' :: "model=".toList := by decide
  have hdim : ";dim=".toList = ';' :: "dim=".toList := by decide
  have hmax : ";max=".toList = ';' :: "max=".toList := by decide
  have hquery : ";query=".toList = ';' :: "query=".toList := by decide
  have hjoin : ∀ s rt s' model s'' dim t max t' query : String,
      (s ++ rt ++ s' ++ model ++ s'' ++ dim ++ t ++ max ++ t' ++ query).toList =
        s.toList ++ (rt.toList ++ (s'.toList ++ (model.toList ++ (s''.toList ++ (dim.toList ++
          (t.toList ++ (max.toList ++ (t'.toList ++ query.toList)))))))) := by
    intros
    simp only [String.toList_append, List.append_assoc]
  unfold encode
  rw [hjoin, hhead, hmodel, hdim, hmax, hquery]
  simp only [List.append_assoc, List.cons_append]

theorem split_encode (identity : EmbeddingIdentity) :
    Fields.split ';' identity.encode.toList = "emb".toList :: identity.fields := by
  have hfree : ∀ {key value : List Char}, ';' ∉ key → ';' ∉ value → ';' ∉ key ++ value :=
    fun hkey hvalue ↦ List.not_mem_append hkey hvalue
  have hruntime : ';' ∉ (encodeRuntime identity.runtime).toList := by
    cases identity.runtime <;> decide
  have hpercent := fun input ↦ notMem_percentEncode (c := ';') (by decide) input
  have hnumber := fun n ↦ notMem_toString (c := ';') (by decide) n
  rw [toList_encode, Fields.split_append (by decide), Fields.split_append (by decide),
    Fields.split_append (hfree (by decide) hruntime),
    Fields.split_append (hfree (by decide) (hpercent _)),
    Fields.split_append (hfree (by decide) (hnumber _)),
    Fields.split_append (hfree (by decide) (hnumber _)),
    Fields.split_of_notMem (hfree (by decide) (hpercent _))]
  rfl

theorem readField_append (utf8Error : List UInt8 → String) (input : String) (slots : Slots)
    {key : List Char} (hkey : '=' ∉ key) (value : String) :
    readField utf8Error input slots (key ++ '=' :: value.toList) =
      readKey utf8Error input slots (String.ofList key) value := by
  rw [readField, Fields.splitOnce_append hkey]
  show readKey utf8Error input slots (String.ofList key) (String.ofList value.toList) = _
  rw [String.ofList_toList]

theorem foldlM_cons_of_ok {S F E : Type} {f : S → F → Except E S} {s s' : S} {field : F}
    (h : f s field = .ok s') (rest : List F) : (field :: rest).foldlM f s = rest.foldlM f s' := by
  rw [List.foldlM_cons, h]
  rfl

/-- **An identity is read back**, with whatever in its texts. -/
theorem decode_encode (utf8Error : List UInt8 → String) (identity : EmbeddingIdentity) :
    decode utf8Error identity.encode = .ok identity := by
  rw [decode, split_encode]
  show (do
    let slots ← identity.fields.foldlM (readField utf8Error identity.encode) {}
    ofSlots identity.encode slots) = _
  generalize identity.encode = input
  -- The fields come one after another, each into its own slot.
  have hkey : ∀ slots (key : List Char) (value : String), '=' ∉ key → ∀ slots',
      readKey utf8Error input slots (String.ofList key) value = .ok slots' →
        readField utf8Error input slots (key ++ '=' :: value.toList) = .ok slots' :=
    fun slots key value h _ hread ↦ (readField_append utf8Error input slots h value).trans hread
  let version : Slots := { version := some "2" }
  let runtime : Slots := { version with runtime := some identity.runtime }
  let modelId : Slots := { runtime with modelId := some identity.modelId }
  let dim : Slots := { modelId with dim := some identity.dim }
  let maxLen : Slots := { dim with maxLen := some identity.maxLen }
  let query : Slots := { maxLen with query := some identity.query }
  have hversion : readField utf8Error input {} "v=2".toList = .ok version := rfl
  have hruntime := hkey version "rt".toList (encodeRuntime identity.runtime) (by decide) runtime (by
    show (decodeRuntime (encodeRuntime identity.runtime) >>= _) = _
    rw [decodeRuntime_encodeRuntime]
    rfl)
  have hmodelId := hkey runtime "model".toList (percentEncode identity.modelId) (by decide)
    modelId (by
      show (percentDecode utf8Error (percentEncode identity.modelId) >>= _) = _
      rw [percentDecode_percentEncode]
      rfl)
  have hdim := hkey modelId "dim".toList (toString identity.dim.toNat) (by decide) dim (by
    show (parseUsize (toString identity.dim.toNat) "dim" input >>= _) = _
    rw [parseUsize_toString]
    rfl)
  have hmaxLen := hkey dim "max".toList (toString identity.maxLen.toNat) (by decide) maxLen (by
    show (parseUsize (toString identity.maxLen.toNat) "max" input >>= _) = _
    rw [parseUsize_toString]
    rfl)
  have hquery := hkey maxLen "query".toList (percentEncode identity.query) (by decide) query (by
    show (percentDecode utf8Error (percentEncode identity.query) >>= _) = _
    rw [percentDecode_percentEncode]
    rfl)
  have hfold : identity.fields.foldlM (readField utf8Error input) {} = .ok query :=
    (foldlM_cons_of_ok hversion _).trans <| (foldlM_cons_of_ok hruntime _).trans <|
      (foldlM_cons_of_ok hmodelId _).trans <| (foldlM_cons_of_ok hdim _).trans <|
        (foldlM_cons_of_ok hmaxLen _).trans <| (foldlM_cons_of_ok hquery _).trans rfl
  rw [hfold]
  rfl

end EmbeddingIdentity

/-! ### Backends and back -/

namespace EmbeddingBackend

/-- What an identity says of a backend. -/
structure Named where
  runtime : EmbeddingRuntime
  modelId : String
  dim : UInt64
  maxLen : UInt64
  queryPolicy : QueryPolicy
  deriving DecidableEq

/-- What the identity of a backend says of it. -/
def named (backend : EmbeddingBackend) : Named where
  runtime := backend.runtime
  modelId := backend.modelId
  dim := backend.dim
  maxLen := backend.maxLen
  queryPolicy := backend.queryPolicy

/-- The backends that can be configured: a built-in local profile with any maximal length, or an
OpenRouter profile with anything in it. -/
inductive Configured : EmbeddingBackend → Prop
  | builtIn {profile : EmbeddingProfile} (mem : profile ∈ BUILT_IN_PROFILES)
      (isLocal : profile.localLoader.isSome) (maxLen : UInt64) (forceCpu : Bool) :
      Configured { profile, runtime := profile.runtime, maxLen, forceCpu }
  | openRouter {profile : EmbeddingProfile} (runtime : profile.runtime = .openRouter)
      (maxLen : UInt64) (forceCpu : Bool) :
      Configured { profile, runtime := .openRouter, maxLen, forceCpu }

/-- A built-in local profile is found by its runtime and its model. -/
theorem builtInLocalForIdentity_eq {profile : EmbeddingProfile} (h : profile ∈ BUILT_IN_PROFILES)
    (hlocal : profile.localLoader.isSome) : profile.runtime ≠ .openRouter ∧
      EmbeddingProfile.builtInLocalForIdentity profile.runtime profile.modelId = some profile := by
  revert profile
  decide

/-- A model of OpenRouter has the profile that is built in or one of its own. -/
theorem builtInApiForIdentity_spec (modelId : String) :
    ∀ profile ∈ EmbeddingProfile.builtInApiForIdentity .openRouter modelId,
      profile.runtime = .openRouter ∧ profile.modelId = modelId := by
  intro profile h
  have hfound := List.find?_some h
  rw [decide_eq_true_iff] at hfound
  exact ⟨hfound.1, hfound.2.1⟩

theorem fromIdentity_encode (utf8Error : List UInt8 → String) (backend : EmbeddingBackend) :
    fromIdentity utf8Error backend.identity = ofIdentity {
      runtime := backend.runtime
      modelId := backend.modelId
      dim := backend.dim
      maxLen := backend.maxLen
      query := backend.queryPolicy.encodeTag } backend.queryPolicy backend.identity := by
  have hprefix : "emb;".toList <+: backend.identity.toList := by
    rw [identity, EmbeddingIdentity.toList_encode]
    exact ⟨_, rfl⟩
  rw [fromIdentity, if_pos hprefix, fromV2Identity, identity, EmbeddingIdentity.decode_encode]
  show ((QueryPolicy.decodeTag utf8Error backend.queryPolicy.encodeTag).mapError
    EmbeddingError.invalidIdentity >>= _) = _
  rw [QueryPolicy.decodeTag_encodeTag]
  rfl

/-- **A backend is read back from its identity**, as far as the identity says. -/
theorem fromIdentity_identity (utf8Error : List UInt8 → String) {backend : EmbeddingBackend}
    (h : Configured backend) :
    ∃ restored, fromIdentity utf8Error backend.identity = .ok restored ∧
      restored.named = backend.named := by
  rw [fromIdentity_encode]
  cases h with
  | @builtIn profile mem isLocal maxLen forceCpu =>
    obtain ⟨hruntime, hfound⟩ := builtInLocalForIdentity_eq mem isLocal
    refine ⟨{ fromProfile profile with maxLen }, ?_, rfl⟩
    rw [ofIdentity, if_neg hruntime]
    show (match EmbeddingProfile.builtInLocalForIdentity profile.runtime profile.modelId with
      | none => _
      | some profile => _) = _
    rw [hfound]
    exact if_neg (not_not_intro rfl)
  | @openRouter profile runtime maxLen forceCpu =>
    refine ⟨_, if_pos rfl, ?_⟩
    have hfound : ∀ base : EmbeddingProfile,
        base.runtime = .openRouter ∧ base.modelId = profile.modelId →
          let found :=
            (EmbeddingProfile.builtInApiForIdentity .openRouter profile.modelId).getD base
          found.runtime = .openRouter ∧ found.modelId = profile.modelId := by
      intro base hbase
      rcases h : EmbeddingProfile.builtInApiForIdentity .openRouter profile.modelId with - | found
      · exact hbase
      · exact builtInApiForIdentity_spec profile.modelId found h
    obtain ⟨hruntime, hmodelId⟩ := hfound (apiProfile ⟨.openRouter, profile.modelId, profile.dim,
      maxLen, profile.queryPolicy.encodeTag⟩ profile.queryPolicy) ⟨rfl, rfl⟩
    exact congrArg₂ (fun runtime modelId ↦
      (⟨runtime, modelId, profile.dim, maxLen, profile.queryPolicy⟩ : Named)) hruntime hmodelId

/-- What an identity says of a backend is all that makes it. -/
theorem identity_eq_of_named {a b : EmbeddingBackend} (h : a.named = b.named) :
    a.identity = b.identity := by
  obtain ⟨hruntime, hmodelId, hdim, hmaxLen, hpolicy⟩ := Named.mk.inj h
  rw [identity, identity, hruntime, hmodelId, hdim, hmaxLen, hpolicy]

/-- **Identities round-trip and separate.** A configured backend is read back from its identity, as
far as the identity says and with the same identity, and one that differs in what it says has
another one. -/
theorem identity_spec (utf8Error : List UInt8 → String) {backend : EmbeddingBackend}
    (h : Configured backend) :
    (∃ restored, fromIdentity utf8Error backend.identity = .ok restored ∧
      restored.named = backend.named ∧ restored.identity = backend.identity) ∧
    ∀ other, Configured other → other.named ≠ backend.named →
      other.identity ≠ backend.identity := by
  obtain ⟨restored, hrestored, hnamed⟩ := fromIdentity_identity utf8Error h
  refine ⟨⟨restored, hrestored, hnamed, identity_eq_of_named hnamed⟩, fun other hother hne heq ↦ ?_⟩
  obtain ⟨restored', hrestored', hnamed'⟩ := fromIdentity_identity utf8Error hother
  rw [heq, hrestored] at hrestored'
  obtain rfl := Except.ok.inj hrestored'
  exact hne (hnamed'.symm.trans hnamed)

/-- An OpenRouter backend with every separator in its texts. -/
theorem identity_spec_reserved :
    let backend : EmbeddingBackend :=
      ⟨apiProfile ⟨.openRouter, "a;b=c:d%", 7, 9, ""⟩ (.inputType "x:y;" "%3A="), .openRouter, 9,
        false⟩
    (∃ restored, fromIdentity (fun _ ↦ "") backend.identity = .ok restored ∧
      restored.named = backend.named ∧ restored.identity = backend.identity) ∧
    ∀ other, Configured other → other.named ≠ backend.named →
      other.identity ≠ backend.identity :=
  identity_spec (fun _ ↦ "") (.openRouter rfl 9 false)

end EmbeddingBackend

end RustCodeMcp.Identity
