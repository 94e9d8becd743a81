import Araya.Llm.Sse
import Araya.Llm.Stream
import Mathlib.Data.List.Infix

/-!
The translator of the chat-completions protocol: a payload of the event stream becomes
chunks, one open block for the content, the reasoning and each tool call. The finish reason
and the usage wait for the end of the stream.
-/

namespace Araya.Llm

/-- The JSON library: its parser, its serializer, its conversions of numbers, and the texts of
its own errors. -/
structure BoostJson where
  parse : Bytes → Option Json
  serialize : Json.Members → String
  toInt : Json → Except String Int
  toUint : Json → Except String Nat
  noMember : String

/-- What a translator throws: an `llm_error`, or an error of the library. -/
inductive Thrown where
  | llm (failure : LlmFailure)
  | system (what : String)

def malformedResponse (what : String) : Thrown := .llm { code := .malformedResponse, message := what }

def fromLibrary {α : Type} : Except String α → Except Thrown α
  | .ok a => .ok a
  | .error what => .error (.system what)

/-- One step for each item, the chunks of all. -/
def collect {α σ : Type} (f : α → σ → Except Thrown (σ × List StreamChunk)) :
    List α → σ → Except Thrown (σ × List StreamChunk)
  | [], s => .ok (s, [])
  | a :: as, s => do
    let (s, front) ← f a s
    let (s, back) ← collect f as s
    .ok (s, front ++ back)

/-- A block's index is its position. -/
structure ChunkBlock where
  kind : ContentBlockType
  text : String := ""
  callId : String := ""
  name : String := ""

/-- `text` and `reasoning` are the positions of these blocks. -/
structure ChunkTranslator where
  order : List ChunkBlock := []
  text : Option Nat := none
  reasoning : Option Nat := none
  toolPosition : SortedMap Nat Nat := ∅
  pendingFinish : Option FinishReason := none
  pendingFailure : Option LlmFailure := none
  pendingUsage : Option TokenUsage := none
  done : Bool := false

/-- An identity that is empty or missing is no update. -/
def acceptIdentity (current : String) (incoming : Option Json) : String :=
  match incoming.bind Json.ifString with
  | some identity => if identity.isEmpty then current else identity
  | none => current

namespace ChunkBlock

def addText (b : ChunkBlock) (text : String) : ChunkBlock := { b with text := b.text ++ text }

def addCall (b : ChunkBlock) (id name : Option Json) (fragment : String) : ChunkBlock :=
  { b with
    callId := acceptIdentity b.callId id
    name := acceptIdentity b.name name
    text := b.text ++ fragment }

/-- `close_block`. -/
def close (b : ChunkBlock) : Option ContentBlock :=
  match b.kind with
  | .text => some (.text b.text)
  | .reasoning => some (.reasoning b.text)
  | .toolCall => some (.toolCall ⟨b.callId, b.name, b.text⟩)
  | .toolResult => none

end ChunkBlock

def emptyResponse : LlmFailure :=
  { code := .emptyResponse, message := "model returned a completed response with no content" }

namespace ChunkTranslator
variable (lib : BoostJson) (t : ChunkTranslator)

/-- A new block, at the end. -/
def openBlock (kind : ContentBlockType) : ChunkTranslator := { t with order := t.order ++ [{ kind }] }

def ensureReasoning : ChunkTranslator × Nat × List StreamChunk :=
  match t.reasoning with
  | some position => (t, position, [])
  | none => ({ t.openBlock .reasoning with reasoning := some t.order.length }, t.order.length,
      [.blockStart t.order.length .reasoning])

def ensureText : ChunkTranslator × Nat × List StreamChunk :=
  match t.text with
  | some position => (t, position, [])
  | none => ({ t.openBlock .text with text := some t.order.length }, t.order.length,
      [.blockStart t.order.length .text])

def ensureTool (wireIndex : Nat) : ChunkTranslator × Nat × List StreamChunk :=
  match t.toolPosition.find? wireIndex with
  | some position => (t, position, [])
  | none => ({ t.openBlock .toolCall with toolPosition := t.toolPosition.insert wireIndex t.order.length },
      t.order.length, [.blockStart t.order.length .toolCall])

def edit (position : Nat) (f : ChunkBlock → ChunkBlock) : ChunkTranslator :=
  { t with order := t.order.modify position f }

/-- A fragment of the block that `ensured` gives; an empty one opens none. -/
def applyText (ensured : ChunkTranslator × Nat × List StreamChunk) (chunk : Nat → String → StreamChunk) :
    Option String → ChunkTranslator × List StreamChunk
  | none => (t, [])
  | some text =>
    if text.isEmpty then (t, [])
    else (ensured.1.edit ensured.2.1 (·.addText text), ensured.2.2 ++ [chunk ensured.2.1 text])

def applyReasoning (delta : Json.Members) : ChunkTranslator × List StreamChunk :=
  t.applyText t.ensureReasoning .reasoningDelta (Json.stringField delta "reasoning_content")

def applyContent (delta : Json.Members) : ChunkTranslator × List StreamChunk :=
  t.applyText t.ensureText .textDelta (Json.stringField delta "content")

/-- The wire index of a call: a signed number, cast to the size type. -/
def wireIndexOf (call : Json.Members) : Except Thrown Nat :=
  match Json.find? call "index" with
  | none => .ok 0
  | some index => (fromLibrary (lib.toInt index)).map fun n => (n % 2 ^ 64).toNat

def applyToolCall (call : Json) (t : ChunkTranslator) : Except Thrown (ChunkTranslator × List StreamChunk) :=
  match call.ifObject with
  | none => .ok (t, [])
  | some o => do
    let wireIndex ← wireIndexOf lib o
    let (t, position, started) := t.ensureTool wireIndex
    let function := (Json.objectField o "function").getD []
    let fragment := (Json.stringField function "arguments").getD ""
    let block := ((t.order[position]?).getD { kind := .toolCall }).addCall (Json.find? o "id")
      (Json.find? function "name") fragment
    .ok (t.edit position fun _ => block, started ++ [.toolCallDelta position block.callId block.name fragment])

def applyDelta (delta : Json.Members) : Except Thrown (ChunkTranslator × List StreamChunk) := do
  let (t, reasoning) := t.applyReasoning delta
  let (t, content) := t.applyContent delta
  let (t, calls) ← collect (applyToolCall lib) ((Json.arrayField delta "tool_calls").getD []) t
  .ok (t, reasoning ++ content ++ calls)

def applyFinishReason (reason : String) : ChunkTranslator :=
  if reason = "stop" then { t with pendingFinish := some .stop }
  else if reason = "tool_calls" then { t with pendingFinish := some .toolCalls }
  else if reason = "length" then { t with pendingFinish := some .maxTokens }
  else { t with
    pendingFinish := some .error
    pendingFailure := some { code := .malformedResponse, message := "model stopped: " ++ reason } }

def applyChoice (choice : Json) (t : ChunkTranslator) : Except Thrown (ChunkTranslator × List StreamChunk) :=
  match choice.ifObject with
  | none => .ok (t, [])
  | some o => do
    let (t, chunks) ← match Json.objectField o "delta" with
      | none => .ok (t, [])
      | some delta => t.applyDelta lib delta
    .ok ((Json.stringField o "finish_reason").elim t t.applyFinishReason, chunks)

/-- `at`, converted. -/
def countAt (o : Json.Members) (key : String) : Except Thrown Nat :=
  match Json.find? o key with
  | none => .error (.system lib.noMember)
  | some n => fromLibrary (lib.toUint n)

/-- A member that may be missing, converted. -/
def countIn (o : Json.Members) (key : String) : Except Thrown (Option Nat) :=
  match Json.find? o key with
  | none => .ok none
  | some n => (fromLibrary (lib.toUint n)).map some

def mapUsage (usage : Json.Members) : Except Thrown TokenUsage := do
  let prompt ← countAt lib usage "prompt_tokens"
  let completion ← countAt lib usage "completion_tokens"
  let details ← countIn lib ((Json.objectField usage "prompt_tokens_details").getD []) "cached_tokens"
  let cacheRead ← match details with
    | some n => .ok (some n)
    | none => countIn lib usage "prompt_cache_hit_tokens"
  let reasoning ← countIn lib ((Json.objectField usage "completion_tokens_details").getD []) "reasoning_tokens"
  .ok {
    inputTokens := cacheRead.elim prompt fun n => prompt - n
    outputTokens := completion
    totalTokens := some ((prompt + completion) % 2 ^ 64)
    cacheReadTokens := cacheRead
    reasoningTokens := reasoning }

def feed (wire : Json) (t : ChunkTranslator) : Except Thrown (ChunkTranslator × List StreamChunk) :=
  if t.done then .error (malformedResponse "chunk arrived after [DONE]")
  else
    match wire.ifObject with
    | none => .error (malformedResponse "SSE payload is not an object")
    | some o => do
      let (t, chunks) ← collect (applyChoice lib) ((Json.arrayField o "choices").getD []) t
      match Json.objectField o "usage" with
      | none => .ok (t, chunks)
      | some usage => do
        let usage ← mapUsage lib usage
        .ok ({ t with pendingUsage := some usage }, chunks)

def finishChunk : StreamChunk :=
  let reason := t.pendingFinish.getD .stop
  if reason = .stop ∧ t.order.isEmpty then .finish .error (some emptyResponse) none
  else .finish reason t.pendingFailure none

/-- `finish`. -/
def finish (t : ChunkTranslator) : Except Thrown (ChunkTranslator × List StreamChunk) :=
  if t.done then .error (malformedResponse "finish() called twice")
  else
    .ok ({ t with done := true },
      t.order.zipIdx.filterMap (fun (block, index) => block.close.map (.blockEnd index)) ++
        (t.pendingUsage.map .usage).toList ++ [t.finishChunk])

/-- The blocks that the translator holds. -/
def blocks : List ContentBlock := t.order.filterMap (·.close)

end ChunkTranslator
/-! Failures of a response -/

def contains (haystack needle : String) : Bool := decide (needle.toList <:+: haystack.toList)

/-- The `error` object of a body; what is not JSON has none. -/
def errorObject (lib : BoostJson) (body : Bytes) : Json.Members :=
  (((lib.parse body).bind Json.ifObject).bind (Json.objectField · "error")).getD []

def providerError (status : Nat) (message : String) : String :=
  if message.isEmpty then "provider error (HTTP " ++ toString status ++ ")" else message

def looksLikeContextWindow (detail : String) : Bool :=
  contains detail "context" && (contains detail "exceed" || contains detail "length" || contains detail "window" ||
    contains detail "maximum")

/-- `failure_for`. -/
def failureFor (lib : BoostJson) (status : Nat) (body : Bytes) : LlmFailure :=
  let error := errorObject lib body
  let detail := ["code", "type", "message"].foldl (fun detail field =>
    match Json.stringField error field with
    | none => detail
    | some text => if detail.isEmpty then text else detail ++ " " ++ text) ""
  let code : LlmErrorCode :=
    if status = 401 ∨ status = 403 then .auth
    else if status = 413 then .invalidRequest
    else if contains detail "quota" then .quota
    else if status = 429 then .rateLimit
    else if status = 400 then (if looksLikeContextWindow detail then .contextWindowExceeded else .invalidRequest)
    else if 500 ≤ status then .server
    else .invalidRequest
  { code, message := providerError status (getString error "message") }

end Araya.Llm
