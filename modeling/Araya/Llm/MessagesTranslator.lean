import Araya.Llm.Translate

/-!
The translator of the Messages protocol: blocks start, grow and stop under the indices of the
wire, in any order; the stop of the message gives the usage and the finish, with the
signatures of the reasoning blocks to replay.
-/

namespace Araya.Llm

/-- A block's index is its position. -/
structure MessagesBlock where
  kind : ContentBlockType
  text : String := ""
  callId : String := ""
  name : String := ""
  json : String := ""
  signature : String := ""
  closed : Bool := false

structure MessagesTranslator where
  model : String := ""
  order : List MessagesBlock := []
  wireIndex : SortedMap Nat Nat := ∅
  usage : TokenUsage := {}
  pendingFinish : Option FinishReason := none
  pendingFailure : Option LlmFailure := none
  started : Bool := false
  done : Bool := false

def malformed (detail : String) : Thrown := malformedResponse ("Messages stream: " ++ detail)

def getUint (o : Json.Members) (key : String) : Nat := (Json.optUintField o key).getD 0

/-- The position that a wire index gives; none is given where it is missing. -/
def blockIndex (event : Json.Members) : Except Thrown (Option Nat) :=
  match Json.find? event "index" with
  | none => .ok none
  | some (.int n) => if 0 ≤ n then .ok (some n.toNat) else .error (malformed "invalid block index")
  | some _ => .error (malformed "invalid block index")

namespace MessagesBlock

/-- The block that a `content_block_start` holds. -/
def ofContent (lib : BoostJson) (o : Json.Members) : Except Thrown MessagesBlock :=
  let type := getString o "type"
  if type = "text" then .ok { kind := .text, text := getString o "text" }
  else if type = "thinking" then
    .ok { kind := .reasoning, text := getString o "thinking", signature := getString o "signature" }
  else if type = "tool_use" then
    .ok {
      kind := .toolCall
      callId := getString o "id"
      name := getString o "name"
      text := ((Json.objectField o "input").map lib.serialize).getD "" }
  else .error (malformed ("unsupported content block " ++ type))

/-- The chunks of a block that starts. -/
def startChunks (b : MessagesBlock) (index : Nat) : List StreamChunk :=
  .blockStart index b.kind :: match b.kind with
    | .text => if b.text.isEmpty then [] else [.textDelta index b.text]
    | .reasoning => if b.text.isEmpty then [] else [.reasoningDelta index b.text]
    | .toolCall => [.toolCallDelta index b.callId b.name ""]
    | .toolResult => []

/-- `delta`. -/
def delta (b : MessagesBlock) (index : Nat) (value : Json) : Except Thrown (MessagesBlock × List StreamChunk) :=
  match value.ifObject with
  | none => .error (malformed "content_block_delta is not an object")
  | some o =>
    let type := getString o "type"
    if type = "text_delta" ∧ b.kind = .text then
      let text := getString o "text"
      .ok ({ b with text := b.text ++ text }, [.textDelta index text])
    else if type = "thinking_delta" ∧ b.kind = .reasoning then
      let text := getString o "thinking"
      .ok ({ b with text := b.text ++ text }, [.reasoningDelta index text])
    else if type = "signature_delta" ∧ b.kind = .reasoning then
      .ok ({ b with signature := b.signature ++ getString o "signature" }, [])
    else if type = "input_json_delta" ∧ b.kind = .toolCall then
      let fragment := getString o "partial_json"
      .ok ({ b with json := b.json ++ fragment }, [.toolCallDelta index b.callId b.name fragment])
    else .error (malformed ("unsupported delta " ++ type))

/-- The content of a block that stops. -/
def content (b : MessagesBlock) : Option ContentBlock :=
  match b.kind with
  | .text => some (.text b.text)
  | .reasoning => some (.reasoning b.text)
  | .toolCall => some (.toolCall ⟨b.callId, b.name, if b.json.isEmpty then b.text else b.json⟩)
  | .toolResult => none

/-- What is replayed of a block. -/
def replay (b : MessagesBlock) : Json := if b.kind = .reasoning then .str b.signature else .null

end MessagesBlock

/-- `finish_from`. -/
def finishFrom (failure : LlmFailure) : StreamChunk :=
  .finish (if failure.code = .aborted then .aborted else .error) (some failure) none

/-- `messages_failure_for`. -/
def messagesFailureFor (lib : BoostJson) (status : Nat) (body : Bytes) : LlmFailure :=
  let error := errorObject lib body
  let type := getString error "type"
  let message := getString error "message"
  let detail := type ++ " " ++ message
  let code : LlmErrorCode :=
    if status = 401 ∨ status = 403 ∨ type = "authentication_error" ∨ type = "permission_error" then .auth
    else if status = 402 ∨ contains detail "quota" then .quota
    else if status = 429 ∨ type = "rate_limit_error" then .rateLimit
    else if contains detail "context" ∧ (contains detail "exceed" ∨ contains detail "length" ∨ contains detail "window") then
      .contextWindowExceeded
    else if status = 400 ∨ status = 413 ∨ type = "invalid_request_error" then .invalidRequest
    else if 500 ≤ status ∨ type = "api_error" ∨ type = "overloaded_error" then .server
    else .invalidRequest
  { code, message := providerError status message }

namespace MessagesTranslator
variable (lib : BoostJson) (t : MessagesTranslator)

def replayState : Json :=
  .obj [("format", .str "messages"), ("model", .str t.model), ("signatures", .arr (t.order.map (·.replay)))]

def messageStart (event : Json.Members) : Except Thrown (MessagesTranslator × List StreamChunk) :=
  if t.started then .error (malformed "duplicate message_start")
  else
    let usage := ((Json.objectField event "message").bind (Json.objectField · "usage")).elim t.usage fun fields =>
      { t.usage with
        inputTokens := getUint fields "input_tokens"
        outputTokens := getUint fields "output_tokens"
        cacheReadTokens := Json.optUintField fields "cache_read_input_tokens"
        cacheWriteTokens := Json.optUintField fields "cache_creation_input_tokens" }
    .ok ({ t with usage, started := true }, [])

def blockStart (event : Json.Members) : Except Thrown (MessagesTranslator × List StreamChunk) :=
  if !t.started then .error (malformed "event precedes message_start")
  else do
    match ← blockIndex event with
    | none => .error (malformed "invalid block index")
    | some index =>
      if t.wireIndex.contains index || t.pendingFinish.isSome then
        .error (malformed "block start repeats an index or follows settlement")
      else
        match Json.find? event "content_block" with
        | none => .error (malformed "content_block_start has no content_block")
        | some content =>
          match content.ifObject with
          | none => .error (malformed "content_block_start is not an object")
          | some o => do
            let block ← MessagesBlock.ofContent lib o
            .ok ({ t with order := t.order ++ [block], wireIndex := t.wireIndex.insert index t.order.length },
              block.startChunks t.order.length)

/-- The open block of a wire index. -/
def openAt (index : Nat) (missing closed : String) : Except Thrown (Nat × MessagesBlock) :=
  match t.wireIndex.find? index with
  | none => .error (malformed missing)
  | some position =>
    match t.order[position]? with
    | none => .error (malformed missing)
    | some block => if block.closed then .error (malformed closed) else .ok (position, block)

def blockDelta (event : Json.Members) (index : Nat) : Except Thrown (MessagesTranslator × List StreamChunk) := do
  let (position, block) ← t.openAt index "delta without an open block" "delta on a closed block"
  match Json.find? event "delta" with
  | none => .error (malformed "content_block_delta has no delta")
  | some value => do
    let (block, chunks) ← block.delta position value
    .ok ({ t with order := t.order.set position block }, chunks)

def blockStop (index : Nat) : Except Thrown (MessagesTranslator × List StreamChunk) := do
  let (position, block) ← t.openAt index "stop without an open block" "stop on a closed block"
  .ok ({ t with order := t.order.set position { block with closed := true } },
    (block.content.map (.blockEnd position)).toList)

def stopReason (reason : String) : MessagesTranslator :=
  if reason.isEmpty then t
  else if reason = "end_turn" ∨ reason = "stop_sequence" then { t with pendingFinish := some .stop }
  else if reason = "tool_use" then { t with pendingFinish := some .toolCalls }
  else if reason = "max_tokens" then { t with pendingFinish := some .maxTokens }
  else { t with
    pendingFinish := some .error
    pendingFailure := some { code := .malformedResponse, message := "model stopped: " ++ reason } }

/-- A count that an update of the usage holds, else the count as it is. -/
def countOf (usage : Json.Members) (key : String) (current : Nat) : Nat :=
  match Json.find? usage key with
  | none | some .null => current
  | some n => n.optUint.getD 0

def messageDelta (event : Json.Members) : MessagesTranslator :=
  let t := (Json.objectField event "delta").elim t fun value => t.stopReason (getString value "stop_reason")
  (Json.objectField event "usage").elim t fun usage => { t with usage := { t.usage with
    outputTokens := countOf usage "output_tokens" t.usage.outputTokens
    inputTokens := countOf usage "input_tokens" t.usage.inputTokens } }

def total (usage : TokenUsage) : Nat :=
  (usage.inputTokens + usage.outputTokens + usage.cacheReadTokens.getD 0 + usage.cacheWriteTokens.getD 0) % 2 ^ 64

def messageStop : Except Thrown (MessagesTranslator × List StreamChunk) :=
  match t.pendingFinish with
  | none => .error (malformed "message_stop before settled blocks and a stop reason")
  | some reason =>
    if !t.order.all (·.closed) then .error (malformed "message_stop before settled blocks and a stop reason")
    else if t.order.isEmpty ∧ reason = .stop then .ok ({ t with done := true }, [finishFrom emptyResponse])
    else
      let usage := { t.usage with totalTokens := some (total t.usage) }
      .ok ({ t with usage, done := true }, [.usage usage, .finish reason t.pendingFailure (some t.replayState)])

def feed (event : Json) (t : MessagesTranslator) : Except Thrown (MessagesTranslator × List StreamChunk) :=
  if t.done then .error (malformed "event after message_stop")
  else
    match event.ifObject with
    | none => .error (malformed "event is not an object")
    | some o => do
      let type := getString o "type"
      if type = "message_start" then t.messageStart o
      else if type = "content_block_start" then t.blockStart lib o
      else
        let index := (← blockIndex o).getD 0
        if type = "content_block_delta" then t.blockDelta o index
        else if type = "content_block_stop" then t.blockStop index
        else if type = "message_delta" then .ok (t.messageDelta o, [])
        else if type = "message_stop" then t.messageStop
        else .ok (t, [])

/-- The blocks that the translator holds. -/
def blocks : List ContentBlock := t.order.filterMap (·.content)

/-! What an event does -/

variable {lib t}
variable {t' : MessagesTranslator} {chunks : List StreamChunk} {event : Json} {o : Json.Members}

theorem blockStart_ok (done : t.blockStart lib o = .ok (t', chunks)) :
    ∃ content block, Json.objectField o "content_block" = some content ∧ MessagesBlock.ofContent lib content = .ok block ∧
      t'.order = t.order ++ [block] ∧ t'.done = t.done ∧ chunks = block.startChunks t.order.length := by
  simp only [blockStart, bind, Except.bind] at done
  split at done
  · cases done
  · split at done
    · cases done
    · split at done
      · cases done
      · split at done
        · cases done
        · split at done
          · cases done
          · next node found =>
              split at done
              · cases done
              · next content object =>
                  split at done
                  · cases done
                  · next block made =>
                      cases done
                      refine ⟨content, block, ?_, made, rfl, rfl, rfl⟩
                      rw [Json.objectField, found]
                      exact object

theorem openAt_ok {index : Nat} {missing closed : String} {p : Nat} {b : MessagesBlock}
    (done : t.openAt index missing closed = .ok (p, b)) :
    t.wireIndex.find? index = some p ∧ t.order[p]? = some b ∧ b.closed = false := by
  unfold openAt at done
  split at done
  · cases done
  · next p' found =>
      split at done
      · cases done
      · next b' hb =>
          split at done
          · cases done
          · next live =>
              cases done
              exact ⟨found, hb, Bool.not_eq_true _ ▸ live⟩

theorem blockDelta_ok {index : Nat} (done : t.blockDelta o index = .ok (t', chunks)) :
    ∃ p b b' value, t.wireIndex.find? index = some p ∧ t.order[p]? = some b ∧ b.closed = false ∧
      b.delta p value = .ok (b', chunks) ∧ t' = { t with order := t.order.set p b' } := by
  simp only [blockDelta, bind, Except.bind] at done
  split at done
  · cases done
  · next entry found =>
      obtain ⟨p, b⟩ := entry
      obtain ⟨wire, hb, live⟩ := openAt_ok found
      split at done
      · cases done
      · split at done
        · cases done
        · next grown =>
            cases done
            exact ⟨p, b, _, _, wire, hb, live, grown, rfl⟩

theorem blockStop_ok {index : Nat} (done : t.blockStop index = .ok (t', chunks)) :
    ∃ p b, t.wireIndex.find? index = some p ∧ t.order[p]? = some b ∧ b.closed = false ∧
      t' = { t with order := t.order.set p { b with closed := true } } ∧
      chunks = (b.content.map (.blockEnd p)).toList := by
  simp only [blockStop, bind, Except.bind] at done
  split at done
  · cases done
  · next entry found =>
      obtain ⟨p, b⟩ := entry
      obtain ⟨wire, hb, live⟩ := openAt_ok found
      cases done
      exact ⟨p, b, wire, hb, live, rfl, rfl⟩

theorem messageStart_ok (done : t.messageStart o = .ok (t', chunks)) :
    t'.order = t.order ∧ t'.done = t.done ∧ chunks = [] := by
  simp only [messageStart] at done
  split at done
  · cases done
  · cases done
    exact ⟨rfl, rfl, rfl⟩

theorem messageDelta_same (o : Json.Members) : (t.messageDelta o).order = t.order ∧ (t.messageDelta o).done = t.done := by
  have reasoned : ∀ reason, (t.stopReason reason).order = t.order ∧ (t.stopReason reason).done = t.done := by
    intro reason
    unfold stopReason
    split_ifs <;> exact ⟨rfl, rfl⟩
  simp only [messageDelta]
  cases Json.objectField o "usage" <;> cases Json.objectField o "delta" <;>
    first | exact ⟨rfl, rfl⟩ | exact reasoned _

theorem messageStop_ok (done : t.messageStop = .ok (t', chunks)) :
    t'.done = true ∧ t'.order = t.order ∧ t'.model = t.model ∧
      (t.order = [] ∧ chunks = [finishFrom emptyResponse] ∨
        ∃ usage why failure, chunks = [.usage usage, .finish why failure (some t.replayState)]) := by
  simp only [messageStop] at done
  split at done
  · cases done
  · split at done
    · cases done
    · split at done
      · next empty =>
          cases done
          exact ⟨rfl, rfl, rfl, .inl ⟨List.isEmpty_iff.mp empty.1, rfl⟩⟩
      · cases done
        exact ⟨rfl, rfl, rfl, .inr ⟨_, _, _, rfl⟩⟩

/-- The handlers of the event types. -/
inductive Handled (lib : BoostJson) (t : MessagesTranslator) (o : Json.Members) (t' : MessagesTranslator)
    (chunks : List StreamChunk) : Prop
  | messageStart : getString o "type" = "message_start" → t.messageStart o = .ok (t', chunks) → Handled lib t o t' chunks
  | blockStart : getString o "type" = "content_block_start" → t.blockStart lib o = .ok (t', chunks) →
      Handled lib t o t' chunks
  | blockDelta (index : Option Nat) : getString o "type" = "content_block_delta" →
      t.blockDelta o (index.getD 0) = .ok (t', chunks) → Handled lib t o t' chunks
  | blockStop (index : Option Nat) : getString o "type" = "content_block_stop" → blockIndex o = .ok index →
      t.blockStop (index.getD 0) = .ok (t', chunks) → Handled lib t o t' chunks
  | messageStop : getString o "type" = "message_stop" → t.messageStop = .ok (t', chunks) → Handled lib t o t' chunks
  | idle : getString o "type" ≠ "content_block_start" → getString o "type" ≠ "message_stop" →
      t' = t ∨ t' = t.messageDelta o → chunks = [] → Handled lib t o t' chunks

theorem feed_ok (done : feed lib event t = .ok (t', chunks)) :
    t.done = false ∧ ∃ o, event.ifObject = some o ∧ Handled lib t o t' chunks := by
  unfold feed at done
  split at done
  · cases done
  · next running =>
      refine ⟨Bool.not_eq_true _ ▸ running, ?_⟩
      split at done
      · cases done
      · next o object =>
          refine ⟨o, object, ?_⟩
          simp only [bind, Except.bind] at done
          split at done
          · next type => exact .messageStart type done
          · split at done
            · next type => exact .blockStart type done
            · next other =>
                split at done
                · cases done
                · next index found =>
                    split at done
                    · next type => exact .blockDelta index type done
                    · split at done
                      · next type => exact .blockStop index type found done
                      · split at done
                        · next type =>
                            cases done
                            exact .idle other (by simp [type]) (.inr rfl) rfl
                        · split at done
                          · next type => exact .messageStop type done
                          · next unknown =>
                              cases done
                              exact .idle other unknown (.inl rfl) rfl

end MessagesTranslator
end Araya.Llm
