import Araya.Session.Surface

/-!
The bridge between session events and model messages: the content blocks, the
envelopes the agent loop writes them in, and how a surface message reads back as
a model message. A block of the loop reads back as itself; a tool result may
lift images beside it.
-/

namespace Araya.Llm

inductive MessageRole where
  | system
  | user
  | assistant
  deriving DecidableEq, Repr

structure ToolCallBlock where
  id : String
  name : String
  arguments : String
  deriving DecidableEq, Repr

inductive ContentBlock where
  | text (text : String)
  | reasoning (text : String)
  | toolCall (call : ToolCallBlock)
  | toolResult (toolCallId : String) (content : Json) (isError : Bool)
  | image (attachmentId mediaType data : String)

structure LlmMessage where
  role : MessageRole := .user
  content : List ContentBlock := []
  replayState : Option Json := none

structure TokenUsage where
  inputTokens : Nat := 0
  outputTokens : Nat := 0
  totalTokens : Option Nat := none
  cacheReadTokens : Option Nat := none
  cacheWriteTokens : Option Nat := none
  reasoningTokens : Option Nat := none

/-- A member that is a string; anything else reads as the empty one. -/
def getString (o : Json.Members) (key : String) : String := (Json.stringField o key).getD ""

/-! Writing -/

def blockToJson : ContentBlock → Json
  | .text text => .obj [("type", .str "text"), ("text", .str text)]
  | .reasoning text => .obj [("type", .str "reasoning"), ("text", .str text)]
  | .toolCall call => .obj [("type", .str "tool_call"), ("id", .str call.id), ("name", .str call.name),
      ("arguments", .str call.arguments)]
  | .toolResult toolCallId content isError =>
    .obj ([("type", .str "tool_result"), ("tool_call_id", .str toolCallId), ("content", content)] ++
      if isError then [("is_error", .bool true)] else [])
  | .image attachmentId mediaType data => .obj [("type", .str "image"),
      ("attachment_id", .str attachmentId), ("media_type", .str mediaType), ("data", .str data)]

def blocksToJson (blocks : List ContentBlock) : Json := .arr (blocks.map blockToJson)

def optionalCount (key : String) : Option Nat → Json.Members
  | none => []
  | some n => [(key, .uint n)]

def usageToJson (usage : TokenUsage) : Json :=
  .obj ([("input_tokens", .uint usage.inputTokens), ("output_tokens", .uint usage.outputTokens)] ++
    optionalCount "total_tokens" usage.totalTokens ++
    optionalCount "cache_read_tokens" usage.cacheReadTokens ++
    optionalCount "cache_write_tokens" usage.cacheWriteTokens ++
    optionalCount "reasoning_tokens" usage.reasoningTokens)

/-- `assistant_message_data`. -/
def assistantMessageData (id : String) (blocks : List ContentBlock) (usage : TokenUsage)
    (replay : Option Json) (turn step : Nat) (interrupted : Bool) : Json :=
  .obj ([("message", .obj [("id", .str id), ("role", .str "assistant"),
      ("content", blocksToJson blocks)]), ("usage", usageToJson usage)] ++
    (replay.map fun r => ("replay", r)).toList ++
    (if turn = 0 then [] else [("turn", .uint turn)]) ++
    (if step = 0 then [] else [("step", .uint step)]) ++
    if interrupted then [("interrupted", .bool true)] else [])

def textContent (text : String) : Json := .arr [.obj [("type", .str "text"), ("text", .str text)]]

def systemMessageData (id plugin text : String) : Json :=
  .obj [("message", .obj [("id", .str id), ("role", .str "system"), ("content", textContent text),
    ("source", .obj [("kind", .str "plugin"), ("plugin", .str plugin)])])]

def userMessageData (id : String) (content : List Json) (source : Option Json) : Json :=
  .obj ([("id", .str id), ("role", .str "user"), ("content", .arr content)] ++
    (source.map fun s => ("source", s)).toList)

def toolResultData (id callId : String) (content : Json) (isError : Bool) : Json :=
  .obj [("id", .str id), ("role", .str "user"),
    ("content", .arr [.obj [("type", .str "tool_result"), ("tool_call_id", .str callId),
      ("content", content), ("is_error", .bool isError)]]),
    ("source", .obj [("kind", .str "tool"), ("call_id", .str callId)])]

/-! Reading -/

/-- The image that a block of a tool result holds. -/
def innerImage (inner : Json) : Option ContentBlock :=
  inner.ifObject.bind fun o =>
    if getString o "type" = "image" then
      some (.image (getString o "attachment_id") (getString o "media_type") (getString o "data"))
    else none

def liftedImages (content : Json) : List ContentBlock :=
  (content.ifArray.getD []).filterMap innerImage

/-- The blocks that a block of a surface message reads as; an unknown one is dropped. -/
def blockOfJson (block : Json) : List ContentBlock :=
  match block.ifObject with
  | none => []
  | some o =>
    let type := getString o "type"
    if type = "text" then [.text (getString o "text")]
    else if type = "reasoning" then [.reasoning (getString o "text")]
    else if type = "tool_call" then
      [.toolCall ⟨getString o "id", getString o "name", getString o "arguments"⟩]
    else if type = "tool_result" then
      let content := (Json.find? o "content").getD .null
      let isError := ((Json.find? o "is_error").bind Json.ifBool).getD false
      liftedImages content ++ [.toolResult (getString o "tool_call_id") content isError]
    else if type = "image" then
      [.image (getString o "attachment_id") (getString o "media_type") (getString o "data")]
    else []

def blocksOfJson (content : Json) : List ContentBlock := (content.ifArray.getD []).flatMap blockOfJson

def roleOf : Sessions.MessageRole → MessageRole
  | .system => .system
  | .user => .user
  | .assistant => .assistant
  | .toolResult => .user

/-- `to_llm_message`. -/
def toLlmMessage (message : Sessions.Message) : LlmMessage where
  role := roleOf message.role
  content := blocksOfJson message.content

/-- `tool_calls_of`. -/
def toolCallsOf (blocks : List ContentBlock) : List ToolCallBlock :=
  blocks.filterMap fun
    | .toolCall call => some call
    | _ => none

/-! What is written reads back -/

/-- A block as a reader sees it: a tool result after the images it holds. -/
def ContentBlock.shown : ContentBlock → List ContentBlock
  | .toolResult toolCallId content isError =>
    liftedImages content ++ [.toolResult toolCallId content isError]
  | b => [b]

theorem blockOfJson_blockToJson (b : ContentBlock) : blockOfJson (blockToJson b) = b.shown := by
  cases b with
  | toolResult toolCallId content isError =>
      cases isError <;>
        simp [blockOfJson, blockToJson, ContentBlock.shown, getString, Json.stringField, Json.ifBool]
  | _ => simp [blockOfJson, blockToJson, ContentBlock.shown, getString, Json.stringField]

theorem blocksOfJson_blocksToJson (blocks : List ContentBlock) :
    blocksOfJson (blocksToJson blocks) = blocks.flatMap ContentBlock.shown := by
  simp only [blocksOfJson, blocksToJson, Json.ifArray_arr, Option.getD_some, List.flatMap_map]
  exact congrArg (fun f => List.flatMap f blocks) (funext blockOfJson_blockToJson)

theorem toolCallsOf_append (a b : List ContentBlock) :
    toolCallsOf (a ++ b) = toolCallsOf a ++ toolCallsOf b := List.filterMap_append

theorem toolCallsOf_shown (b : ContentBlock) : toolCallsOf b.shown = toolCallsOf [b] := by
  cases b with
  | toolResult toolCallId content isError =>
      have none : toolCallsOf (liftedImages content) = [] := by
        refine List.filterMap_eq_nil_iff.mpr fun b hb => ?_
        obtain ⟨inner, _, hb⟩ := List.mem_filterMap.mp hb
        obtain ⟨o, _, hb⟩ := Option.bind_eq_some_iff.mp hb
        split at hb
        · cases hb; rfl
        · cases hb
      rw [ContentBlock.shown, toolCallsOf_append, none]
      rfl
  | _ => rfl

/-- The calls of a message survive the bridge. -/
theorem toolCallsOf_blocksToJson (blocks : List ContentBlock) :
    toolCallsOf (blocksOfJson (blocksToJson blocks)) = toolCallsOf blocks := by
  rw [blocksOfJson_blocksToJson]
  induction blocks with
  | nil => rfl
  | cons b bs ih =>
      rw [List.flatMap_cons, toolCallsOf_append, toolCallsOf_shown, ih, ← toolCallsOf_append]
      rfl

end Araya.Llm
