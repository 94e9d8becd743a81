import Araya.Llm.Bridge
import Araya.Util.Sorted

/-!
The chunk stream of a model call and the accumulator that folds it into the
blocks a step commits: a `block_end` carries an assembled block, and the blocks
still open when a stream is interrupted close from their partial deltas.
-/

namespace Araya.Llm

inductive LlmErrorCode where
  | noAdapter
  | duplicateAdapter
  | auth
  | rateLimit
  | contextWindowExceeded
  | emptyResponse
  | invalidRequest
  | quota
  | server
  | timeout
  | transport
  | aborted
  | streamClosed
  | malformedResponse
  deriving DecidableEq, Repr

/-- `llm_error::code_name`. -/
def codeName : LlmErrorCode → String
  | .noAdapter => "no_adapter"
  | .duplicateAdapter => "duplicate_adapter"
  | .auth => "auth"
  | .rateLimit => "rate_limit"
  | .contextWindowExceeded => "context_window_exceeded"
  | .emptyResponse => "empty_response"
  | .invalidRequest => "invalid_request"
  | .quota => "quota"
  | .server => "server"
  | .timeout => "timeout"
  | .transport => "transport"
  | .aborted => "aborted"
  | .streamClosed => "stream_closed"
  | .malformedResponse => "malformed_response"

structure LlmFailure where
  code : LlmErrorCode := .server
  message : String
  deriving DecidableEq, Repr

def failureToJson (failure : LlmFailure) : Json :=
  .obj [("code", .str (codeName failure.code)), ("message", .str failure.message)]

inductive ContentBlockType where
  | text
  | reasoning
  | toolCall
  | toolResult
  deriving DecidableEq, Repr

/-- `finish_chunk::reason`. -/
inductive FinishReason where
  | stop
  | toolCalls
  | maxTokens
  | error
  | aborted
  deriving DecidableEq, Repr

inductive StreamChunk where
  | blockStart (index : Nat) (type : ContentBlockType)
  | textDelta (index : Nat) (text : String)
  | reasoningDelta (index : Nat) (text : String)
  | toolCallDelta (index : Nat) (id name argumentsDelta : String)
  | blockEnd (index : Nat) (block : ContentBlock)
  | usage (usage : TokenUsage)
  | finish (why : FinishReason) (failure : Option LlmFailure) (replayState : Option Json)

def StreamChunk.isFinish : StreamChunk → Bool
  | .finish .. => true
  | _ => false

/-! The accumulator -/

structure OpenBlock where
  kind : ContentBlockType := .text
  text : String := ""
  callId : String := ""
  name : String := ""

structure StepAccumulator where
  closed : List ContentBlock := []
  opened : SortedMap Nat OpenBlock := ∅
  usage : Option TokenUsage := none
  failure : Option LlmFailure := none
  replay : Option Json := none
  why : FinishReason := .stop

namespace OpenBlock

def addText (b : OpenBlock) (text : String) : OpenBlock := { b with text := b.text ++ text }

/-- A delta that carries no id or no name leaves the block's own. -/
def addCall (b : OpenBlock) (id name argumentsDelta : String) : OpenBlock where
  kind := .toolCall
  callId := if id.isEmpty then b.callId else id
  name := if name.isEmpty then b.name else name
  text := b.text ++ argumentsDelta

def delivered (b : OpenBlock) : Option ContentBlock :=
  match b.kind with
  | .text => some (.text b.text)
  | .reasoning => some (.reasoning b.text)
  | .toolCall => some (.toolCall ⟨b.callId, b.name, b.text⟩)
  | .toolResult => none

end OpenBlock

namespace StepAccumulator

/-- `open[index]`: a block that is not there is made first. -/
def edit (acc : StepAccumulator) (index : Nat) (f : OpenBlock → OpenBlock) : StepAccumulator :=
  { acc with opened := acc.opened.insert index (f ((acc.opened.find? index).getD {})) }

def push (acc : StepAccumulator) : StreamChunk → StepAccumulator
  | .blockStart index type =>
    if acc.opened.contains index then acc
    else { acc with opened := acc.opened.insert index { kind := type } }
  | .textDelta index text => acc.edit index (·.addText text)
  | .reasoningDelta index text => acc.edit index (·.addText text)
  | .toolCallDelta index id name argumentsDelta => acc.edit index (·.addCall id name argumentsDelta)
  | .blockEnd index block =>
    { acc with opened := acc.opened.erase index, closed := acc.closed ++ [block] }
  | .usage usage => { acc with usage := some usage }
  | .finish why failure replayState =>
    { acc with why := why, failure := failure, replay := replayState }

/-- A whole call: the accumulator is reset before it. -/
def accumulate (chunks : List StreamChunk) : StepAccumulator := chunks.foldl push {}

/-- `delivered_blocks`: the closed blocks, then the open ones from what arrived of them. -/
def deliveredBlocks (acc : StepAccumulator) : List ContentBlock :=
  acc.closed ++ acc.opened.toList.filterMap fun e => e.2.delivered

end StepAccumulator
end Araya.Llm
