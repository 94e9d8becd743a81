import Araya.Agent.Inbox
import Araya.Llm.Stream

/-!
What the agent loop writes to its session: every durable boundary of a turn is
one event, and the turn counter and the pending messages are read back from the
log, never kept beside it.
-/

namespace Araya.Agent

open Llm (ContentBlock ToolCallBlock LlmFailure TokenUsage)

inductive RunStatus where
  | completed
  | maxTokens
  | aborted
  | error
  | blocked
  deriving DecidableEq, Repr

/-- `run_status_name`, also the reason of a `turn/end`. -/
def runStatusName : RunStatus → String
  | .completed => "completed"
  | .maxTokens => "max_tokens"
  | .aborted => "aborted"
  | .error => "error"
  | .blocked => "blocked"

structure AssistantMessage where
  id : String
  blocks : List ContentBlock
  usage : TokenUsage
  replay : Option Json
  turn : Nat
  step : Nat
  interrupted : Bool

inductive LoopEvent where
  | turnStart (turn : Nat)
  | turnEnd (turn : Nat) (reason : RunStatus) (failure : Option LlmFailure)
  | stepStart (turn step : Nat)
  | stepEnd (turn step : Nat)
  | inboxSpliced (data : Json)
  | userMessage (data : Json)
  | assistantMessage (message : AssistantMessage)
  | assistantAttempt (turn step : Nat) (failure : Option LlmFailure)
  | toolCall (turn step : Nat) (call : ToolCallBlock)
  | toolResult (id callId : String) (content : Json) (isError : Bool)
  | other (type : String) (data : Json)

abbrev Log := List LoopEvent

/-- The vocabulary that only the loop writes; any other type is `other`. -/
def loopTypes : List String :=
  ["turn/start", "turn/end", "step/start", "step/end", "agent/inbox/spliced", "user/message",
    "assistant/message", "assistant/attempt", "tool/call", "tool/result"]

namespace LoopEvent

def type : LoopEvent → String
  | .turnStart _ => "turn/start"
  | .turnEnd .. => "turn/end"
  | .stepStart .. => "step/start"
  | .stepEnd .. => "step/end"
  | .inboxSpliced _ => "agent/inbox/spliced"
  | .userMessage _ => "user/message"
  | .assistantMessage _ => "assistant/message"
  | .assistantAttempt .. => "assistant/attempt"
  | .toolCall .. => "tool/call"
  | .toolResult .. => "tool/result"
  | .other type _ => type

def failureMember (failure : Option LlmFailure) : Json.Members :=
  (failure.map fun f => ("failure", Llm.failureToJson f)).toList

def data : LoopEvent → Json
  | .turnStart turn => .obj [("turn", .uint turn)]
  | .turnEnd turn reason failure =>
    .obj ([("turn", .uint turn), ("reason", .str (runStatusName reason))] ++ failureMember failure)
  | .stepStart turn step => .obj [("turn", .uint turn), ("step", .uint step)]
  | .stepEnd turn step => .obj [("turn", .uint turn), ("step", .uint step)]
  | .inboxSpliced data => data
  | .userMessage data => data
  | .assistantMessage m =>
    Llm.assistantMessageData m.id m.blocks m.usage m.replay m.turn m.step m.interrupted
  | .assistantAttempt turn step failure =>
    .obj ([("turn", .uint turn), ("step", .uint step)] ++ failureMember failure)
  | .toolCall turn step call =>
    .obj [("turn", .uint turn), ("step", .uint step), ("callId", .str call.id),
      ("name", .str call.name), ("arguments", .str call.arguments)]
  | .toolResult id callId content isError => Llm.toolResultData id callId content isError
  | .other _ data => data

/-- An event of another party, or of the loop but outside its own vocabulary. -/
def Foreign (e : LoopEvent) : Prop := e.type ∉ loopTypes

instance (e : LoopEvent) : Decidable e.Foreign := inferInstanceAs (Decidable (_ ∉ _))

end LoopEvent

/-! Read back from the log -/

/-- The turn that a `turn/start` payload names. -/
def startedTurn (e : LoopEvent) : Nat :=
  if e.type = "turn/start" then
    match (e.data.ifObject.bind fun o => Json.find? o "turn") with
    | some (.int n) => (n % 2 ^ 64).toNat
    | some (.uint n) => n
    | _ => 0
  else 0

/-- `next_turn`: one past the largest turn started. -/
def nextTurn (log : Log) : Nat := log.foldl (fun turn e => max turn (startedTurn e)) 0 + 1

/-- The fold of the inbox projection. -/
def foldInbox (state : InboxState) (e : LoopEvent) : InboxState :=
  if e.type = "agent/inbox/spliced" then applyInboxSplice state e.data else state

/-- `inbox_.state_of`. -/
def inboxOf (log : Log) : InboxState := log.foldl foldInbox {}

@[simp] theorem startedTurn_turnStart (turn : Nat) : startedTurn (.turnStart turn) = turn := by
  simp [startedTurn, LoopEvent.type, LoopEvent.data]

theorem startedTurn_of_type {e : LoopEvent} (h : e.type ≠ "turn/start") : startedTurn e = 0 :=
  if_neg h

theorem nextTurn_concat (log : Log) (e : LoopEvent) :
    nextTurn (log ++ [e]) = max (nextTurn log) (startedTurn e + 1) := by
  simp only [nextTurn, List.foldl_append, List.foldl_cons, List.foldl_nil]
  omega

theorem inboxOf_concat (log : Log) (e : LoopEvent) : inboxOf (log ++ [e]) = foldInbox (inboxOf log) e := by
  simp [inboxOf]

@[simp] theorem foldInbox_spliced (state : InboxState) (data : Json) :
    foldInbox state (.inboxSpliced data) = applyInboxSplice state data := by
  simp [foldInbox, LoopEvent.type, LoopEvent.data]

theorem foldInbox_of_type {state : InboxState} {e : LoopEvent} (h : e.type ≠ "agent/inbox/spliced") :
    foldInbox state e = state := if_neg h

end Araya.Agent
