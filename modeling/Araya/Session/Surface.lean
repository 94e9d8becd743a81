import Araya.Util.Json
import Araya.Util.Sorted

/-!
Sessions and their surface: the events of a log, the messages folded from them,
and the splice that `surface/replace` makes. Time stamps are Unix milliseconds;
sequence numbers and int64 coordinates are unbounded here, since no log comes
near the range of either.
-/

namespace Araya.Sessions

abbrev SessionId := String

inductive Origin where
  | none
  | subagent
  deriving DecidableEq, Repr

def SESSION_FORMAT_VERSION : Nat := 1

/-- The header of a session. Its version is the one of this format. -/
structure Header where
  id : SessionId
  createdAt : Int := 0
  cwd : Option String := none
  parentSession : Option SessionId := none
  isSeeded : Bool := false
  delegationDepth : UInt32 := 0
  origin : Origin := .none
  agentPreset : Option String := none
  deriving DecidableEq, Repr

structure Event where
  seq : Nat := 0
  time : Int := 0
  type : String
  data : Json
  ignorable : Bool := false

inductive MessageRole where
  | system
  | user
  | assistant
  | toolResult
  deriving DecidableEq, Repr

structure Message where
  role : MessageRole := .user
  id : String
  content : Json
  toolCallId : Option String := none
  sourcePlugin : Option String := none
  source : Option Json := none

def isBuiltinSurfaceType (type : String) : Bool :=
  type == "system/message" || type == "user/message" || type == "assistant/message" ||
    type == "tool/result" || type == "surface/replace"

/-! The surface -/

structure Surface where
  messages : List Message := []
  sourceSeqs : List Nat := []
  generation : Nat := 0

namespace Surface

def push (s : Surface) (sourceSeq : Nat) (msg : Message) : Surface :=
  { s with messages := s.messages ++ [msg], sourceSeqs := s.sourceSeqs ++ [sourceSeq] }

/-- The nodes outside a span, with the number of them before its first node. -/
def outside (start stop : Nat) : List (Message × Nat) → Nat → List (Message × Nat) × Option Nat
  | [], _ => ([], none)
  | n :: ns, write =>
    if start ≤ n.2 ∧ n.2 < stop then ((outside start stop ns write).1, some write)
    else
      let rest := outside start stop ns (write + 1)
      (n :: rest.1, rest.2)

/-- `replace`: the span goes, and its replacement takes its place, or the tail's
when nothing matched. -/
def replace (s : Surface) (start stop sourceSeq : Nat) (msg : Option Message) : Surface :=
  let rest := outside start stop (s.messages.zip s.sourceSeqs) 0
  let generation := if rest.2.isSome || msg.isSome then s.generation + 1 else s.generation
  let nodes := match msg with
    | none => rest.1
    | some m => rest.1.insertIdx (rest.2.getD rest.1.length) (m, sourceSeq)
  { messages := nodes.map Prod.fst, sourceSeqs := nodes.map Prod.snd, generation }

end Surface

/-! Folding an event -/

inductive SurfacePlan where
  | none
  | append (message : Message)
  | replace (start stop : Nat) (message : Option Message)

/-- `user/message` and `tool/result` are the message; the others wrap it. -/
def messageObject (ev : Event) : Option Json.Members :=
  ev.data.ifObject.bind fun o =>
    if ev.type = "user/message" ∨ ev.type = "tool/result" then some o
    else Json.objectField o "message"

def parseRole (role : String) : Option MessageRole :=
  if role = "user" then some .user
  else if role = "assistant" then some .assistant
  else if role = "system" then some .system
  else if role = "tool_result" then some .toolResult
  else none

def sourcePlugin (o : Json.Members) : Option String :=
  (Json.objectField o "source").bind fun src => Json.stringField src "plugin"

/-- The message under an `id` and a `content`. -/
def plainMessage (role : MessageRole) (o : Json.Members) (toolCallId plugin : Option String) :
    Option Message :=
  (Json.stringField o "id").bind fun id =>
    (Json.find? o "content").map fun content =>
      { role, id, content, toolCallId, sourcePlugin := plugin, source := Json.find? o "source" }

def appendPlan : Option Message → SurfacePlan
  | none => .none
  | some m => .append m

/-- The tool call that the first block of a content answers. -/
def answeredCall (o : Json.Members) : Option String :=
  (Json.arrayField o "content").bind fun content =>
    content.head?.bind fun block =>
      block.ifObject.bind fun b => Json.stringField b "tool_call_id"

def replacement (o : Json.Members) : Option Message :=
  (Json.objectField o "message").bind fun msg =>
    (Json.stringField msg "role").bind fun role =>
      (parseRole role).bind fun parsed => plainMessage parsed msg none (sourcePlugin msg)

/-- The cast of an int64 coordinate to a sequence number. -/
def toSeq (n : Int) : Nat := (n % 2 ^ 64).toNat

def foldReplace (o : Json.Members) : SurfacePlan :=
  match Json.intField o "start_seq", Json.intField o "end_seq" with
  | some start, some stop => .replace (toSeq start) (toSeq stop) (replacement o)
  | _, _ => .none

def foldBuiltin (ev : Event) : SurfacePlan :=
  if ev.type = "user/message" then
    appendPlan ((messageObject ev).bind fun o => plainMessage .user o none none)
  else if ev.type = "assistant/message" then
    appendPlan ((messageObject ev).bind fun o => plainMessage .assistant o none none)
  else if ev.type = "system/message" then
    appendPlan ((messageObject ev).bind fun o => plainMessage .system o none (sourcePlugin o))
  else if ev.type = "tool/result" then
    appendPlan ((messageObject ev).bind fun o =>
      (answeredCall o).bind fun call => plainMessage .toolResult o (some call) none)
  else if ev.type = "surface/replace" then
    match ev.data.ifObject with
    | some o => foldReplace o
    | none => .none
  else .none

/-- A registered interpreter of one event type; it may throw. -/
structure MessageProjection where
  eventType : String
  fold : Event → Except String (Option Message)

/-- `fold_event`: the first projection of the type wins over the built-in fold. -/
def foldEvent (ev : Event) (projections : List MessageProjection) : Except String SurfacePlan :=
  match projections.find? fun p => p.eventType == ev.type with
  | some p => (p.fold ev).map appendPlan
  | none => .ok (foldBuiltin ev)

def Surface.apply (s : Surface) (seq : Nat) : SurfacePlan → Surface
  | .none => s
  | .append m => s.push seq m
  | .replace start stop msg => s.replace start stop seq msg

end Araya.Sessions
