import Araya.Llm.Sse
import Araya.Subagents.Delegation

/-!
The workflow service. A worker runs the script and calls for agents; the host queues the
calls, pumps them while there is room, and each child that settles is answered and makes
room for the next. The run ends when the worker's stream does.
-/

namespace Araya.Workflow
open Llm (Bytes)

structure Config where
  nodeExecutable : String := "node"
  maxConcurrency : Nat := 4
  maxTotalAgents : Nat := 64

/-- What a caller asks for; `data` is the metadata, `stop` tells whether the token can be
stopped and whether it was. -/
structure StartRequest where
  script : String
  data : Json
  args : Json := .null
  parent : String
  maxTotalAgents : Option Nat := none
  stopPossible : Bool := false
  stopRequested : Bool := false

/-- The request for one child. -/
structure AgentRequest extends Subagents.StartRequest where
  prompt : String
  label : String

structure ChildResult where
  isError : Bool := false
  output : String := ""
  error : String := ""
  child : String := ""
  structured : Option Json := none

/-- The records of a run in the log of its parent session. -/
inductive WorkflowEvent where
  | runStart (runId name : String)
  | agentStart (runId : String) (seq : Nat) (label : Bytes) (phase : String)
  | agentEnd (runId : String) (seq : Nat) (outcome childId : String)
  | runEnd (runId stopReason : String) (agentsStarted : Nat)
  deriving DecidableEq

/-- What happened in order: the appends to the sessions, and the delegations to children. -/
inductive Entry where
  | recorded (session : String) (ev : WorkflowEvent)
  | other (session type : String) (data : Json)
  | delegated (runId : String) (seq : Nat)

inductive Progress where
  | event (ev : WorkflowEvent)
  | log (text : String)
  | phase (title : String)

/-- The transport of a worker. -/
structure Worker where
  killed : Bool := false
  sent : List Json := []

def Worker.send (w : Worker) (message : Json) : Worker :=
  if w.killed then w else { w with sent := w.sent ++ [message] }

/-- A coroutine that finishes a call; `begun` once it has asked for the child. -/
structure AgentCall where
  seq : Nat
  id : Json
  request : AgentRequest
  begun : Bool := false

structure Result where
  stopReason : String
  value : Option Json := none
  error : Option String := none
  agentsStarted : Nat := 0

/-- A run with the coroutines that work for it: `pumping` while its worker's stream is
open, `bridged` while its cancellation is. -/
structure RunState where
  id : String
  session : String
  maxTotal : Nat
  agentsStarted : Nat := 0
  nextSeq : Nat := 0
  inflight : Nat := 0
  queue : List Json := []
  stopRequested : Bool := false
  value : Option Json := none
  error : Option String := none
  done : Bool := false
  cancelled : Bool := false
  transport : Worker := {}
  pumping : Bool := true
  bridged : Bool := false
  calls : List AgentCall := []
  progress : List Progress := []
  result : Option Result := none

structure WorkflowService where
  config : Config := {}
  nextRun : Nat := 1
  runs : List RunState := []
  live : List Nat := []
  log : List Entry := []
  rejected : List Result := []

def idOf (call : Json) : Json := (call.ifObject.bind (Json.find? · "id")).getD .null

namespace RunState
variable (r : RunState)

/-- An append to the parent session and the progress of the same name. -/
def emit (ev : WorkflowEvent) (log : List Entry) : RunState × List Entry :=
  ({ r with progress := r.progress ++ [.event ev] }, log ++ [.recorded r.session ev])

def send (message : Json.Members) : RunState := { r with transport := r.transport.send (.obj message) }

def sendReply (id value : Json) : RunState :=
  r.send [("type", .str "reply"), ("id", id), ("ok", .bool true), ("value", value)]

def sendErrorReply (id : Json) (message : String) : RunState :=
  r.send [("type", .str "reply"), ("id", id), ("ok", .bool false), ("message", .str message)]

/-- What the stop callback of the caller does. -/
def cancel : RunState :=
  { r with cancelled := true, stopRequested := true, transport := { r.transport with killed := true } }

end RunState

/-! Calls -/

/-- A string that is there and not empty. -/
def route (args : Json.Members) (key : String) : Option String :=
  match Json.stringField args key with
  | some "" => none
  | given => given

/-- The request and the phase of a call, or the text of its refusal. -/
def readCall (parent : String) (call : Json) : Except String (AgentRequest × String) :=
  match (call.ifObject.bind (Json.find? · "args")).bind Json.ifObject with
  | none => .error "workflow: agent call needs an 'args' object"
  | some args =>
    let prompt := (Json.stringField args "prompt").getD ""
    if prompt = "" then .error "workflow: agent call needs a non-empty 'prompt'"
    else .ok ({
      parent
      prompt
      label := (Json.stringField args "label").getD ""
      provider := route args "provider"
      model := route args "model"
      outputSchema := Json.find? args "schema" }, (Json.stringField args "phase").getD "")

/-- The name an agent is shown under. -/
def display (request : AgentRequest) : Bytes :=
  if request.label = "" then request.prompt.toUTF8.toList.take 60 else request.label.toUTF8.toList

/-- A call leaves the queue: the agent is recorded and its coroutine spawned. -/
def startAgent (r : RunState) (log : List Entry) (id : Json) (request : AgentRequest) (phase : String) :
    RunState × List Entry :=
  let seq := r.nextSeq + 1
  let (r, log) := { r with nextSeq := seq }.emit (.agentStart r.id seq (display request) phase) log
  ({ r with inflight := r.inflight + 1, calls := r.calls ++ [⟨seq, id, request, false⟩] }, log)

/-- `pump_calls`, over the queue it has left. -/
def pumpCalls (limit : Nat) : List Json → RunState → List Entry → RunState × List Entry
  | [], r, log => ({ r with queue := [] }, log)
  | call :: queue, r, log =>
    if r.inflight < limit then
      match readCall r.session call with
      | .error message => pumpCalls limit queue (r.sendErrorReply (idOf call) message) log
      | .ok (request, phase) =>
        let (r, log) := startAgent r log (idOf call) request phase
        pumpCalls limit queue r log
    else ({ r with queue := call :: queue }, log)

def handleCall (limit : Nat) (r : RunState) (log : List Entry) (call : Json) : RunState × List Entry :=
  if r.maxTotal ≤ r.agentsStarted then
    (r.sendErrorReply (idOf call) ("workflow: agent cap of " ++ toString r.maxTotal ++ " reached"), log)
  else pumpCalls limit (r.queue ++ [call]) { r with agentsStarted := r.agentsStarted + 1 } log

/-- The text of a script's failure. -/
def failureText (error : Json) : String :=
  match (error.ifObject.bind (Json.stringField · "message")).getD "" with
  | "" => "workflow: script failed"
  | message => message

def handleDone (r : RunState) (message : Json.Members) : RunState :=
  { r with
    done := true
    error := ((Json.find? message "error").map failureText).or r.error
    value := some ((Json.find? message "value").getD .null) }

def handleMessage (limit : Nat) (r : RunState) (log : List Entry) (message : Json) : RunState × List Entry :=
  match message.ifObject with
  | none => (r, log)
  | some o =>
    match (Json.stringField o "type").getD "" with
    | "call" => handleCall limit r log message
    | "log" => ({ r with progress := r.progress ++ [.log ((Json.stringField o "text").getD "")] }, log)
    | "phase" => ({ r with progress := r.progress ++ [.phase ((Json.stringField o "title").getD "")] }, log)
    | "done" => (handleDone r o, log)
    | _ => (r, log)

/-- The answer to a call. -/
def replyOf (request : AgentRequest) (child : ChildResult) : Json :=
  if child.isError then .null
  else if request.outputSchema.isSome then child.structured.getD .null
  else .str child.output

/-- The result of a child, or of a delegation that threw. -/
def childOf : Except String ChildResult → ChildResult
  | .ok child => child
  | .error what => { isError := true, error := what }

/-- The rest of `finish_agent_call`, when its child has settled. -/
def finishCall (limit : Nat) (r : RunState) (log : List Entry) (call : AgentCall) (settled : Except String ChildResult) :
    RunState × List Entry :=
  let child := childOf settled
  let r := r.sendReply call.id (replyOf call.request child)
  let (r, log) := r.emit
    (.agentEnd r.id call.seq (if child.isError then "failed" else "completed") child.child) log
  pumpCalls limit r.queue
    { r with inflight := r.inflight - 1, calls := r.calls.filter (·.seq != call.seq) } log

/-! Runs -/

def resultOf (r : RunState) : Result :=
  if r.cancelled then { stopReason := "cancelled", agentsStarted := r.agentsStarted }
  else match r.error with
    | some error => { stopReason := "error", error, agentsStarted := r.agentsStarted }
    | none =>
      if r.done then
        { stopReason := "completed", value := some (r.value.getD .null), agentsStarted := r.agentsStarted }
      else
        { stopReason := "error", error := some "workflow: worker exited without a result",
          agentsStarted := r.agentsStarted }

/-- The end of `run_impl`, once the stream of the worker is over. -/
def endRun (r : RunState) (log : List Entry) (thrown : Option String) : RunState × List Entry :=
  let r := { r with error := thrown.or r.error, pumping := false, bridged := false, stopRequested := true }
  let result := resultOf r
  { r with result := some result }.emit (.runEnd r.id result.stopReason result.agentsStarted) log

/-- The name of a run, or the text that refuses it. -/
def checkMeta (data : Json) : Except String String :=
  let field (key : String) := (data.ifObject.bind (Json.stringField · key)).getD ""
  if field "name" = "" then .error "workflow: meta.name is required"
  else if field "description" = "" then .error "workflow: meta.description is required"
  else .ok (field "name")

def runId (n : Nat) : String := "workflow-" ++ toString n

/-- A run that was given its number, its worker booted. -/
def openRun (config : Config) (id name : String) (request : StartRequest) (log : List Entry) : RunState × List Entry :=
  let r : RunState := {
    id
    session := request.parent
    maxTotal := request.maxTotalAgents.getD config.maxTotalAgents
    bridged := request.stopPossible }
  let (r, log) := r.emit (.runStart r.id name) log
  let r := if request.stopPossible && request.stopRequested then r.cancel else r
  let boot := [("script", .str request.script), ("args", request.args), ("meta", request.data)]
  (r.send [("type", .str "boot"), ("data", .obj boot)], log)

inductive Op where
  | run (request : StartRequest) (known : Bool) (worker : Except String Bool)
  | message (run : Nat) (message : Json)
  | ended (run : Nat) (thrown : Option String)
  | delegate (run seq : Nat)
  | settle (run seq : Nat) (child : Except String ChildResult)
  | cancel (run : Nat)
  | breakPipe (run : Nat)
  | shutdown
  | append (session type : String) (data : Json)

namespace WorkflowService
variable (s : WorkflowService)

def reject (what : String) : WorkflowService :=
  { s with rejected := s.rejected ++ [{ stopReason := "error", error := some what }] }

/-- A step of one run. -/
def update (n : Nat) (step : RunState × List Entry) : WorkflowService :=
  { s with runs := s.runs.set n step.1, log := step.2 }

/-- `run_impl` up to the stream of its worker; `worker` is what the factory gives or throws. -/
def start (request : StartRequest) (known : Bool) (worker : Except String Bool) : WorkflowService :=
  if !known then s.reject ("workflow: unknown parent session '" ++ request.parent ++ "'")
  else match checkMeta request.data with
    | .error what => s.reject what
    | .ok name =>
      let drawn := { s with nextRun := s.nextRun + 1 }
      match worker with
      | .error what => drawn.reject
          ("workflow: could not start the Node runtime (\"" ++ s.config.nodeExecutable ++ "\"): " ++ what ++
            " - install Node.js or set the workflow plugin's `node_executable`")
      | .ok false => drawn.reject "workflow: no worker transport is configured"
      | .ok true =>
        let (r, log) := openRun s.config (runId s.nextRun) name request s.log
        { drawn with runs := s.runs ++ [r], live := s.live ++ [s.runs.length], log }

def kill (r : RunState) : RunState := { r with transport := { r.transport with killed := true } }

def shut : WorkflowService :=
  { s with
    runs := s.runs.zipIdx.map fun (r, n) => if s.live.contains n then kill r else r
    live := [] }

def next : Op → Option WorkflowService
  | .run request known worker => some (s.start request known worker)
  | .message n message => do
    let r ← s.runs[n]?
    if r.pumping then some (s.update n (handleMessage s.config.maxConcurrency r s.log message)) else none
  | .ended n thrown => do
    let r ← s.runs[n]?
    if r.pumping then some { s.update n (endRun r s.log thrown) with live := s.live.filter (· != n) } else none
  | .delegate n seq => do
    let r ← s.runs[n]?
    let call ← r.calls.find? (·.seq == seq)
    if call.begun then none
    else
      let begun (c : AgentCall) := if c.seq == seq then { c with begun := true } else c
      some (s.update n ({ r with calls := r.calls.map begun }, s.log ++ [.delegated r.id seq]))
  | .settle n seq child => do
    let r ← s.runs[n]?
    let call ← r.calls.find? (·.seq == seq)
    if call.begun then some (s.update n (finishCall s.config.maxConcurrency r s.log call child)) else none
  | .cancel n => do
    let r ← s.runs[n]?
    if r.bridged then some (s.update n (r.cancel, s.log)) else none
  | .breakPipe n => do
    let r ← s.runs[n]?
    some (s.update n (kill r, s.log))
  | .shutdown => some s.shut
  | .append session type data => some { s with log := s.log ++ [.other session type data] }

end WorkflowService
end Araya.Workflow
