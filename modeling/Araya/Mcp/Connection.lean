import Araya.Mcp.Swap
import Araya.Util.Sorted
import Araya.Util.Strings

/-!
The connection to a server. A supervisor opens a session, shakes hands, discovers the tools and
then waits for signals; the reader of the session hands responses to the requests that wait for
them and raises the signals. Both write the same flags and the same one-slot channel.
-/

namespace Araya.Mcp

structure ReconnectConfig where
  enabled : Bool := true
  initialDelayMs : Nat := 1000
  maxDelayMs : Nat := 30000
  maxAttempts : Nat := 5

structure ServerConfig where
  name : String := ""
  transport : String := "local"
  reconnect : ReconnectConfig := {}
  maxInstructionBytes : Nat := 65536

/-- The transport of a session, with what was written to it. -/
structure MessageChannel where
  closed : Bool := false
  written : List Json := []

def MessageChannel.write (ch : MessageChannel) (message : Json) : MessageChannel :=
  if ch.closed then ch else { ch with written := ch.written ++ [message] }

structure RpcResponse where
  isError : Bool
  value : Json

/-- A decoded frame. -/
structure Inbound where
  id : Option String := none
  method : Option String := none
  isError : Bool := false
  result : Json := .null
  error : Json := .null

def Inbound.response (m : Inbound) : RpcResponse := ⟨m.isError, if m.isError then m.error else m.result⟩

/-- A request that was sent: what its channel was given by which frame, and what it ended with. -/
structure RpcRequest where
  id : Nat
  method : String
  closed : Bool := false
  slot : Option (Nat × RpcResponse) := none
  outcome : Option (Except String Json) := none

/-- Where the supervisor is suspended: on the request of its handshake or of a page, on the signal,
in a delay. `woken` has received a signal and not run yet. -/
inductive RunPoint where
  | idle
  | spawned
  | handshake (request : Nat)
  | discover (request : Nat) (tools : List McpTool) (first : Bool)
  | waiting
  | woken
  | delayed (milliseconds : Nat)
  | ended

/-- `readers` are the reader coroutines that live, each with whether it has begun; `frames` is what
they read. `attempt` and `error` are locals of the supervisor. -/
structure ServerConnection where
  config : ServerConfig := {}
  channel : Option MessageChannel := none
  nextId : Nat := 1
  pending : SortedMap String Nat := ∅
  requests : List RpcRequest := []
  instructions : String := ""
  toolNames : List String := []
  supportsTools : Bool := false
  stopped : Bool := false
  ready : Option (Option String) := none
  wake : Bool := false
  sessionLost : Bool := false
  resyncQueued : Bool := false
  run : RunPoint := .idle
  attempt : Nat := 0
  error : Option String := none
  readers : List Bool := []
  frames : List Inbound := []

/-- What the launch of a transport and the two callbacks of the observer throw. -/
structure Env where
  launch : Option String := none
  onInstructions : Option String := none
  onTools : Option String := none

/-! Frames -/

section
variable (double : UInt64 → List Char)

def serialize (v : Json) : String := String.ofList (Json.render double v)

def decode (frame : Json) : Option Inbound :=
  frame.ifObject.bind fun o =>
    let id := (Json.find? o "id").bind fun id => match id with
      | .null => none
      | id => some (serialize double id)
    let method := Json.stringField o "method"
    if id.isNone && method.isNone then none
    else some {
      id
      method
      isError := (Json.find? o "error").isSome
      error := (Json.find? o "error").getD .null
      result := (Json.find? o "result").getD .null }

def codeText : Option Json → String
  | some (.int n) => toString n
  | some (.uint n) => toString n
  | _ => ""

def errorText (error : Json) : String :=
  let fields := error.ifObject.getD []
  let code := codeText (Json.find? fields "code")
  let text := match Json.stringField fields "message" with
    | none => code
    | some message => if code.isEmpty then message else code ++ ": " ++ message
  if text.isEmpty then serialize double error else text

end

def makeRequest (id : Nat) (method : String) (params : Json) : Json :=
  .obj ([("jsonrpc", .str "2.0"), ("id", .int id), ("method", .str method)] ++
    match params with
    | .null => []
    | params => [("params", params)])

def initialized : Json := .obj [("jsonrpc", .str "2.0"), ("method", .str "notifications/initialized")]

/-! The delay between attempts -/

def doubled (limit : Nat) : Nat → Nat → Nat
  | 0, delay => delay
  | n + 1, delay => if delay < limit then doubled limit n (delay * 2 % 2 ^ 64) else delay

def backoffMs (policy : ReconnectConfig) (attempt : Nat) : Nat :=
  min (doubled policy.maxDelayMs (attempt - 1) policy.initialDelayMs) policy.maxDelayMs

namespace ServerConnection
variable (c : ServerConnection)

/-- `try_send` on the signal channel: it completes a receive that waits, or fills the slot. -/
def signal : ServerConnection :=
  match c.run with
  | .waiting => { c with run := .woken }
  | _ => { c with wake := true }

def write (message : Json) : ServerConnection := { c with channel := c.channel.map (·.write message) }

def closeChannel : ServerConnection := { c with channel := c.channel.map fun ch => { ch with closed := true } }

def setRequest (k : Nat) (f : RpcRequest → RpcRequest) : ServerConnection := { c with requests := c.requests.modify k f }

/-- `request` up to its wait, with the index of the request. -/
def send (method : String) (params : Json) : Except String (ServerConnection × Nat) :=
  if c.stopped || c.channel.isNone then .error ("mcp: server '" ++ c.config.name ++ "' is not connected")
  else
    let c' := { c with
      nextId := c.nextId + 1
      pending := c.pending.insert (toString c.nextId) c.requests.length
      requests := c.requests ++ [{ id := c.nextId, method : RpcRequest }] }
    .ok (c'.write (makeRequest c.nextId method params), c.requests.length)

def failPending : ServerConnection :=
  { c with
    requests := (c.pending.toList.map (·.2)).foldl (fun rs k => rs.modify k fun r => { r with closed := true }) c.requests
    pending := ∅ }

/-! The supervisor -/

/-- The end of `run`. -/
def leave : ServerConnection := { c with stopped := true, channel := none, run := .ended }

/-- The receive on the signal channel. -/
def wait : ServerConnection :=
  if c.wake then { c with wake := false, run := .woken } else { c with run := .waiting }

/-- What follows the handshake and the discovery of a session. -/
def settle (error : Option String) : ServerConnection :=
  let c := { c with error, ready := c.ready.or (some error) }
  (if error.isSome then c.failPending else c).wait

/-- The end of a discovery: the first one belongs to the connection, the others keep what they threw. -/
def discovered (first : Bool) (error : Option String) : ServerConnection := if first then c.settle error else c.wait

def listTools (tools : List McpTool) (cursor : String) (first : Bool) : ServerConnection :=
  match c.send "tools/list" (.obj (if cursor.isEmpty then [] else [("cursor", .str cursor)])) with
  | .error what => c.discovered first (some what)
  | .ok (c, k) => { c with run := .discover k tools first }

def publish (env : Env) (tools : List McpTool) (first : Bool) : ServerConnection :=
  let c : ServerConnection := { c with toolNames := tools.map McpTool.name }
  c.discovered first env.onTools

def discover (env : Env) (first : Bool) : ServerConnection :=
  if c.supportsTools then c.listTools [] "" first else c.publish env [] first

def page (env : Env) (tools : List McpTool) (first : Bool) : Except String Json → ServerConnection
  | .error what => c.discovered first (some what)
  | .ok result =>
    let (more, cursor) := parsePage result
    if cursor.isEmpty then c.publish env (tools ++ more) first else c.listTools (tools ++ more) cursor first

/-- What an `initialize` result says. -/
def read (result : Json) : ServerConnection :=
  let fields := result.ifObject.getD []
  { c with
    instructions := (Json.stringField fields "instructions").getD c.instructions
    supportsTools := ((Json.objectField fields "capabilities").map fun o => (Json.find? o "tools").isSome).getD c.supportsTools }

def greeted (env : Env) : Except String Json → ServerConnection
  | .error what => c.settle (some what)
  | .ok result =>
    let c := c.read result
    if c.config.maxInstructionBytes < c.instructions.utf8ByteSize then
      c.settle (some ("mcp: server '" ++ c.config.name ++ "' instructions exceed maxInstructionBytes (" ++
        toString c.config.maxInstructionBytes ++ ")"))
    else match env.onInstructions with
      | some what => c.settle (some what)
      | none => (c.write initialized).discover env true

/-- What `open_session` throws. -/
def refusal (env : Env) : Option String :=
  if c.stopped then some "mcp: connection stopped"
  else if c.config.transport = "local" ∨ c.config.transport = "remote" then env.launch
  else some ("mcp: server '" ++ c.config.name ++ "' has unknown type '" ++ c.config.transport ++ "'")

def opened : ServerConnection :=
  { c with
    channel := some {}
    toolNames := []
    instructions := ""
    sessionLost := false
    resyncQueued := false
    wake := false
    error := none
    readers := c.readers ++ [false] }

def clientParams : Json :=
  .obj [("protocolVersion", .str "2025-06-18"), ("capabilities", .obj []),
    ("clientInfo", .obj [("name", .str "araya"), ("version", .str "1.0")])]

def later (attempt : Nat) : ServerConnection :=
  { c with attempt, run := .delayed (backoffMs c.config.reconnect attempt) }

/-- An attempt that could not open a session. -/
def unopened (what : String) : ServerConnection :=
  let c := { c with error := some what, ready := c.ready.or (some (some what)) }.failPending
  if c.stopped || !c.config.reconnect.enabled then c.leave
  else if c.config.reconnect.maxAttempts ≤ c.attempt + 1 then c.leave
  else c.later (c.attempt + 1)

/-- One round of `run`, up to where it is suspended. -/
def connect (env : Env) : ServerConnection :=
  match c.refusal env with
  | some what => c.unopened what
  | none =>
    match c.opened.send "initialize" clientParams with
    | .error what => c.opened.settle (some what)
    | .ok (c, k) => { c with run := .handshake k }

/-- The session is over, or the connection stopped. -/
def lose : ServerConnection :=
  if c.stopped then c.leave
  else
    let c := c.failPending.closeChannel
    if !c.config.reconnect.enabled then c.leave
    else if c.error.isSome then
      if c.config.reconnect.maxAttempts ≤ c.attempt + 1 then c.leave else c.later (c.attempt + 1)
    else c.later 1

/-- The supervisor has received a signal. -/
def woke (env : Env) : ServerConnection :=
  if c.stopped || c.sessionLost then c.lose
  else if c.resyncQueued then { c with resyncQueued := false }.discover env false
  else c.wait

/-! The reader -/

/-- The end of a reader. -/
def readerEnds (i : Nat) : ServerConnection := { c with readers := c.readers.eraseIdx i, sessionLost := true }.signal

/-- The reader goes on, or sees that the connection is stopped. -/
def readerLoops (i : Nat) : ServerConnection := if c.stopped then c.readerEnds i else { c with readers := c.readers.set i true }

/-- A response goes to the request that waits for its id, and to no other. -/
def deliver (m : Inbound) (id : String) : ServerConnection :=
  match c.pending.find? id with
  | none => c
  | some k =>
    { c with pending := c.pending.erase id }.setRequest k fun r => { r with slot := some (c.frames.length, m.response) }

def dispatch (m : Inbound) : ServerConnection :=
  match m.id, m.method with
  | some id, none => c.deliver m id
  | none, some "notifications/tools/list_changed" => { c with resyncQueued := true }.signal
  | _, _ => c

/-- A frame is handled; `none` is one that could not be decoded. -/
def handle : Option Inbound → ServerConnection
  | none => c
  | some m => { c.dispatch m with frames := c.frames ++ [m] }

/-! Requests -/

/-- The end of a request, with what it returns or throws. -/
def close (k : Nat) (r : RpcRequest) (outcome : Except String Json) : ServerConnection :=
  { c with pending := c.pending.erase (toString r.id) }.setRequest k fun r => { r with outcome := some outcome }

/-- The supervisor goes on when the request was its own. -/
def resumed (k : Nat) (outcome : Except String Json) (env : Env) : ServerConnection :=
  match c.run with
  | .handshake k' => if k = k' then c.greeted env outcome else c
  | .discover k' tools first => if k = k' then c.page env tools first outcome else c
  | _ => c

end ServerConnection

inductive Op where
  | start
  | resume (env : Env)
  | tick (env : Env)
  | stop
  | call (method : String) (params : Json) (stopped : Bool)
  | cancel (k : Nat)
  | complete (k : Nat) (env : Env)
  | fail (k : Nat) (what : String) (env : Env)
  | begin (reader : Nat)
  | frame (reader : Nat) (text : Option Json)
  | eof (reader : Nat)

namespace ServerConnection
variable (double : UInt64 → List Char) (c : ServerConnection)

/-- What a request returns for the response that it was given. -/
def returned (r : RpcResponse) : Except String Json :=
  if r.isError then .error ("mcp: server '" ++ c.config.name ++ "' error: " ++ errorText double r.value) else .ok r.value

/-- A request that waits. -/
def open? (k : Nat) : Option RpcRequest := c.requests[k]?.filter (·.outcome.isNone)

def next : Op → Option ServerConnection
  | .start =>
    match c.run with
    | .idle => some { c with run := .spawned }
    | _ => none
  | .resume env =>
    match c.run with
    | .spawned => some (c.connect env)
    | .woken => some (c.woke env)
    | _ => none
  | .tick env =>
    match c.run with
    | .delayed milliseconds =>
      let left := milliseconds - min milliseconds 100
      if left = 0 || c.stopped then some (c.connect env) else some { c with run := .delayed left }
    | _ => none
  | .stop => some { c with stopped := true }.closeChannel
  | .call method params stopped =>
    if stopped then some c
    else match c.send method params with
      | .error _ => some c
      | .ok (c, _) => some c
  | .cancel k => (c.open? k).map fun _ => c.setRequest k fun r => { r with closed := true }
  | .complete k env => do
    let r ← c.open? k
    let (_, response) ← r.slot
    some ((c.close k r (c.returned double response)).resumed k (c.returned double response) env)
  | .fail k what env => (c.open? k).map fun r => (c.close k r (.error what)).resumed k (.error what) env
  | .begin i => if c.readers[i]? = some false then some (c.readerLoops i) else none
  | .frame i text => if c.readers[i]? = some true then some ((c.handle (text.bind (decode double))).readerLoops i) else none
  | .eof i => if c.readers[i]? = some true then some (c.readerEnds i) else none

end ServerConnection
end Araya.Mcp
