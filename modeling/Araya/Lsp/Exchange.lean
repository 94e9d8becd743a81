import Araya.Lsp.Wire

/-!
The queries of one server on its wire. A query takes the lock, opens its document, sends its request
and closes the document; what it awaits is its point. The caller of a query may also cancel it, which
resumes it with an error where it waits and throws at what it awaits next.
-/

namespace Araya.Lsp

/-- What is written to a server; the handshake and the answers to its requests concern no document. -/
inductive LspMessage where
  | didOpen (uri : String)
  | request (uri : String)
  | didClose (uri : String)
  | other
  deriving DecidableEq

/-- How far `initialize` is: its request, its notification. -/
inductive Handshake where
  | spawned
  | requested
  | notifying (item : Nat)
  | ended
  deriving DecidableEq

/-- What a query waits for: its turn, the handshake, the write of its document, the response, the write
of the close. -/
inductive ExchangePoint where
  | locking
  | granted
  | readying
  | opening (item : Nat)
  | requesting
  | closing (item : Nat) (error : Option String)
  | ended (error : Option String)
  deriving DecidableEq

structure Exchange where
  uri : String
  point : ExchangePoint := .locking
  deriving DecidableEq

structure LspServer where
  disposed : Bool := false
  readyDone : Bool := false
  readyError : Option String := none
  locked : Bool := false
  waiters : List Nat := []
  init : Handshake := .spawned
  wire : Wire LspMessage := {}
  exchanges : List Exchange := []

namespace LspServer
variable (s : LspServer)

def setPoint (q : Nat) (point : ExchangePoint) : LspServer :=
  { s with exchanges := s.exchanges.modify q fun e => { e with point } }

def enqueue (message : LspMessage) : LspServer := { s with wire := s.wire.enqueue message }

/-- What the channel of an item was sent. -/
def sent (k : Nat) : Option (Option String) := s.wire.items[k]?.bind (·.done.head?)

/-- What `write` throws when it resumes. -/
def writeError (outcome : Option String) : Option String :=
  if outcome.isSome || s.wire.failed then
    some (if s.wire.failure.isEmpty then "lsp-stdio: write failed" else s.wire.failure)
  else none

/-- A query is sent its turn, if it still waits for it. -/
def grant (q : Nat) : LspServer :=
  { s with exchanges := s.exchanges.modify q fun e => if e.point = .locking then { e with point := .granted } else e }

def unlock : LspServer :=
  match s.waiters with
  | [] => { s with locked := false }
  | q :: waiters => { s with waiters }.grant q

def close : LspServer :=
  if s.disposed then s
  else
    let closed : LspServer := { s with
      disposed := true
      readyDone := true
      readyError := if s.readyDone then s.readyError else some "LSP instance was disposed"
      wire := s.wire.close
      waiters := [] }
    s.waiters.foldl grant closed

/-- The end of a query that holds the lock, with what it throws. -/
def finish (q : Nat) (error : Option String) : LspServer := (s.setPoint q (.ended error)).unlock

def afterReady (q : Nat) (uri : String) (env : Env) : LspServer :=
  match s.readyError with
  | some what => s.finish q (some what)
  | none =>
    if s.disposed then s.finish q (some "LSP instance was disposed")
    else match env.unsupported with
      | some what => s.finish q (some what)
      | none => (s.enqueue (.didOpen uri)).setPoint q (.opening s.wire.items.length)

def enterReady (q : Nat) (uri : String) (env : Env) : LspServer :=
  if s.disposed then s.finish q (some "LSP instance was disposed")
  else if env.stopped then s.finish q (some "LSP query was cancelled")
  else if s.readyDone then s.afterReady q uri env
  else s.setPoint q .readying

/-- A query begins. -/
def query (uri : String) (env : Env) : LspServer :=
  let q := s.exchanges.length
  if s.disposed then s
  else if s.locked then { s with exchanges := s.exchanges ++ [{ uri }], waiters := s.waiters ++ [q] }
  else
    let locked : LspServer := { s with exchanges := s.exchanges ++ [{ uri, point := .granted }], locked := true }
    locked.enterReady q uri env

/-- The request is over: the document is closed if the server is still there. -/
def exchanged (q : Nat) (uri : String) (error : Option String) : LspServer :=
  if s.disposed || s.wire.failed then s.finish q error
  else (s.enqueue (.didClose uri)).setPoint q (.closing s.wire.items.length error)

/-- The document was opened. The write of the request is spawned; it runs before what resumes the query. -/
def opened (q : Nat) (uri : String) (env : Env) : LspServer :=
  if env.stopped then s.exchanged q uri (some "LSP query was cancelled")
  else (s.enqueue (.request uri)).setPoint q .requesting

/-- A query that awaits something is resumed. -/
def resume (q : Nat) (env : Env) : Option LspServer := do
  let e ← s.exchanges[q]?
  match e.point with
  | .granted =>
    some (if s.disposed then s.setPoint q (.ended (some "LSP instance was disposed")) else s.enterReady q e.uri env)
  | .readying => if s.readyDone then some (s.afterReady q e.uri env) else none
  | .opening item =>
    let outcome ← s.sent item
    match s.writeError outcome with
    | some what => some (s.finish q (some what))
    | none => some (s.opened q e.uri env)
  | .closing item error =>
    let outcome ← s.sent item
    some (if (s.writeError outcome).isSome then s.close.finish q error else s.finish q error)
  | _ => none

/-- The response came, the request timed out, or its token was stopped. -/
def answered (q : Nat) (failure : Option String) : Option LspServer := do
  let e ← s.exchanges[q]?
  if e.point = .requesting then some (s.exchanged q e.uri failure) else none

/-- A query fails inside its exchange while it is being cancelled: the close cannot be sent. -/
def torn (q : Nat) : LspServer :=
  (if s.disposed || s.wire.failed then s else s.close).finish q (some "operation aborted")

/-- The caller gives a query up. -/
def cancel (q : Nat) : Option LspServer := do
  let e ← s.exchanges[q]?
  match e.point with
  | .locking => some (s.finish q (some "operation aborted"))
  | .granted =>
    some (if s.disposed then s.setPoint q (.ended (some "LSP instance was disposed"))
      else s.finish q (some "operation aborted"))
  | .readying =>
    some (s.finish q (some (if s.readyDone then s.readyError.getD "operation aborted"
      else "LSP instance closed before initialization")))
  | .opening item =>
    match s.sent item with
    | some none => some (if s.wire.failed then s.finish q (s.writeError none) else s.torn q)
    | _ => some (s.finish q (some "lsp-stdio: write failed"))
  | .requesting => some (s.torn q)
  | .closing item error =>
    match s.sent item with
    | some none => some (if s.wire.failed then s.close.finish q error else s.finish q error)
    | _ => some (s.close.finish q error)
  | .ended _ => none

/-! The handshake -/

def settled (error : Option String) : LspServer := { s with init := .ended, readyDone := true, readyError := error }

/-- The process is launched and asked to initialize. -/
def launched (launch : Option String) : LspServer :=
  match launch with
  | some what => s.settled (some what)
  | none =>
    if s.wire.failed then s.settled (some s.wire.failure)
    else { s.enqueue .other with init := .requested }

def initialized (failure : Option String) : LspServer :=
  match failure with
  | some what => s.settled (some what)
  | none => { s.enqueue .other with init := .notifying s.wire.items.length }

end LspServer

inductive ServeOp where
  | query (uri : String) (env : Env)
  | resume (q : Nat) (env : Env)
  | answered (q : Nat) (failure : Option String)
  | cancel (q : Nat)
  | launch (failure : Option String)
  | initialized (failure : Option String)
  | notified
  | answerServer
  | drain (failure : Option String)
  | lose (reason : String) (malformed : Bool)
  | close

def LspServer.next (s : LspServer) : ServeOp → Option LspServer
  | .query uri env => some (s.query uri env)
  | .resume q env => s.resume q env
  | .answered q failure => s.answered q failure
  | .cancel q => s.cancel q
  | .launch failure => if s.init = .spawned then some (s.launched failure) else none
  | .initialized failure => if s.init = .requested then some (s.initialized failure) else none
  | .notified =>
    match s.init with
    | .notifying item => (s.sent item).map fun outcome => s.settled (s.writeError outcome)
    | _ => none
  | .answerServer => some (s.enqueue .other)
  | .drain failure => (s.wire.drains failure).map fun wire => { s with wire }
  | .lose reason malformed =>
    let failed := s.wire.fail reason
    some { s with wire := if malformed then failed.close else failed }
  | .close => some s.close

end Araya.Lsp
