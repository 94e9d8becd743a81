import Araya.Util.Machine
import Araya.Util.Sorted
import Mathlib.Data.String.Basic

/-!
The pool of language servers. A provider keeps one instance for each workspace; queries take
turns on it, and a query whose instance died under it is retried once on a fresh one. What a
query waits for is its point; the process, its answers and its failures are the environment.
-/

namespace Araya.Lsp

/-- The endpoint of a server; `running` while it owns a process that lives. -/
structure LspConnection where
  closed : Bool := false
  failed : Bool := false
  running : Bool := false

/-- How far the initialize handshake is. -/
inductive InitPoint where
  | spawned
  | requested
  | ended
  deriving DecidableEq

/-- A server for a workspace. `waiters` are the queries that wait for their turn; `late` and
`lateStart` are histories: created, and its process launched, when the provider was disposed. -/
structure LspInstance where
  key : String
  disposed : Bool := false
  readyDone : Bool := false
  readyError : Option String := none
  locked : Bool := false
  waiters : List Nat := []
  connection : LspConnection := {}
  init : InitPoint := .spawned
  late : Bool := false
  lateStart : Bool := false

/-- What a query waits for: its turn, the handshake, the three messages of its exchange. -/
inductive QueryPoint where
  | locking
  | granted
  | readying
  | opening
  | requesting
  | closing (error : Option String)
  | ended (error : Option String)
  deriving DecidableEq

structure Query where
  key : String
  target : Nat
  retried : Bool := false
  point : QueryPoint := .locking

/-- The instances are kept in `pool` when they leave the map. -/
structure LspProvider where
  disposed : Bool := false
  instances : SortedMap String Nat := ∅
  pool : List LspInstance := []
  queries : List Query := []

/-- The stop token of a query, and the text of a missing capability. -/
structure Env where
  stopped : Bool := false
  unsupported : Option String := none

def LspConnection.close (c : LspConnection) : LspConnection :=
  if c.closed then c else { c with closed := true, running := false }

namespace LspInstance
variable (inst : LspInstance)

def dead : Bool := inst.disposed || inst.connection.failed

/-- `close`, of an instance that was not closed before. -/
def shut : LspInstance :=
  { inst with
    disposed := true
    readyDone := true
    readyError := if inst.readyDone then inst.readyError else some "LSP instance was disposed"
    connection := inst.connection.close
    waiters := [] }

/-- What a holder of the lock leaves to the next. -/
def unlock : LspInstance :=
  match inst.waiters with
  | [] => { inst with locked := false }
  | _ :: waiters => { inst with waiters }

end LspInstance

namespace LspProvider
variable (p : LspProvider)

def setPoint (q : Nat) (point : QueryPoint) : LspProvider :=
  { p with queries := p.queries.modify q fun query => { query with point } }

def setInstance (i : Nat) (f : LspInstance → LspInstance) : LspProvider := { p with pool := p.pool.modify i f }

/-- The waiters of an instance are sent their turn. -/
def grant (waiters : List Nat) : LspProvider := waiters.foldl (fun p q => p.setPoint q .granted) p

def close (i : Nat) : LspProvider :=
  match p.pool[i]? with
  | none => p
  | some inst => if inst.disposed then p else (p.setInstance i .shut).grant inst.waiters

def unlock (i : Nat) : LspProvider :=
  match p.pool[i]? with
  | none => p
  | some inst => (p.setInstance i .unlock).grant (inst.waiters.take 1)

/-- `instance_for`, with the index of the instance. -/
def instanceFor (key : String) : LspProvider × Nat :=
  match p.instances.find? key with
  | some i => (p, i)
  | none =>
    ({ p with
      instances := p.instances.insert key p.pool.length
      pool := p.pool ++ [{ key, late := p.disposed }] }, p.pool.length)

/-! The stages of a query on its instance; the text is what it throws -/

def fail (i : Nat) (what : String) : LspProvider × Option String := (p.unlock i, some what)

def afterReady (q i : Nat) (inst : LspInstance) (env : Env) : LspProvider × Option String :=
  match inst.readyError with
  | some what => p.fail i what
  | none =>
    if inst.disposed then p.fail i "LSP instance was disposed"
    else match env.unsupported with
      | some what => p.fail i what
      | none => (p.setPoint q .opening, none)

def enterReady (q i : Nat) (inst : LspInstance) (env : Env) : LspProvider × Option String :=
  if inst.disposed then p.fail i "LSP instance was disposed"
  else if env.stopped then p.fail i "LSP query was cancelled"
  else if inst.readyDone then p.afterReady q i inst env
  else (p.setPoint q .readying, none)

/-- The start of a query on an instance. -/
def enter (q i : Nat) (inst : LspInstance) (env : Env) : LspProvider × Option String :=
  if inst.disposed then (p, some "LSP instance was disposed")
  else if inst.locked then
    ((p.setInstance i fun inst => { inst with waiters := inst.waiters ++ [q] }).setPoint q .locking, none)
  else (p.setInstance i fun inst => { inst with locked := true }).enterReady q i { inst with locked := true } env

/-- The end of a query on its instance. -/
def finish (q i : Nat) (error : Option String) : LspProvider × Option String :=
  match error with
  | some what => p.fail i what
  | none => ((p.unlock i).setPoint q (.ended none), none)

/-- The request is over: the document is closed if the server is still there. -/
def exchanged (q i : Nat) (inst : LspInstance) (error : Option String) : LspProvider × Option String :=
  if inst.dead then p.finish q i error else (p.setPoint q (.closing error), none)

end LspProvider

inductive Op where
  | query (prepared : Except String String) (env : Env)
  | locked (q : Nat) (env : Env)
  | ready (q : Nat) (env : Env)
  | opened (q : Nat) (failure : Option String) (env : Env)
  | answered (q : Nat) (failure : Option String) (env : Env)
  | closed (q : Nat) (failure : Option String) (env : Env)
  | dispose
  | init (i : Nat) (launch : Option String)
  | initialized (i : Nat) (failure : Option String)
  | lose (i : Nat) (malformed : Bool)
  | exit (i : Nat)

namespace LspProvider
variable (p : LspProvider)

/-- A query at one of its points, with its instance. -/
def at_ (q : Nat) (point : QueryPoint) : Option (Query × LspInstance) := do
  let query ← p.queries[q]?
  let inst ← p.pool[query.target]?
  if query.point = point then some (query, inst) else none

/-- A query that was at `closing`. -/
def closing (q : Nat) : Option (Query × Option String) := do
  let query ← p.queries[q]?
  match query.point with
  | .closing error => some (query, error)
  | _ => none

/-- A new query takes the instance of its workspace. -/
def ask (key : String) (env : Env) : Option (Nat × LspProvider × Option String) :=
  let found := p.instanceFor key
  let asked : LspProvider := { found.1 with queries := p.queries ++ [{ key, target := found.2 }] }
  found.1.pool[found.2]?.map fun inst => (p.queries.length, asked.enter p.queries.length found.2 inst env)

/-- What resumes a query that waits, and where its instance takes it or the text it throws. -/
def resume : Op → Option (Nat × LspProvider × Option String)
  | .locked q env => do
    let (query, inst) ← p.at_ q .granted
    if inst.disposed then some (q, p, some "LSP instance was disposed")
    else some (q, p.enterReady q query.target inst env)
  | .ready q env => do
    let (query, inst) ← p.at_ q .readying
    if inst.readyDone then some (q, p.afterReady q query.target inst env) else none
  | .opened q failure env => do
    let (query, inst) ← p.at_ q .opening
    match failure with
    | some what => some (q, p.fail query.target what)
    | none =>
      if inst.connection.failed then some (q, p.exchanged q query.target inst (some "lsp-stdio: connection failed"))
      else if env.stopped then some (q, p.exchanged q query.target inst (some "LSP query was cancelled"))
      else some (q, p.setPoint q .requesting, none)
  | .answered q failure _ => do
    let (query, inst) ← p.at_ q .requesting
    some (q, p.exchanged q query.target inst failure)
  | .closed q failure _ => do
    let (query, error) ← p.closing q
    let p' := if failure.isSome then p.close query.target else p
    some (q, p'.finish q query.target error)
  | _ => none

/-- The token of the query that an operation resumes. -/
def envOf : Op → Env
  | .locked _ env | .ready _ env | .opened _ _ env | .answered _ _ env | .closed _ _ env => env
  | _ => {}

/-- A query is tried again when its instance is dead and this was the first. -/
def retries (query : Query) : Bool := !query.retried && p.pool[query.target]?.any (·.dead)

/-- The map without the entry that the second try replaces. -/
def forget (query : Query) : LspProvider :=
  let p := p.close query.target
  { p with instances := p.instances.erase query.key }

/-- The second try, on a fresh instance. -/
def retry (q : Nat) (query : Query) (env : Env) : LspProvider × Option String :=
  let found := (p.forget query).instanceFor query.key
  let query := { query with target := found.2, retried := true, point := .locking }
  let again : LspProvider := { found.1 with queries := found.1.queries.set q query }
  match found.1.pool[found.2]? with
  | none => (again, none)
  | some inst => again.enter q found.2 inst env

/-- A query that is over before it has an instance. -/
def refuse (what : String) : LspProvider :=
  { p with queries := p.queries ++ [{ key := "", target := 0, point := .ended (some what) }] }

/-- What the provider does with what a query threw. -/
def caught (q : Nat) (env : Env) : Option String → LspProvider
  | none => p
  | some what =>
    match p.queries[q]? with
    | none => p
    | some query =>
      if p.retries query then
        match p.retry q query env with
        | (p, some what) => p.setPoint q (.ended (some what))
        | (p, none) => p
      else p.setPoint q (.ended (some what))

/-- Every instance of the map is closed. -/
def dispose : LspProvider :=
  { p.instances.toList.foldl (fun p e => p.close e.2) { p with disposed := true } with instances := ∅ }

/-- A step of an instance whose handshake is at a point. -/
def handshake (i : Nat) (point : InitPoint) (f : LspInstance → LspInstance) : Option LspProvider := do
  let inst ← p.pool[i]?
  if inst.init = point then some (p.setInstance i f) else none

/-- The first part of `initialize`: the process is launched and asked to initialize. -/
def launched (launch : Option String) (inst : LspInstance) : LspInstance :=
  match launch with
  | some what => { inst with init := .ended, readyDone := true, readyError := some what }
  | none =>
    { inst with
      init := .requested
      connection := { inst.connection with running := true }
      lateStart := inst.lateStart || p.disposed }

def settled (failure : Option String) (inst : LspInstance) : LspInstance :=
  { inst with init := .ended, readyDone := true, readyError := failure }

/-- The reader or a write gave up; a malformed message closes the connection too. -/
def lost (malformed : Bool) (inst : LspInstance) : LspInstance :=
  let connection := { inst.connection with failed := true }
  { inst with connection := if malformed then connection.close else connection }

def exited (inst : LspInstance) : LspInstance := { inst with connection := { inst.connection with running := false } }

def next (op : Op) : Option LspProvider :=
  match op with
  | .query prepared env =>
    if p.disposed then some (p.refuse "lsp-stdio provider is disposed")
    else match prepared with
      | .error what => some (p.refuse what)
      | .ok key => (p.ask key env).map fun (q, p', threw) => p'.caught q env threw
  | .dispose => some p.dispose
  | .init i launch => p.handshake i .spawned (p.launched launch)
  | .initialized i failure => p.handshake i .requested (settled failure)
  | .lose i malformed => do
    let inst ← p.pool[i]?
    if inst.init = .spawned then none else some (p.setInstance i (lost malformed))
  | .exit i => do
    let _ ← p.pool[i]?
    some (p.setInstance i exited)
  | op => (p.resume op).map fun (q, p', threw) => p'.caught q (envOf op) threw

end LspProvider
end Araya.Lsp
