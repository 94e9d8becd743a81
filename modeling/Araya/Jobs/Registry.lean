import Araya.Session.Validate
import Araya.Util.Machine
import Araya.Util.Sorted
import Mathlib.Data.String.Basic

/-!
The registry of background jobs. Producers' callbacks, completion listeners and observers
run inside its calls and may call it again, so what is left of a call stands on a stack
under the user code it waits for; a wait is suspended instead, and resumes when its timer
is cancelled or expires.
-/

namespace Araya.Jobs
open Sessions (ensure need)

inductive JobStatus where
  | running
  | stopping
  | completed
  | killed
  | failed
  deriving DecidableEq, Repr

def isTerminal : JobStatus → Bool
  | .completed | .killed | .failed => true
  | .running | .stopping => false

structure JobOutcome where
  status : JobStatus := .completed
  detail : String := ""
  output : String := ""
  deriving DecidableEq, Repr

structure JobStart where
  kind : String
  label : String
  ownerSession : Option String := none
  outputLimitBytes : Option Nat := none

/-- Which callbacks the producer returns. -/
structure JobHandle where
  cancels : Bool := false
  reads : Bool := false

structure JobSnapshot where
  id : String
  kind : String
  label : String
  outputLimitBytes : Option Nat
  ownerSession : Option String
  status : JobStatus
  detail : Option String
  startedAtMs : Int
  finishedAtMs : Option Int
  reported : Bool
  deriving DecidableEq

/-- The record of a job. From `moves` on the fields are histories: the statuses written, the
outcome of the first settlement, and the next listener's token at a settlement in the store. -/
structure TrackedJob where
  id : String
  kind : String
  label : String
  outputLimitBytes : Option Nat := none
  ownerSession : Option String := none
  status : JobStatus := .running
  detail : Option String := none
  output : String := ""
  startedAtMs : Int := 0
  finishedAtMs : Option Int := none
  reported : Bool := false
  inStore : Bool := true
  handle : JobHandle := {}
  waiters : List Nat := []
  moves : List JobStatus := [.running]
  outcome : Option JobOutcome := none
  due : Option Nat := none

/-- What a reader, a waiter or a completion listener was given of a job. The text of a stream
job is the producer's. -/
structure Seen where
  job : Nat
  snapshot : JobSnapshot
  output : Option String := none

/-- The jobs are kept when they leave the store. `waits` are the suspended waits; `seen` and
`completions`, the listeners called for a job, are histories. -/
structure JobRegistry where
  maxConcurrent : Nat := 10
  controllers : Nat := 0
  listenersClosed : Bool := false
  nextListener : Nat := 1
  jobs : List TrackedJob := []
  store : SortedMap String Nat := ∅
  counters : SortedMap String Nat := ∅
  listeners : SortedSet Nat := ∅
  changed : SortedSet Nat := ∅
  nextWait : Nat := 0
  waits : List (Nat × Nat) := []
  seen : List Seen := []
  completions : List (Nat × Nat) := []

/-- What a call waits for, or has left to do. The first five are user code that runs: a start
function, the cancellation of a kill or of a stop, a read, a listener or observer. -/
inductive Frame where
  | run (job : Nat)
  | kill (job : Nat)
  | stop (job : Nat)
  | read (job : Nat)
  | listener
  | change (owner : Option String) (after : Nat)
  | settled (job : Nat)
  | announce (job : Nat) (settled : JobSnapshot) (after : Nat)
  | dispose (session : String) (after : Option String) (removed : Bool)
  | erase (session : String) (id : String)
  | shut (after : Option String)

def Frame.isUser : Frame → Bool
  | .run _ | .kill _ | .stop _ | .read _ | .listener => true
  | _ => false

namespace TrackedJob

def snapshot (j : TrackedJob) : JobSnapshot where
  id := j.id
  kind := j.kind
  label := j.label
  outputLimitBytes := j.outputLimitBytes
  ownerSession := j.ownerSession
  status := j.status
  detail := j.detail
  startedAtMs := j.startedAtMs
  finishedAtMs := j.finishedAtMs
  reported := j.reported

/-- A write of the status. -/
def moveTo (status : JobStatus) (j : TrackedJob) : TrackedJob := { j with status, moves := j.moves ++ [status] }

def report (j : TrackedJob) : TrackedJob := { j with reported := true }

def reportTerminal (j : TrackedJob) : TrackedJob := if isTerminal j.status then j.report else j

def active (j : TrackedJob) : Bool := j.status == .running || j.status == .stopping

end TrackedJob

/-- A status that is not terminal is coerced to `failed`. -/
def JobOutcome.coerced (o : JobOutcome) : JobOutcome := if isTerminal o.status then o else { o with status := .failed }

namespace JobRegistry
variable (r : JobRegistry)

def update (i : Nat) (f : TrackedJob → TrackedJob) : JobRegistry := { r with jobs := r.jobs.modify i f }

/-- The history of a job handed out. -/
def hand (i : Nat) (output : Option String) : JobRegistry :=
  { r with seen := r.seen ++ (r.jobs[i]?.map fun j => { job := i, snapshot := j.snapshot, output }).toList }

/-- `expect` and `check_access`. -/
def access (id : String) (owner : Option String) : Except String (Nat × TrackedJob) := do
  let i ← need (r.store.find? id) ("unknown job " ++ id)
  let j ← need r.jobs[i]? ("unknown job " ++ id)
  ensure (j.ownerSession.isNone || j.ownerSession == owner) ("job " ++ j.id ++ " belongs to another session")
  .ok (i, j)

def activeCount (owner : Option String) : Nat :=
  r.store.count fun i => r.jobs[i]?.any fun j => j.ownerSession == owner && j.active

def startCheck (spec : JobStart) : Except String Unit := do
  ensure (r.controllers != 0) "background jobs unavailable: no job controller is attached (load tool-jobs)"
  ensure (spec.kind != "") "invalid job kind: expected a non-empty string"
  ensure (spec.label != "") "invalid job label: expected a non-empty string"
  ensure (spec.outputLimitBytes != some 0) "invalid output_limit_bytes: expected a positive value"
  ensure (decide (r.activeCount spec.ownerSession < r.maxConcurrent))
    ("background job limit reached for this owner (limit: " ++ toString r.maxConcurrent ++
      "); stop an unneeded job and retry")

/-- `start`, up to the producer's start function. -/
def start (spec : JobStart) (now : Int) : Except String (JobRegistry × List Frame) := do
  r.startCheck spec
  let count := (r.counters.find? spec.kind).getD 0 + 1
  let id := spec.kind ++ "-" ++ toString count
  let job : TrackedJob := {
    id
    kind := spec.kind
    label := spec.label
    outputLimitBytes := spec.outputLimitBytes
    ownerSession := spec.ownerSession
    startedAtMs := now }
  .ok ({ r with
    jobs := r.jobs ++ [job]
    store := if r.store.contains id then r.store else r.store.insert id r.jobs.length
    counters := r.counters.insert spec.kind count }, [.run r.jobs.length])

/-- `kill`, up to the producer's cancellation. -/
def kill (id : String) (owner : Option String) : Except String (JobRegistry × List Frame) := do
  let (i, j) ← r.access id owner
  if isTerminal j.status then .ok (r.update i (·.report), [])
  else if j.handle.cancels then .ok (r, [.kill i])
  else .ok (r.update i fun j => (j.moveTo .stopping).report, [.change j.ownerSession 0])

/-- `read`: a job without a `read_output` has its output once it is settled. -/
def read (id : String) (owner : Option String) : Except String (JobRegistry × List Frame) := do
  let (i, j) ← r.access id owner
  if j.handle.reads then .ok (r, [.read i])
  else
    let text := if isTerminal j.status then j.output else ""
    .ok ((r.update i (·.reportTerminal)).hand i (some text), [])

/-- `wait`, up to its suspension. -/
def wait (id : String) (owner : Option String) (timeoutMs : Nat) : Except String (JobRegistry × List Frame) := do
  let (i, j) ← r.access id owner
  ensure (timeoutMs != 0) "invalid wait timeout: expected a positive number of milliseconds"
  if isTerminal j.status then .ok ((r.update i (·.reportTerminal)).hand i none, [])
  else
    .ok ({ r.update i (fun j => { j with waiters := j.waiters ++ [r.nextWait] }) with
      nextWait := r.nextWait + 1
      waits := r.waits ++ [(r.nextWait, i)] }, [])

/-- The rest of a wait, once its timer is cancelled or expires. -/
def resume (token : Nat) : Option JobRegistry :=
  (r.waits.find? (·.1 == token)).map fun (_, i) =>
    let r := { r with waits := r.waits.filter (·.1 != token) }
    (r.update i fun j => { j with waiters := j.waiters.filter (· != token) }.reportTerminal).hand i none

def list (owner : Option String) : JobRegistry :=
  r.store.toList.foldl (fun r entry =>
    if r.jobs[entry.2]?.any (fun j => j.ownerSession.isNone || owner.isSome && owner == j.ownerSession)
    then r.hand entry.2 none else r) r

def get (id : String) (owner : Option String) : Except String JobRegistry :=
  (r.access id owner).map fun (i, _) => r.hand i none

/-- `settle_job`, up to its observers. -/
def settle (i : Nat) (outcome : JobOutcome) (now : Int) : JobRegistry × List Frame :=
  match r.jobs[i]? with
  | none => (r, [])
  | some j =>
    if isTerminal j.status then (r, [])
    else
      let o := outcome.coerced
      (r.update i fun j => { j.moveTo o.status with
        detail := some o.detail
        output := o.output
        finishedAtMs := some now
        reported := j.reported || !j.waiters.isEmpty
        waiters := []
        outcome := j.outcome <|> some o
        due := if j.inStore then some r.nextListener else j.due },
        if j.inStore then [.change j.ownerSession 0, .settled i] else [])

/-- The end of `stop_job`. -/
def stopped (i : Nat) : JobRegistry := r.update i fun j => { j.moveTo .stopping with waiters := [] }

/-- `stop_job`, up to the producer's cancellation. -/
def stopJob (i : Nat) : JobRegistry × List Frame :=
  match r.jobs[i]? with
  | none => (r, [])
  | some j =>
    if isTerminal j.status then (r, [])
    else
      let r := r.update i fun j => { j with reported := true, inStore := false }
      if j.handle.cancels then (r, [.stop i]) else (r.stopped i, [])

/-- The first entry of the store behind `after`. -/
def entryAfter (after : Option String) (p : Nat → Bool) : Option (String × Nat) :=
  r.store.toList.find? fun entry => after.all (· < entry.1) && p entry.2

/-- What is left of a call goes on, up to the next user code. -/
def exec : Frame → JobRegistry × List Frame
  | .change owner after =>
    match r.changed.toList.find? (after < ·) with
    | none => (r, [])
    | some token => (r, [.listener, .change owner token])
  | .settled i =>
    if r.listenersClosed then (r, [])
    else (r, (r.jobs[i]?.map fun j => .announce i j.snapshot 0).toList)
  | .announce i settled after =>
    match r.listeners.toList.find? (after < ·) with
    | none => (r, [])
    | some token => ({ r with
        completions := r.completions ++ [(token, i)]
        seen := r.seen ++ [{ job := i, snapshot := settled }] }, [.listener, .announce i settled token])
  | .dispose session after removed =>
    match r.entryAfter after fun i => r.jobs[i]?.any (·.ownerSession == some session) with
    | none => (r, if removed then [.change (some session) 0] else [])
    | some (id, i) =>
      let (r, frames) := r.stopJob i
      (r, frames ++ [.erase session id])
  | .erase session id => ({ r with store := r.store.erase id }, [.dispose session (some id) true])
  | .shut after =>
    match r.entryAfter after fun _ => true with
    | none => ({ r with store := ∅ }, [])
    | some (id, i) =>
      let (r, frames) := r.stopJob i
      (r, frames ++ [.shut (some id)])
  | frame => (r, [frame])

/-- User code ends, by a throw or not: `kill` and `read` let a throw through, a stop and the
loops over listeners do not, and a start takes its job back. -/
def ret (threw : Bool) (handle : JobHandle) : Frame → JobRegistry × List Frame
  | .run i =>
    let owner := r.jobs[i]?.bind (·.ownerSession)
    if threw then
      let id := r.jobs[i]?.elim "" (·.id)
      ({ r.update i (fun j => { j with inStore := false }) with store := r.store.erase id }, [.change owner 0])
    else (r.update i fun j => { j with handle }, [.change owner 0])
  | .kill i =>
    if threw then (r, [])
    else (r.update i fun j => (j.moveTo .stopping).report, [.change (r.jobs[i]?.bind (·.ownerSession)) 0])
  | .stop i => (r.stopped i, [])
  | .read i => if threw then (r, []) else ((r.update i (·.reportTerminal)).hand i none, [])
  | _ => (r, [])

end JobRegistry

inductive JobCall where
  | start (spec : JobStart) (now : Int)
  | list (owner : Option String)
  | get (id : String) (owner : Option String)
  | read (id : String) (owner : Option String)
  | kill (id : String) (owner : Option String)
  | wait (id : String) (owner : Option String) (timeoutMs : Nat)
  | settle (job : Nat) (outcome : JobOutcome) (now : Int)
  | onJobDone
  | removeJobDone (token : Nat)
  | onJobsChanged
  | removeJobsChanged (token : Nat)
  | attachController
  | detachController
  | disposeOwner (session : String)
  | shutdown

/-- A call that throws leaves the registry as it is. -/
def JobRegistry.attempt {α : Type} (r : JobRegistry) (result : Except String α) (f : α → JobRegistry × List Frame) :
    JobRegistry × List Frame :=
  match result with
  | .error _ => (r, [])
  | .ok a => f a

def JobRegistry.call (r : JobRegistry) : JobCall → JobRegistry × List Frame
  | .start spec now => r.attempt (r.start spec now) id
  | .list owner => (r.list owner, [])
  | .get id owner => r.attempt (r.get id owner) (·, [])
  | .read name owner => r.attempt (r.read name owner) id
  | .kill name owner => r.attempt (r.kill name owner) id
  | .wait name owner timeoutMs => r.attempt (r.wait name owner timeoutMs) id
  | .settle job outcome now => r.settle job outcome now
  | .onJobDone => ({ r with listeners := r.listeners.insert r.nextListener, nextListener := r.nextListener + 1 }, [])
  | .removeJobDone token => ({ r with listeners := r.listeners.erase token }, [])
  | .onJobsChanged => ({ r with changed := r.changed.insert r.nextListener, nextListener := r.nextListener + 1 }, [])
  | .removeJobsChanged token => ({ r with changed := r.changed.erase token }, [])
  | .attachController => ({ r with controllers := r.controllers + 1 }, [])
  | .detachController => ({ r with controllers := r.controllers - 1 }, [])
  | .disposeOwner session => (r, [.dispose session none false])
  | .shutdown => ({ r with listenersClosed := true }, [.shut none])

structure JobsRun where
  registry : JobRegistry := {}
  stack : List Frame := []

inductive JobsAct where
  | call (c : JobCall)
  | step
  | ret (threw : Bool) (handle : JobHandle)
  | resume (token : Nat)

/-- The registry is called from outside or by the user code it runs; a wait resumes only
when nothing runs. -/
def JobsRun.next (s : JobsRun) : JobsAct → Option JobsRun
  | .call c =>
    if s.stack.head?.all (·.isUser) then
      let (registry, frames) := s.registry.call c
      some { registry, stack := frames ++ s.stack }
    else none
  | .step =>
    match s.stack with
    | [] => none
    | frame :: rest =>
      if frame.isUser then none
      else
        let (registry, frames) := s.registry.exec frame
        some { registry, stack := frames ++ rest }
  | .ret threw handle =>
    match s.stack with
    | [] => none
    | frame :: rest =>
      if frame.isUser then
        let (registry, frames) := s.registry.ret threw handle frame
        some { registry, stack := frames ++ rest }
      else none
  | .resume token =>
    if s.stack.isEmpty then (s.registry.resume token).map fun registry => { s with registry } else none

def jobsSystem : System JobsRun JobsAct where
  start s := s.stack = [] ∧ ∃ maxConcurrent, s.registry = { maxConcurrent }
  step s a s' := s.next a = some s'

end Araya.Jobs
