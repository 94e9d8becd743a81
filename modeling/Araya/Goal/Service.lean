import Araya.Goal.Projection

/-!
The goal service. A mutation checks its arguments and the reference it is given
against the folded state, and only then makes the one change it commits; what it
returns is read back from the fold of that change.
-/

namespace Araya.Goals
open Sessions

/-- Whether this process may continue an active goal on its own. -/
inductive GoalActivation where
  | armed
  | disarmed
  deriving DecidableEq, Repr

structure GoalView where
  id : String := ""
  revision : Nat := 1
  objective : String := ""
  phase : GoalPhase := .active
  blockedReason : Option GoalBlockReason := none
  maxGoalRounds : Nat := 256
  roundsStarted : Nat := 0
  createdAt : Int := 0
  updatedAt : Int := 0
  activation : GoalActivation := .disarmed
  deriving DecidableEq, Repr

inductive GoalErrorCode where
  | agentNotLive
  | notFound
  | alreadyExists
  | staleRevision
  | invalidObjective
  | invalidMaxRounds
  | invalidBlockReason
  | invalidEdit
  | invalidTransition
  deriving DecidableEq, Repr

structure GoalError where
  message : String
  code : GoalErrorCode
  deriving DecidableEq, Repr

/-- What the service sees of one session: whether the store has it, the state of its
projection when there is one, and its entry among the activations. -/
structure GoalSession where
  id : SessionId
  live : Bool := true
  state : Option GoalProjectionState := some {}
  activation : Option GoalActivation := none
  defaultMaxGoalRounds : Nat := 256

/-- A change to commit, the activation it sets, and the tombstone of a clear. -/
structure Change where
  data : Json
  activation : GoalActivation
  tombstone : Option GoalRef := none

/-- What an operation draws: the clock, and the stamp and the two random words of a new identity. -/
structure Draws where
  now : Int
  stamp : Int := 0
  high : UInt32 := 0
  low : UInt32 := 0

def mintGoalId (draws : Draws) : String := mintId "goal-" "-" draws.stamp draws.high draws.low

def require (b : Bool) (message : String) (code : GoalErrorCode) : Except GoalError Unit :=
  if b then .ok () else .error ⟨message, code⟩

/-! Encoding -/

def reasonMember (reason : Option GoalBlockReason) : Json.Members :=
  (reason.map fun r => ("blockedReason", .obj [("code", .str r.code), ("message", .str r.message)])).toList

def snapshotJson (goal : GoalSnapshot) : Json.Members :=
  [("id", .str goal.id), ("revision", .uint goal.revision), ("objective", .str goal.objective),
    ("phase", .str (goalPhaseName goal.phase)), ("maxGoalRounds", .uint goal.maxGoalRounds)] ++
    reasonMember goal.blockedReason

def operationName : OperationKind → String
  | .create => "create"
  | .edit => "edit"
  | .pause => "pause"
  | .resume => "resume"
  | .complete => "complete"
  | .block => "block"
  | .clear => "clear"

/-- The data of `commit_snapshot`. -/
def snapshotChange (operation : OperationKind) (goal : GoalSnapshot) (roundsStarted : Nat)
    (createdAt updatedAt : Int) : Json :=
  .obj [("kind", .str "goal/change"), ("version", .int 1), ("operation", .str (operationName operation)),
    ("goal", .obj (snapshotJson goal)), ("roundsStarted", .uint roundsStarted), ("createdAt", .int createdAt),
    ("updatedAt", .int updatedAt)]

def clearChange (tombstone : GoalRef) (clearedAt : Int) : Json :=
  .obj [("kind", .str "goal/change"), ("version", .int 1), ("operation", .str "clear"),
    ("cleared", .obj [("id", .str tombstone.id), ("revision", .uint tombstone.revision)]),
    ("clearedAt", .int clearedAt)]

/-- The data of `commit_current`. -/
def currentChange (state : GoalProjectionState) (operation : OperationKind) (goal : GoalSnapshot) (now : Int) :
    Json :=
  snapshotChange operation goal state.roundsStarted state.createdAt (max now state.updatedAt)

namespace GoalSession

def activationOf (s : GoalSession) : GoalActivation := s.activation.getD .disarmed

/-! The prologue -/

def ensureSession (s : GoalSession) : Except GoalError Unit :=
  require s.live ("agent is not a live session '" ++ s.id ++ "'") .agentNotLive

def expectState (s : GoalSession) : Except GoalError GoalProjectionState :=
  match s.state with
  | none => .error ⟨"session '" ++ s.id ++ "' has no goal projection", .agentNotLive⟩
  | some state =>
    match state.failure with
    | some what => .error ⟨what, .invalidTransition⟩
    | none => .ok state

def expectCurrent (state : GoalProjectionState) (ref : GoalRef) : Except GoalError GoalSnapshot :=
  match state.current with
  | none => .error ⟨"no current goal", .notFound⟩
  | some goal =>
    if ref = goal.ref then .ok goal
    else .error ⟨"stale goal ref '" ++ ref.id ++ "' revision " ++ toString ref.revision, .staleRevision⟩

/-- The state and its goal, when the session is live and the reference is the current one. -/
def expectCurrentGoal (s : GoalSession) (ref : GoalRef) : Except GoalError (GoalProjectionState × GoalSnapshot) := do
  s.ensureSession
  let state ← s.expectState
  let goal ← expectCurrent state ref
  .ok (state, goal)

/-! The operations -/

def checkObjective (objective : String) : Except GoalError Unit :=
  require (trim objective != "") "goal objective must be a non-empty string" .invalidObjective

def checkMaxRounds (maxRounds : Nat) : Except GoalError Unit :=
  require (1 ≤ maxRounds) "maxGoalRounds must be a positive integer" .invalidMaxRounds

def create (s : GoalSession) (draws : Draws) (objective : String) (maxRounds : Option Nat) :
    Except GoalError Change := do
  s.ensureSession
  checkObjective objective
  let cap := maxRounds.getD s.defaultMaxGoalRounds
  checkMaxRounds cap
  let state ← s.expectState
  require (state.current.all fun goal => goal.phase == .complete)
    ("goal '" ++ (state.current.elim "" (·.id)) ++ "' already exists") .alreadyExists
  let goal := { id := mintGoalId draws, objective := trim objective, maxGoalRounds := cap }
  .ok { data := snapshotChange .create goal 0 draws.now draws.now, activation := .armed }

def edit (s : GoalSession) (draws : Draws) (ref : GoalRef) (objective : Option String) (maxRounds : Option Nat) :
    Except GoalError Change := do
  let (state, goal) ← s.expectCurrentGoal ref
  require (objective.isSome || maxRounds.isSome) "goal edit requires objective and/or maxGoalRounds" .invalidEdit
  objective.elim (.ok ()) checkObjective
  maxRounds.elim (.ok ()) checkMaxRounds
  let goal := { goal with
    revision := goal.revision + 1
    objective := objective.elim goal.objective trim
    maxGoalRounds := maxRounds.getD goal.maxGoalRounds }
  .ok { data := currentChange state .edit goal draws.now, activation := s.activationOf }

/-- `with_phase`. -/
def withPhase (goal : GoalSnapshot) (phase : GoalPhase) : GoalSnapshot :=
  { goal with revision := goal.revision + 1, phase, blockedReason := none }

def pause (s : GoalSession) (draws : Draws) (ref : GoalRef) : Except GoalError Change := do
  let (state, goal) ← s.expectCurrentGoal ref
  require (goal.phase == .active) "cannot pause goal from its phase" .invalidTransition
  .ok { data := currentChange state .pause (withPhase goal .paused) draws.now, activation := .disarmed }

def resume (s : GoalSession) (draws : Draws) (ref : GoalRef) : Except GoalError Change := do
  let (state, goal) ← s.expectCurrentGoal ref
  require (goal.phase != .complete) "cannot resume goal from its phase" .invalidTransition
  require (!(goal.phase == .active && s.activationOf == .armed)) "goal is already active and armed" .invalidTransition
  require (state.roundsStarted < goal.maxGoalRounds) "goal exhausted its round budget" .invalidTransition
  .ok { data := currentChange state .resume (withPhase goal .active) draws.now, activation := .armed }

def complete (s : GoalSession) (draws : Draws) (ref : GoalRef) : Except GoalError Change := do
  let (state, goal) ← s.expectCurrentGoal ref
  require (goal.phase != .complete) "goal is already complete" .invalidTransition
  .ok { data := currentChange state .complete (withPhase goal .complete) draws.now, activation := .disarmed }

def block (s : GoalSession) (draws : Draws) (ref : GoalRef) (reason : GoalBlockReason) :
    Except GoalError Change := do
  let (state, goal) ← s.expectCurrentGoal ref
  require (goal.phase == .active) "cannot block goal from its phase" .invalidTransition
  let trimmed : GoalBlockReason := ⟨trim reason.code, trim reason.message⟩
  require (trimmed.code != "" && trimmed.message != "") "block reason requires a code and a message"
    .invalidBlockReason
  let goal := { withPhase goal .blocked with blockedReason := some trimmed }
  .ok { data := currentChange state .block goal draws.now, activation := .disarmed }

def clear (s : GoalSession) (draws : Draws) (ref : GoalRef) : Except GoalError Change := do
  let (state, goal) ← s.expectCurrentGoal ref
  let tombstone : GoalRef := ⟨goal.id, goal.revision + 1⟩
  .ok { data := clearChange tombstone (max draws.now state.updatedAt), activation := .disarmed, tombstone }

end GoalSession

inductive GoalOp where
  | create (objective : String) (maxRounds : Option Nat)
  | edit (ref : GoalRef) (objective : Option String) (maxRounds : Option Nat)
  | pause (ref : GoalRef)
  | resume (ref : GoalRef)
  | complete (ref : GoalRef)
  | block (ref : GoalRef) (reason : GoalBlockReason)
  | clear (ref : GoalRef)

/-- What an operation commits to the session. -/
def GoalSession.change (s : GoalSession) (draws : Draws) : GoalOp → Except GoalError Change
  | .create objective maxRounds => s.create draws objective maxRounds
  | .edit ref objective maxRounds => s.edit draws ref objective maxRounds
  | .pause ref => s.pause draws ref
  | .resume ref => s.resume draws ref
  | .complete ref => s.complete draws ref
  | .block ref reason => s.block draws ref reason
  | .clear ref => s.clear draws ref

def viewOf (state : GoalProjectionState) (activation : GoalActivation) : GoalView :=
  let counters : GoalView := {
    roundsStarted := state.roundsStarted
    createdAt := state.createdAt
    updatedAt := state.updatedAt
    activation }
  match state.current with
  | none => counters
  | some goal => { counters with
      id := goal.id
      revision := goal.revision
      objective := goal.objective
      phase := goal.phase
      blockedReason := goal.blockedReason
      maxGoalRounds := goal.maxGoalRounds }

/-! A session and its log -/

inductive Reply where
  | view (view : GoalView)
  | tombstone (ref : GoalRef)

structure GoalLog where
  session : GoalSession
  log : List Event := []

namespace GoalLog

def changeEvent (g : GoalLog) (data : Json) (time : Int) : Event where
  seq := g.log.length
  time
  type := "goal/change"
  data
  ignorable := true

/-- `commit_change`, up to the append and the drive of the projection. -/
def commit (g : GoalLog) (c : Change) (time : Int) : GoalLog :=
  let ev := g.changeEvent c.data time
  { session := { g.session with
      activation := some c.activation
      state := g.session.state.map (·.drive ev) }
    log := g.log ++ [ev] }

/-- What the operation returns, read after its commit. -/
def reply (g : GoalLog) (c : Change) : Except GoalError Reply :=
  g.session.expectState.map fun state => c.tombstone.elim (.view (viewOf state c.activation)) .tombstone

/-- A call of the service; `time` is the stamp of the event it appends. -/
def run (g : GoalLog) (draws : Draws) (time : Int) (op : GoalOp) : GoalLog × Except GoalError Reply :=
  match g.session.change draws op with
  | .error e => (g, .error e)
  | .ok c => (g.commit c time, (g.commit c time).reply c)

/-- `disarm`: only where there is a goal. -/
def disarm (g : GoalLog) : GoalLog :=
  if (g.session.state.bind (·.current)).isSome then
    { g with session := { g.session with activation := some .disarmed } }
  else g

def forget (g : GoalLog) : GoalLog := { g with session := { g.session with activation := none } }

/-- The session leaves the store and the log, or a fork of it, is entered again, before or
after the projection is registered. -/
def reopen (g : GoalLog) (cut : Nat) (live projected : Bool) : GoalLog where
  session := { g.session with
    live
    state := if live && projected then some (replay (g.log.take cut)) else none }
  log := g.log.take cut

end GoalLog

end Araya.Goals
