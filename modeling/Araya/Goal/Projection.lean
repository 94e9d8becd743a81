import Araya.Session.Store
import Araya.Util.Strings

/-!
The durable goal of a session, folded from its log: every mutation is one
`goal/change` event with the whole goal after it, every admitted round is a user
message that names the goal as its source. What does not follow from the state
before it sets the failure, and a failed fold stays as it is.
-/

namespace Araya.Goals
open Sessions

inductive GoalPhase where
  | active
  | paused
  | blocked
  | complete
  deriving DecidableEq, Repr

def goalPhaseName : GoalPhase → String
  | .active => "active"
  | .paused => "paused"
  | .blocked => "blocked"
  | .complete => "complete"

def phaseOf (name : String) : Option GoalPhase :=
  [GoalPhase.active, .paused, .blocked, .complete].find? fun phase => goalPhaseName phase == name

/-- The operation that a `goal/change` records. -/
inductive OperationKind where
  | create
  | edit
  | pause
  | resume
  | complete
  | block
  | clear
  deriving DecidableEq, Repr

def operationOf : String → Option OperationKind
  | "create" => some .create
  | "edit" => some .edit
  | "pause" => some .pause
  | "resume" => some .resume
  | "complete" => some .complete
  | "block" => some .block
  | "clear" => some .clear
  | _ => none

structure GoalBlockReason where
  code : String
  message : String
  deriving DecidableEq, Repr

structure GoalSnapshot where
  id : String
  revision : Nat := 1
  objective : String
  phase : GoalPhase := .active
  blockedReason : Option GoalBlockReason := none
  maxGoalRounds : Nat := 256
  deriving DecidableEq, Repr

structure GoalRef where
  id : String := ""
  revision : Nat := 0
  deriving DecidableEq, Repr

def GoalSnapshot.ref (goal : GoalSnapshot) : GoalRef := ⟨goal.id, goal.revision⟩

structure GoalProjectionState where
  current : Option GoalSnapshot := none
  roundsStarted : Nat := 0
  createdAt : Int := 0
  updatedAt : Int := 0
  lastRef : Option GoalRef := none
  seenIds : List String := []
  failure : Option String := none

/-! Decoding -/

structure DecodedChange where
  operation : OperationKind
  goal : GoalSnapshot := { id := "", objective := "" }
  roundsStarted : Nat := 0
  createdAt : Int := 0
  updatedAt : Int := 0
  cleared : GoalRef := {}
  clearedAt : Int := 0

def decodeReason (object : Json.Members) : Except String GoalBlockReason := do
  let reason ← need (Json.objectField object "blockedReason")
    "goal change goal.blockedReason must be present while blocked"
  let invalid := "goal change goal.blockedReason is invalid"
  let code ← need (nonEmpty (Json.stringField reason "code")) invalid
  let message ← need ((Json.stringField reason "message").filter (trim · != "")) invalid
  .ok ⟨code, trim message⟩

def decodeSnapshot (object : Json.Members) : Except String GoalSnapshot := do
  let id ← need (nonEmpty (Json.stringField object "id"))
    "goal change goal.id must be a non-empty string"
  let objective ← need ((Json.stringField object "objective").filter fun text => trim text != "" && text == trim text)
    "goal change goal.objective must be non-empty and normalized"
  let revision ← need ((Json.optUintField object "revision").filter (1 ≤ ·))
    "goal change goal.revision must be a positive integer"
  let maxGoalRounds ← need ((Json.optUintField object "maxGoalRounds").filter (1 ≤ ·))
    "goal change goal.maxGoalRounds must be a positive integer"
  let phase ← need ((Json.stringField object "phase").bind phaseOf) "goal change goal.phase is invalid"
  let blockedReason ← if phase = .blocked then (decodeReason object).map some else .ok none
  .ok { id, objective, revision, maxGoalRounds, phase, blockedReason }

def decodeCleared (object : Json.Members) : Except String DecodedChange := do
  let ref ← need (Json.objectField object "cleared") "goal clear change lacks a cleared ref"
  let invalid := "goal clear change ref is invalid"
  let id ← need (nonEmpty (Json.stringField ref "id")) invalid
  let revision ← need ((Json.optUintField ref "revision").filter (1 ≤ ·)) invalid
  let clearedAt ← need ((Json.optIntField object "clearedAt").filter (0 ≤ ·)) "goal clear change clearedAt is invalid"
  .ok { operation := .clear, cleared := ⟨id, revision⟩, clearedAt }

def decodeChange (data : Json) : Except String DecodedChange := do
  let object ← need data.ifObject "goal change must be a JSON object"
  ensure (Json.stringField object "kind" == some "goal/change") "goal change has an invalid kind"
  ensure (Json.optUintField object "version" == some 1) "unsupported goal change version"
  let operation ← need ((Json.stringField object "operation").bind operationOf) "goal change operation is invalid"
  if operation = .clear then decodeCleared object
  else
    let goal ← need (Json.objectField object "goal") "goal change lacks a goal snapshot"
    let goal ← decodeSnapshot goal
    let roundsStarted ← need (Json.optUintField object "roundsStarted") "goal change roundsStarted is invalid"
    let createdAt ← need ((Json.optIntField object "createdAt").filter (0 ≤ ·)) "goal change createdAt is invalid"
    let updatedAt ← need ((Json.optIntField object "updatedAt").filter (0 ≤ ·)) "goal change updatedAt is invalid"
    ensure (createdAt ≤ updatedAt) "goal change updatedAt cannot precede createdAt"
    .ok { operation, goal, roundsStarted, createdAt, updatedAt }

/-! Folding -/

def requireSameDefinition (current next : GoalSnapshot) : Except String Unit :=
  ensure (next.objective == current.objective && next.maxGoalRounds == current.maxGoalRounds)
    "goal operation cannot change objective or maxGoalRounds"

/-- The phases of an operation on the current goal, and the definition it keeps. -/
def checkTransition (state : GoalProjectionState) (operation : OperationKind) (current goal : GoalSnapshot) :
    Except String Unit :=
  match operation with
  | .edit => ensure (goal.phase == current.phase) "goal edit cannot change phase"
  | .pause => do
    requireSameDefinition current goal
    ensure (current.phase == .active && goal.phase == .paused) "goal pause has an invalid phase transition"
  | .resume => do
    requireSameDefinition current goal
    ensure (current.phase != .complete && goal.phase == .active && state.roundsStarted < goal.maxGoalRounds)
      "goal resume has an invalid phase transition or exhausted budget"
  | .complete => do
    requireSameDefinition current goal
    ensure (current.phase != .complete && goal.phase == .complete) "goal complete has an invalid phase transition"
  | .block => do
    requireSameDefinition current goal
    ensure (current.phase == .active && goal.phase == .blocked) "goal block has an invalid phase transition"
  | .create | .clear => .error "unknown goal snapshot operation"

def clearGoal (state : GoalProjectionState) (change : DecodedChange) : Except String GoalProjectionState := do
  let current ← need state.current "goal clear requires a current goal"
  ensure (change.cleared.id == current.id && change.cleared.revision == current.revision + 1)
    "goal clear must advance the current goal by one revision"
  ensure (state.updatedAt ≤ change.clearedAt) "goal clear timestamp cannot precede the current goal update"
  .ok { state with current := none, roundsStarted := 0, createdAt := 0, updatedAt := 0, lastRef := some change.cleared }

/-- The goal, its counters and its stamps become those of the change. -/
def takeSnapshot (state : GoalProjectionState) (change : DecodedChange) : GoalProjectionState :=
  { state with
    current := some change.goal
    roundsStarted := change.roundsStarted
    createdAt := change.createdAt
    updatedAt := change.updatedAt
    lastRef := some change.goal.ref }

def createGoal (state : GoalProjectionState) (change : DecodedChange) : Except String GoalProjectionState := do
  let seen := state.seenIds.contains change.goal.id
  ensure (change.goal.revision == 1 && change.goal.phase == .active && change.roundsStarted == 0 && !seen &&
      state.current.all fun current => current.phase == .complete)
    "goal create requires a fresh active revision-one goal with zero rounds"
  .ok (takeSnapshot { state with seenIds := state.seenIds ++ [change.goal.id] } change)

def advanceGoal (state : GoalProjectionState) (change : DecodedChange) : Except String GoalProjectionState := do
  let current ← need state.current "goal operation requires a current goal"
  ensure (change.goal.id == current.id && change.goal.revision == current.revision + 1)
    "goal operation must advance the current goal by one revision"
  ensure (change.createdAt == state.createdAt && state.updatedAt ≤ change.updatedAt &&
      change.roundsStarted == state.roundsStarted)
    "goal operation does not preserve the current counters and timestamps"
  checkTransition state change.operation current change.goal
  .ok (takeSnapshot state change)

def applyChange (state : GoalProjectionState) (change : DecodedChange) : Except String GoalProjectionState :=
  match change.operation with
  | .clear => clearGoal state change
  | .create => createGoal state change
  | _ => advanceGoal state change

/-- A round, as the source of its message names it. -/
structure Round where
  goalId : String
  revision : Nat
  round : Nat
  deriving DecidableEq

def decodeRound (source : Json.Members) : Except String Round := do
  let invalid := "goal message source is invalid"
  let goalId ← need (nonEmpty (Json.stringField source "goalId")) invalid
  let revision ← need (Json.optUintField source "revision") invalid
  let round ← need ((Json.optUintField source "round").filter (1 ≤ ·)) invalid
  .ok ⟨goalId, revision, round⟩

/-- The next round of the active goal. -/
def Admissible (state : GoalProjectionState) (r : Round) : Prop :=
  ∃ goal, state.current = some goal ∧ goal.phase = .active ∧ r.goalId = goal.id ∧ r.revision = goal.revision ∧
    r.round = state.roundsStarted + 1 ∧ r.round ≤ goal.maxGoalRounds

instance (state : GoalProjectionState) (r : Round) : Decidable (Admissible state r) :=
  match h : state.current with
  | none => .isFalse fun ⟨_, hg, _⟩ => by rw [h] at hg; cases hg
  | some goal =>
    decidable_of_iff (goal.phase = .active ∧ r.goalId = goal.id ∧ r.revision = goal.revision ∧
        r.round = state.roundsStarted + 1 ∧ r.round ≤ goal.maxGoalRounds)
      ⟨fun parts => ⟨goal, h, parts⟩, fun ⟨g, hg, parts⟩ => by rw [h] at hg; cases hg; exact parts⟩

def applyRound (state : GoalProjectionState) (source : Json.Members) : Except String GoalProjectionState := do
  let r ← decodeRound source
  ensure (decide (Admissible state r)) "goal round is not the next admitted round of the active goal"
  .ok { state with roundsStarted := r.round }

/-- The source of a message that is a goal. -/
def goalSource (message : Json) : Option Json.Members :=
  (message.ifObject.bind (Json.objectField · "source")).filter fun source =>
    Json.stringField source "kind" == some "goal"

namespace GoalProjectionState

def settle (state : GoalProjectionState) (seq : Nat) : Except String GoalProjectionState → GoalProjectionState
  | .ok state' => state'
  | .error what => { state with
      failure := some ("goal replay failed at session event " ++ toString seq ++ ": " ++ what) }

/-- The fold of one event of the projection's types. -/
def applyEvent (state : GoalProjectionState) (seq : Nat) (type : String) (data : Json) : GoalProjectionState :=
  if state.failure.isSome then state
  else if type = "user/message" then
    match goalSource data with
    | none => state
    | some source => state.settle seq (applyRound state source)
  else state.settle seq (decodeChange data >>= applyChange state)

end GoalProjectionState

def goalProjection : EventProjection GoalProjectionState where
  types := ["goal/change", "user/message"]
  init _ := .ok {}
  apply state ev := (state.applyEvent ev.seq ev.type ev.data, none)

namespace GoalProjectionState

/-- What the store makes of the state with one event of the log. -/
def drive (state : GoalProjectionState) (ev : Event) : GoalProjectionState :=
  if goalProjection.accepts ev.type then (goalProjection.apply state ev).1 else state

section
variable {state : GoalProjectionState} {ev : Event}

theorem drive_change (type : ev.type = "goal/change") (healthy : state.failure = none) :
    state.drive ev = state.settle ev.seq (decodeChange ev.data >>= applyChange state) := by
  have accepted : goalProjection.accepts ev.type = true := by rw [type]; rfl
  rw [drive, if_pos accepted]
  simp only [goalProjection, applyEvent, healthy, type]
  rfl

theorem drive_message (type : ev.type = "user/message") (healthy : state.failure = none) :
    state.drive ev = (goalSource ev.data).elim state fun source => state.settle ev.seq (applyRound state source) := by
  have accepted : goalProjection.accepts ev.type = true := by rw [type]; rfl
  rw [drive, if_pos accepted]
  simp only [goalProjection, applyEvent, healthy, type]
  cases goalSource ev.data <;> rfl

theorem drive_failed (failed : state.failure ≠ none) : state.drive ev = state := by
  have some : state.failure.isSome = true := Option.isSome_iff_ne_none.mpr failed
  simp only [drive, goalProjection, applyEvent, some, if_true, ite_self]

theorem drive_other (change : ev.type ≠ "goal/change") (message : ev.type ≠ "user/message") :
    state.drive ev = state := by
  have refused : goalProjection.accepts ev.type = false := by
    simp [goalProjection, EventProjection.accepts, change, message]
  rw [drive, refused]
  rfl

end

end GoalProjectionState

def replay (log : List Event) : GoalProjectionState := log.foldl GoalProjectionState.drive {}

@[simp] theorem replay_append (log : List Event) (ev : Event) : replay (log ++ [ev]) = (replay log).drive ev := by
  simp [replay]

/-! The store and its files -/

open Json (normalMembers)

theorem decodeReason_normal (object : Json.Members) : decodeReason (normalMembers object) = decodeReason object := by
  simp only [decodeReason, Json.objectField_normalMembers]
  exact need_bind_map _ _ _ _ _ fun reason => by simp only [Json.stringField_normalMembers]

theorem decodeSnapshot_normal (object : Json.Members) :
    decodeSnapshot (normalMembers object) = decodeSnapshot object := by
  simp only [decodeSnapshot, Json.stringField_normalMembers, Json.optUintField_normalMembers, decodeReason_normal]

theorem decodeCleared_normal (object : Json.Members) :
    decodeCleared (normalMembers object) = decodeCleared object := by
  simp only [decodeCleared, Json.objectField_normalMembers, Json.optIntField_normalMembers]
  exact need_bind_map _ _ _ _ _ fun ref => by
    simp only [Json.stringField_normalMembers, Json.optUintField_normalMembers]

/-- A change reads the same from a file. -/
theorem decodeChange_normal (data : Json) : decodeChange data.normal = decodeChange data := by
  simp only [decodeChange, Json.ifObject_normal]
  refine need_bind_map _ _ _ _ _ fun object => ?_
  simp only [Json.stringField_normalMembers, Json.optUintField_normalMembers, Json.optIntField_normalMembers,
    Json.objectField_normalMembers, decodeCleared_normal]
  refine bind_congr fun _ => bind_congr fun _ => bind_congr fun operation => ?_
  split
  · rfl
  · exact need_bind_map _ _ _ _ _ fun goal => by simp only [decodeSnapshot_normal]

theorem decodeRound_normal (source : Json.Members) : decodeRound (normalMembers source) = decodeRound source := by
  simp only [decodeRound, Json.stringField_normalMembers, Json.optUintField_normalMembers]

theorem goalSource_normal (message : Json) : goalSource message.normal = (goalSource message).map normalMembers := by
  have source : message.normal.ifObject.bind (Json.objectField · "source") =
      (message.ifObject.bind (Json.objectField · "source")).map normalMembers := by
    rw [Json.ifObject_normal]
    cases message.ifObject <;> simp
  rw [goalSource, source, goalSource]
  cases message.ifObject.bind (Json.objectField · "source") with
  | none => rfl
  | some found =>
      simp only [Option.map_some, Option.filter, Json.stringField_normalMembers]
      split <;> rfl

theorem drive_readBack (state : GoalProjectionState) (ev : Event) : state.drive ev.readBack = state.drive ev := by
  have round : ∀ source, applyRound state (normalMembers source) = applyRound state source := fun source => by
    simp only [applyRound, decodeRound_normal]
  simp only [GoalProjectionState.drive, goalProjection, GoalProjectionState.applyEvent, Event.readBack,
    goalSource_normal, decodeChange_normal]
  cases goalSource ev.data with
  | none => rfl
  | some source => simp only [Option.map_some, round]

/-- A log read back from its file folds to the same state. -/
theorem replay_readBack (log : List Event) : replay (log.map Event.readBack) = replay log := by
  simp only [replay, List.foldl_map, drive_readBack]

section
variable {cell : ProjectionCell GoalProjectionState}

/-- The store's cell of the goal is driven event by event. -/
theorem drive_cell (spec : cell.spec = goalProjection) (id : SessionId) (ev : Event) :
    (cell.drive id ev).2 = none ∧ (cell.drive id ev).1.spec = goalProjection ∧
      (cell.drive id ev).1.cells.find? id = (cell.cells.find? id).map (·.drive ev) := by
  unfold ProjectionCell.drive GoalProjectionState.drive
  rw [spec]
  cases accepted : goalProjection.accepts ev.type with
  | false => simp [spec]
  | true =>
      cases found : cell.cells.find? id with
      | none => simp [spec, found]
      | some state => exact ⟨rfl, rfl, by simp⟩

theorem replay_cell (spec : cell.spec = goalProjection) (id : SessionId) (log : List Event) :
    (cell.replay id log).1.cells.find? id = (cell.cells.find? id).map fun state =>
      log.foldl GoalProjectionState.drive state := by
  induction log generalizing cell with
  | nil => simp [ProjectionCell.replay]
  | cons ev rest ih =>
      obtain ⟨quiet, kept, driven⟩ := drive_cell spec id ev
      rw [ProjectionCell.replay]
      generalize cell.drive id ev = r at quiet kept driven
      obtain ⟨cell', threw⟩ := r
      cases quiet
      simp only at kept driven ⊢
      rw [ih kept, driven, Option.map_map]
      rfl

/-- A session entered after the projection was registered has the fold of its log. -/
theorem seed_cell (spec : cell.spec = goalProjection) (header : Header) (log : List Event)
    (blank : cell.cells.contains header.id = false) :
    (cell.seed header log).1.cells.find? header.id = some (replay log) := by
  have init : cell.spec.init header = .ok {} := by rw [spec]; rfl
  have entered : { cell with cells := cell.cells.insert header.id {} }.spec = goalProjection := spec
  simp only [ProjectionCell.seed, init, blank]
  rw [if_neg (by simp), replay_cell entered]
  simp [replay]

end

end Araya.Goals
