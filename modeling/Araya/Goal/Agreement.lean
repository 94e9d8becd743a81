import Araya.Goal.Service
import Araya.Util.Machine

/-!
The service and the projection agree. The service checks a mutation before it commits
it, the projection checks the event again when it folds it, and neither refuses what
the other lets pass.
-/

namespace Araya.Goals
open Sessions

/-! What a change says -/

/-- A snapshot that the decoder takes as it is. -/
structure GoalSnapshot.Valid (goal : GoalSnapshot) : Prop where
  id : goal.id ≠ ""
  objective : goal.objective ≠ ""
  normalized : trim goal.objective = goal.objective
  revision : 1 ≤ goal.revision
  rounds : 1 ≤ goal.maxGoalRounds
  reason : goal.phase = .blocked ↔ goal.blockedReason.isSome
  worded : ∀ r ∈ goal.blockedReason, r.code ≠ "" ∧ r.message ≠ "" ∧ trim r.message = r.message

@[simp] theorem phaseOf_name (phase : GoalPhase) : phaseOf (goalPhaseName phase) = some phase := by
  cases phase <;> rfl

@[simp] theorem operationOf_name (operation : OperationKind) :
    operationOf (operationName operation) = some operation := by
  cases operation <;> rfl

theorem decodeReason_json {object : Json.Members} {r : GoalBlockReason}
    (member : Json.objectField object "blockedReason" = some [("code", .str r.code), ("message", .str r.message)])
    (worded : r.code ≠ "" ∧ r.message ≠ "" ∧ trim r.message = r.message) : decodeReason object = .ok r := by
  obtain ⟨code, filled, normal⟩ := worded
  simp [decodeReason, member, need, Json.stringField, nonEmpty_some, code, normal, filled, Option.filter, bind,
    Except.bind]

theorem decodeSnapshot_json {goal : GoalSnapshot} (valid : goal.Valid) :
    decodeSnapshot (snapshotJson goal) = .ok goal := by
  obtain ⟨id, objective, normalized, revision, rounds, reason, worded⟩ := valid
  cases goal with
  | mk gid grevision gobjective gphase gblocked grounds =>
      simp only at id objective normalized revision rounds reason worded
      cases gblocked with
      | none =>
          have open_ : gphase ≠ .blocked := fun h => by simpa using reason.mp h
          simp [decodeSnapshot, snapshotJson, reasonMember, need, Json.stringField, Json.optUintField, Json.optUint,
            nonEmpty_some, id, normalized, objective, revision, rounds, open_, Option.filter, bind, Except.bind]
      | some r =>
          have closed : gphase = .blocked := reason.mpr rfl
          have member : Json.objectField (snapshotJson
              { id := gid, revision := grevision, objective := gobjective, phase := gphase, blockedReason := some r,
                maxGoalRounds := grounds }) "blockedReason" =
              some [("code", .str r.code), ("message", .str r.message)] := by
            simp [snapshotJson, reasonMember, Json.objectField]
          have decoded := decodeReason_json member (worded r rfl)
          simp only [snapshotJson, reasonMember, Option.map_some, Option.toList_some] at decoded
          simp [decodeSnapshot, snapshotJson, reasonMember, need, Json.stringField, Json.optUintField, Json.optUint,
            nonEmpty_some, id, normalized, objective, revision, rounds, closed, Option.filter, bind, Except.bind]
          simp_all [Except.map]

theorem decodeChange_snapshot {operation : OperationKind} {goal : GoalSnapshot} {roundsStarted : Nat}
    {createdAt updatedAt : Int} (inner : operation ≠ .clear) (valid : goal.Valid) (created : 0 ≤ createdAt)
    (updated : createdAt ≤ updatedAt) :
    decodeChange (snapshotChange operation goal roundsStarted createdAt updatedAt) =
      .ok { operation, goal, roundsStarted, createdAt, updatedAt } := by
  have later : 0 ≤ updatedAt := le_trans created updated
  simp [decodeChange, snapshotChange, need, ensure, Json.stringField, Json.objectField, Json.optUintField,
    Json.optIntField, Json.optUint, Json.optInt, inner, decodeSnapshot_json valid, created, updated, later,
    Option.filter, bind, Except.bind]

theorem decodeChange_clear {tombstone : GoalRef} {clearedAt : Int} (id : tombstone.id ≠ "")
    (revision : 1 ≤ tombstone.revision) (cleared : 0 ≤ clearedAt) :
    decodeChange (clearChange tombstone clearedAt) =
      .ok { operation := .clear, cleared := tombstone, clearedAt } := by
  simp [decodeChange, decodeCleared, clearChange, operationOf, need, ensure, Json.stringField, Json.objectField,
    Json.optUintField, Json.optIntField, Json.optUint, Json.optInt, nonEmpty_some, id, revision, cleared,
    Option.filter, bind, Except.bind]

/-! What an operation commits -/

namespace GoalOp

def ref? : GoalOp → Option GoalRef
  | .create _ _ => none
  | .edit ref _ _ | .pause ref | .resume ref | .complete ref | .block ref _ | .clear ref => some ref

/-- The phases an operation starts from. -/
def StartsFrom : GoalOp → GoalPhase → Prop
  | .create _ _, phase => phase = .complete
  | .edit _ _ _, _ | .clear _, _ => True
  | .pause _, phase | .block _ _, phase => phase = .active
  | .resume _, phase | .complete _, phase => phase ≠ .complete

/-- The reference is the current one and the phase is one the operation starts from; a
goal is created where there is none in the way. -/
def Legal (op : GoalOp) (state : GoalProjectionState) : Prop :=
  match op.ref? with
  | none => ∀ goal ∈ state.current, op.StartsFrom goal.phase
  | some ref => ∃ goal, state.current = some goal ∧ ref = goal.ref ∧ op.StartsFrom goal.phase

end GoalOp

/-- The changes that the operations commit where the state is `state`. -/
inductive Commits (s : GoalSession) (state : GoalProjectionState) (draws : Draws) : GoalOp → Change → Prop where
  | create {objective : String} {maxRounds : Option Nat} (text : trim objective ≠ "")
      (cap : 1 ≤ maxRounds.getD s.defaultMaxGoalRounds) :
      Commits s state draws (.create objective maxRounds)
        { data := snapshotChange .create
            { id := mintGoalId draws, objective := trim objective, maxGoalRounds := maxRounds.getD s.defaultMaxGoalRounds }
            0 draws.now draws.now
          activation := .armed }
  | current {op : GoalOp} {operation : OperationKind} {goal next : GoalSnapshot} {activation : GoalActivation}
      (now : state.current = some goal) (id : next.id = goal.id) (revision : next.revision = goal.revision + 1)
      (inner : operation ≠ .create ∧ operation ≠ .clear)
      (transition : checkTransition state operation goal next = .ok ()) (valid : goal.Valid → next.Valid) :
      Commits s state draws op { data := currentChange state operation next draws.now, activation }
  | clear {ref : GoalRef} {goal : GoalSnapshot} (now : state.current = some goal) :
      Commits s state draws (.clear ref)
        { data := clearChange ⟨goal.id, goal.revision + 1⟩ (max draws.now state.updatedAt)
          activation := .disarmed
          tombstone := some ⟨goal.id, goal.revision + 1⟩ }

theorem of_require {b : Bool} {message : String} {code : GoalErrorCode} {u : Unit}
    (h : require b message code = .ok u) : b = true := by
  unfold require at h
  split at h
  · next hb => exact hb
  · cases h

section
variable {s : GoalSession} {state : GoalProjectionState} {goal : GoalSnapshot} {draws : Draws} {ref : GoalRef}
  {op : GoalOp} {c : Change}

theorem expectState_ok (h : s.expectState = .ok state) : s.state = some state ∧ state.failure = none := by
  unfold GoalSession.expectState at h
  cases hs : s.state with
  | none => simp [hs] at h
  | some x =>
      cases hf : x.failure with
      | none =>
          simp only [hs, hf, Except.ok.injEq] at h
          subst h
          exact ⟨rfl, hf⟩
      | some what => simp [hs, hf] at h

theorem expectCurrentGoal_ok (h : s.expectCurrentGoal ref = .ok (state, goal)) :
    s.state = some state ∧ state.failure = none ∧ state.current = some goal ∧ ref = goal.ref := by
  obtain ⟨_, _, h⟩ := except_bind h
  obtain ⟨x, hx, h⟩ := except_bind h
  obtain ⟨y, hy, h⟩ := except_bind h
  cases h
  obtain ⟨folded, healthy⟩ := expectState_ok hx
  unfold GoalSession.expectCurrent at hy
  cases hc : state.current with
  | none => simp [hc] at hy
  | some z =>
      simp only [hc] at hy
      split at hy
      · next same =>
          cases hy
          exact ⟨folded, healthy, rfl, same⟩
      · cases hy

theorem withPhase_valid {phase : GoalPhase} (open_ : phase ≠ .blocked) (valid : goal.Valid) :
    (GoalSession.withPhase goal phase).Valid where
  id := valid.id
  objective := valid.objective
  normalized := valid.normalized
  revision := Nat.le_add_left 1 goal.revision
  rounds := valid.rounds
  reason := ⟨fun h => absurd h open_, fun h => by cases h⟩
  worded := fun r hr => by cases hr

theorem create_cases {objective : String} {maxRounds : Option Nat}
    (h : s.create draws objective maxRounds = .ok c) : ∃ state, s.state = some state ∧ state.failure = none ∧
      (GoalOp.create objective maxRounds).Legal state ∧ Commits s state draws (.create objective maxRounds) c := by
  obtain ⟨_, _, h⟩ := except_bind h
  obtain ⟨_, text, h⟩ := except_bind h
  obtain ⟨_, cap, h⟩ := except_bind h
  obtain ⟨state, hs, h⟩ := except_bind h
  obtain ⟨_, free, h⟩ := except_bind h
  cases h
  obtain ⟨folded, healthy⟩ := expectState_ok hs
  have text := of_require text
  have cap := of_require cap
  have free := of_require free
  refine ⟨state, folded, healthy, fun goal hg => ?_, .create (by simpa using text) (by simpa using cap)⟩
  rw [Option.mem_def.mp hg] at free
  exact (by simpa using free : goal.phase = .complete)

theorem edit_cases {objective : Option String} {maxRounds : Option Nat}
    (h : s.edit draws ref objective maxRounds = .ok c) : ∃ state, s.state = some state ∧ state.failure = none ∧
      (GoalOp.edit ref objective maxRounds).Legal state ∧
        Commits s state draws (.edit ref objective maxRounds) c := by
  obtain ⟨⟨state, goal⟩, hs, h⟩ := except_bind h
  obtain ⟨_, _, h⟩ := except_bind h
  obtain ⟨_, text, h⟩ := except_bind h
  obtain ⟨_, cap, h⟩ := except_bind h
  cases h
  obtain ⟨folded, healthy, now, same⟩ := expectCurrentGoal_ok hs
  refine ⟨state, folded, healthy, ⟨goal, now, same, trivial⟩, .current now rfl rfl (by simp) ?_ fun valid => ?_⟩
  · simp [checkTransition, ensure]
  · refine ⟨valid.id, ?_, ?_, Nat.le_add_left 1 goal.revision, ?_, valid.reason, valid.worded⟩
    · cases objective with
      | none => exact valid.objective
      | some text' => simpa using of_require text
    · cases objective with
      | none => exact valid.normalized
      | some text' => exact trim_trim text'
    · cases maxRounds with
      | none => exact valid.rounds
      | some cap' => simpa using of_require cap

theorem pause_cases (h : s.pause draws ref = .ok c) : ∃ state, s.state = some state ∧ state.failure = none ∧
    (GoalOp.pause ref).Legal state ∧ Commits s state draws (.pause ref) c := by
  obtain ⟨⟨state, goal⟩, hs, h⟩ := except_bind h
  obtain ⟨_, phase, h⟩ := except_bind h
  cases h
  obtain ⟨folded, healthy, now, same⟩ := expectCurrentGoal_ok hs
  have phase : goal.phase = .active := by simpa using of_require phase
  refine ⟨state, folded, healthy, ⟨goal, now, same, phase⟩, .current now rfl rfl (by simp) ?_ ?_⟩
  · simp [checkTransition, requireSameDefinition, ensure, phase, GoalSession.withPhase, bind, Except.bind]
  · exact withPhase_valid (by simp)

theorem resume_cases (h : s.resume draws ref = .ok c) : ∃ state, s.state = some state ∧ state.failure = none ∧
    (GoalOp.resume ref).Legal state ∧ Commits s state draws (.resume ref) c := by
  obtain ⟨⟨state, goal⟩, hs, h⟩ := except_bind h
  obtain ⟨_, phase, h⟩ := except_bind h
  obtain ⟨_, _, h⟩ := except_bind h
  obtain ⟨_, budget, h⟩ := except_bind h
  cases h
  obtain ⟨folded, healthy, now, same⟩ := expectCurrentGoal_ok hs
  have phase : goal.phase ≠ .complete := by simpa using of_require phase
  have budget : state.roundsStarted < goal.maxGoalRounds := by simpa using of_require budget
  refine ⟨state, folded, healthy, ⟨goal, now, same, phase⟩, .current now rfl rfl (by simp) ?_ ?_⟩
  · simp [checkTransition, requireSameDefinition, ensure, phase, budget, GoalSession.withPhase, bind, Except.bind]
  · exact withPhase_valid (by simp)

theorem complete_cases (h : s.complete draws ref = .ok c) : ∃ state, s.state = some state ∧ state.failure = none ∧
    (GoalOp.complete ref).Legal state ∧ Commits s state draws (.complete ref) c := by
  obtain ⟨⟨state, goal⟩, hs, h⟩ := except_bind h
  obtain ⟨_, phase, h⟩ := except_bind h
  cases h
  obtain ⟨folded, healthy, now, same⟩ := expectCurrentGoal_ok hs
  have phase : goal.phase ≠ .complete := by simpa using of_require phase
  refine ⟨state, folded, healthy, ⟨goal, now, same, phase⟩, .current now rfl rfl (by simp) ?_ ?_⟩
  · simp [checkTransition, requireSameDefinition, ensure, phase, GoalSession.withPhase, bind, Except.bind]
  · exact withPhase_valid (by simp)

theorem block_cases {reason : GoalBlockReason} (h : s.block draws ref reason = .ok c) : ∃ state,
    s.state = some state ∧ state.failure = none ∧ (GoalOp.block ref reason).Legal state ∧
      Commits s state draws (.block ref reason) c := by
  obtain ⟨⟨state, goal⟩, hs, h⟩ := except_bind h
  obtain ⟨_, phase, h⟩ := except_bind h
  obtain ⟨_, worded, h⟩ := except_bind h
  cases h
  obtain ⟨folded, healthy, now, same⟩ := expectCurrentGoal_ok hs
  have phase : goal.phase = .active := by simpa using of_require phase
  have worded : trim reason.code ≠ "" ∧ trim reason.message ≠ "" := by simpa using of_require worded
  refine ⟨state, folded, healthy, ⟨goal, now, same, phase⟩, .current now rfl rfl (by simp) ?_ fun valid => ?_⟩
  · simp [checkTransition, requireSameDefinition, ensure, phase, GoalSession.withPhase, bind, Except.bind]
  · refine ⟨valid.id, valid.objective, valid.normalized, Nat.le_add_left 1 goal.revision, valid.rounds, ?_, ?_⟩
    · simp [GoalSession.withPhase]
    · rintro r ⟨⟩
      exact ⟨worded.1, worded.2, trim_trim _⟩

theorem clear_cases (h : s.clear draws ref = .ok c) : ∃ state, s.state = some state ∧ state.failure = none ∧
    (GoalOp.clear ref).Legal state ∧ Commits s state draws (.clear ref) c := by
  obtain ⟨⟨state, goal⟩, hs, h⟩ := except_bind h
  cases h
  obtain ⟨folded, healthy, now, same⟩ := expectCurrentGoal_ok hs
  exact ⟨state, folded, healthy, ⟨goal, now, same, trivial⟩, .clear now⟩

/-- An operation that commits was legal, and commits one of these changes. -/
theorem change_cases (h : s.change draws op = .ok c) : ∃ state, s.state = some state ∧ state.failure = none ∧
    op.Legal state ∧ Commits s state draws op c := by
  cases op with
  | create objective maxRounds => exact create_cases h
  | edit ref objective maxRounds => exact edit_cases h
  | pause ref => exact pause_cases h
  | resume ref => exact resume_cases h
  | complete ref => exact complete_cases h
  | block ref reason => exact block_cases h
  | clear ref => exact clear_cases h

end

/-! What the fold makes of it -/

/-- A fold that has not failed, with a valid goal of its own. -/
structure Shaped (state : GoalProjectionState) : Prop where
  healthy : state.failure = none
  valid : ∀ goal ∈ state.current, goal.Valid
  seen : ∀ goal ∈ state.current, goal.id ∈ state.seenIds
  created : 0 ≤ state.createdAt
  updated : state.createdAt ≤ state.updatedAt

/-- The revision of a goal, zero when it is not the current one. -/
def revisionOf (state : GoalProjectionState) (id : String) : Nat :=
  (state.current.filter (·.id == id)).elim 0 (·.revision)

/-- The clock stands after the epoch and the identity drawn is a new one. -/
def Drawn (state : GoalProjectionState) (draws : Draws) : GoalOp → Prop
  | .create _ _ => 0 ≤ draws.now ∧ mintGoalId draws ∉ state.seenIds
  | _ => True

/-- The change is folded to `state'`, which holds what it says. -/
structure Folds (state : GoalProjectionState) (c : Change) (state' : GoalProjectionState) : Prop where
  accepted : ∃ change, decodeChange c.data = .ok change ∧ applyChange state change = .ok state'
  shaped : Shaped state'
  held : c.tombstone = none → state'.current.isSome
  cleared : ∀ ref ∈ c.tombstone, state'.current = none ∧ state'.lastRef = some ref
  advanced : ∃ ref, state'.lastRef = some ref ∧ ref.revision = revisionOf state ref.id + 1

theorem shaped_start : Shaped {} :=
  ⟨rfl, fun _ h => (by cases h), fun _ h => (by cases h), le_rfl, le_rfl⟩

theorem mintGoalId_filled (draws : Draws) : mintGoalId draws ≠ "" := by
  intro h
  have := congrArg String.length h
  simp [mintGoalId, mintId] at this

section
variable {s : GoalSession} {state : GoalProjectionState} {draws : Draws} {op : GoalOp} {c : Change}

theorem Shaped.takeSnapshot (shaped : Shaped state) {change : DecodedChange} (valid : change.goal.Valid)
    (seen : change.goal.id ∈ state.seenIds) (created : 0 ≤ change.createdAt)
    (updated : change.createdAt ≤ change.updatedAt) : Shaped (takeSnapshot state change) where
  healthy := shaped.healthy
  valid := fun goal hg => by cases hg; exact valid
  seen := fun goal hg => by cases hg; exact seen
  created := created
  updated := updated

theorem create_folds (shaped : Shaped state) {text : String} {cap : Nat} (filled : trim text ≠ "") (capped : 1 ≤ cap)
    (free : ∀ goal ∈ state.current, goal.phase = .complete)
    (now : 0 ≤ draws.now) (fresh : mintGoalId draws ∉ state.seenIds) :
    ∃ state', Folds state
      { data := snapshotChange .create { id := mintGoalId draws, objective := trim text, maxGoalRounds := cap } 0
          draws.now draws.now
        activation := .armed } state' := by
  have valid : GoalSnapshot.Valid { id := mintGoalId draws, objective := trim text, maxGoalRounds := cap } :=
    ⟨mintGoalId_filled draws, filled, trim_trim text, le_rfl, capped, by simp, fun _ hr => by cases hr⟩
  let change : DecodedChange := {
    operation := .create
    goal := { id := mintGoalId draws, objective := trim text, maxGoalRounds := cap }
    createdAt := draws.now
    updatedAt := draws.now }
  have decoded : decodeChange (snapshotChange .create change.goal 0 draws.now draws.now) = .ok change :=
    decodeChange_snapshot (by simp) valid now le_rfl
  have past : state.current.all (fun current => current.phase == .complete) = true := by
    cases hc : state.current with
    | none => rfl
    | some goal => simpa using free goal hc
  have unseen : revisionOf state (mintGoalId draws) = 0 := by
    unfold revisionOf
    cases hc : state.current with
    | none => rfl
    | some goal =>
        have other : goal.id ≠ mintGoalId draws := fun h => fresh (h ▸ shaped.seen goal hc)
        simp [Option.filter, other]
  have grown : Shaped { state with seenIds := state.seenIds ++ [mintGoalId draws] } :=
    ⟨shaped.healthy, shaped.valid, fun goal hg => List.mem_append_left _ (shaped.seen goal hg), shaped.created,
      shaped.updated⟩
  have seen : mintGoalId draws ∈ state.seenIds ++ [mintGoalId draws] := by simp
  refine ⟨takeSnapshot { state with seenIds := state.seenIds ++ [mintGoalId draws] } change,
    ⟨_, decoded, ?_⟩, grown.takeSnapshot valid seen now le_rfl, fun _ => rfl, fun _ h => (by cases h), _, rfl, ?_⟩
  · simp [change, applyChange, createGoal, ensure, fresh, past, bind, Except.bind]
  · exact congrArg (· + 1) unseen.symm

theorem revisionOf_current {goal : GoalSnapshot} (now : state.current = some goal) :
    revisionOf state goal.id = goal.revision := by
  simp [revisionOf, now, Option.filter]

theorem applyChange_inner {change : DecodedChange} (create : change.operation ≠ .create)
    (clear : change.operation ≠ .clear) : applyChange state change = advanceGoal state change := by
  unfold applyChange
  cases h : change.operation with
  | create => exact absurd h create
  | clear => exact absurd h clear
  | _ => rfl

theorem current_folds (shaped : Shaped state) {operation : OperationKind} {goal next : GoalSnapshot}
    {activation : GoalActivation} {clock : Int} (now : state.current = some goal) (id : next.id = goal.id)
    (revision : next.revision = goal.revision + 1) (inner : operation ≠ .create ∧ operation ≠ .clear)
    (transition : checkTransition state operation goal next = .ok ()) (valid : next.Valid) :
    ∃ state', Folds state { data := currentChange state operation next clock, activation } state' := by
  have later : state.createdAt ≤ max clock state.updatedAt := le_trans shaped.updated (le_max_right _ _)
  let change : DecodedChange := {
    operation
    goal := next
    roundsStarted := state.roundsStarted
    createdAt := state.createdAt
    updatedAt := max clock state.updatedAt }
  have decoded : decodeChange (currentChange state operation next clock) = .ok change :=
    decodeChange_snapshot inner.2 valid shaped.created later
  have seen : next.id ∈ state.seenIds := id ▸ shaped.seen goal now
  refine ⟨takeSnapshot state change, ⟨_, decoded, ?_⟩, shaped.takeSnapshot valid seen shaped.created later,
    fun _ => rfl, fun _ h => (by cases h), _, rfl, ?_⟩
  · rw [applyChange_inner inner.1 inner.2]
    simp [change, advanceGoal, need, ensure, now, id, revision, transition, bind, Except.bind]
  · simp only [change, GoalSnapshot.ref]
    rw [id, revisionOf_current now, revision]

theorem clear_folds (shaped : Shaped state) {goal : GoalSnapshot} {clock : Int} (now : state.current = some goal) :
    ∃ state', Folds state
      { data := clearChange ⟨goal.id, goal.revision + 1⟩ (max clock state.updatedAt)
        activation := .disarmed
        tombstone := some ⟨goal.id, goal.revision + 1⟩ } state' := by
  have later : 0 ≤ max clock state.updatedAt :=
    le_trans (le_trans shaped.created shaped.updated) (le_max_right _ _)
  have named : (⟨goal.id, goal.revision + 1⟩ : GoalRef).id ≠ "" := (shaped.valid goal now).id
  have decoded := decodeChange_clear named (Nat.le_add_left 1 goal.revision) later
  refine ⟨{ state with
      current := none
      roundsStarted := 0
      createdAt := 0
      updatedAt := 0
      lastRef := some ⟨goal.id, goal.revision + 1⟩ }, ⟨_, decoded, ?_⟩,
    ⟨shaped.healthy, fun _ h => (by cases h), fun _ h => (by cases h), le_rfl, le_rfl⟩, fun h => (by cases h),
    fun ref h => (by cases h; exact ⟨rfl, rfl⟩), _, rfl, ?_⟩
  · simp [applyChange, clearGoal, need, ensure, now, bind, Except.bind]
  · rw [revisionOf_current now]

/-- What the service lets pass the projection folds. -/
theorem commits_folds (shaped : Shaped state) (legal : op.Legal state) (drawn : Drawn state draws op)
    (h : Commits s state draws op c) : ∃ state', Folds state c state' := by
  cases h with
  | create text cap => exact create_folds shaped text cap legal drawn.1 drawn.2
  | current now id revision inner transition valid =>
      exact current_folds shaped now id revision inner transition (valid (shaped.valid _ now))
  | clear now => exact clear_folds shaped now

end

/-! Runs -/

inductive GoalAct where
  | op (op : GoalOp) (draws : Draws) (time : Int)
  | disarm
  | forget
  | reopen (cut : Nat) (live projected : Bool)

namespace GoalLog

def next (g : GoalLog) : GoalAct → GoalLog
  | .op op draws time => (g.run draws time op).1
  | .disarm => g.disarm
  | .forget => g.forget
  | .reopen cut live projected => g.reopen cut live projected

/-- Each creation draws from a clock past the epoch and mints a new identity. -/
def Timely (g : GoalLog) : GoalAct → Prop
  | .op op draws _ => ∀ state ∈ g.session.state, Drawn state draws op
  | _ => True

/-- The projection's state is the fold of the log, and the fold of every prefix is shaped. -/
structure Sound (g : GoalLog) : Prop where
  folded : ∀ state ∈ g.session.state, state = replay g.log
  shaped : ∀ cut, Shaped (replay (g.log.take cut))

end GoalLog

/-- A session whose log only the service writes. -/
def goalSystem : System GoalLog GoalAct where
  start g := g.log = [] ∧ ∀ state ∈ g.session.state, state = {}
  step g a g' := g' = g.next a

/-- The folded state is the one that the reply shows. -/
def Reply.Agrees (state : GoalProjectionState) : Reply → Prop
  | .view v => state.current = some
      { id := v.id, revision := v.revision, objective := v.objective, phase := v.phase,
        blockedReason := v.blockedReason, maxGoalRounds := v.maxGoalRounds } ∧
      state.roundsStarted = v.roundsStarted ∧ state.createdAt = v.createdAt ∧ state.updatedAt = v.updatedAt
  | .tombstone ref => state.current = none ∧ state.lastRef = some ref

/-- The operation appended one event, and its replay takes it. -/
structure Accepted (g : GoalLog) (op : GoalOp) (g' : GoalLog) (reply : Reply) : Prop where
  legal : op.Legal (replay g.log)
  appended : ∃ ev change, g'.log = g.log ++ [ev] ∧ ev.type = "goal/change" ∧ decodeChange ev.data = .ok change ∧
    applyChange (replay g.log) change = .ok (replay g'.log)
  agrees : reply.Agrees (replay g'.log)
  advanced : ∃ ref, (replay g'.log).lastRef = some ref ∧ ref.revision = revisionOf (replay g.log) ref.id + 1

/-- How an operation ends: the fold has not failed, and it is accepted or appends nothing. -/
structure Agreement (g : GoalLog) (op : GoalOp) (g' : GoalLog) (result : Except GoalError Reply) : Prop where
  healthy : (replay g'.log).failure = none
  folded : ∀ state ∈ g'.session.state, state = replay g'.log
  accepted : ∀ reply, result = .ok reply → Accepted g op g' reply
  rejected : ∀ e, result = .error e → g'.log = g.log
  illegal : ¬ op.Legal (replay g.log) → g'.log = g.log ∧ ∃ e, result = .error e

section
variable {g : GoalLog} {op : GoalOp} {draws : Draws} {time : Int} {c : Change}
  {state state' : GoalProjectionState}

theorem Folds.drive (folds : Folds state c state') (healthy : state.failure = none) (g : GoalLog) (time : Int) :
    state.drive (g.changeEvent c.data time) = state' := by
  obtain ⟨change, decoded, applied⟩ := folds.accepted
  rw [GoalProjectionState.drive_change rfl healthy]
  simp [GoalLog.changeEvent, decoded, applied, bind, Except.bind, GoalProjectionState.settle]

theorem Folds.agrees (folds : Folds state c state') :
    (c.tombstone.elim (Reply.view (viewOf state' c.activation)) .tombstone).Agrees state' := by
  cases ht : c.tombstone with
  | none =>
      obtain ⟨goal, hg⟩ := Option.isSome_iff_exists.mp (folds.held ht)
      simp [Reply.Agrees, viewOf, hg]
  | some ref => exact folds.cleared ref ht

theorem GoalLog.Sound.now (sound : g.Sound) : Shaped (replay g.log) := by
  simpa using sound.shaped g.log.length

theorem GoalLog.Sound.run (sound : g.Sound) (timely : g.Timely (.op op draws time)) :
    (g.run draws time op).1.Sound ∧ Agreement g op (g.run draws time op).1 (g.run draws time op).2 := by
  unfold GoalLog.run
  cases hc : g.session.change draws op with
  | error e =>
      exact ⟨sound, sound.now.healthy, sound.folded, fun _ h => (by cases h), fun _ _ => rfl,
        fun _ => ⟨rfl, e, rfl⟩⟩
  | ok c =>
      obtain ⟨state, hs, _, legal, commits⟩ := change_cases hc
      obtain rfl := sound.folded state hs
      obtain ⟨state', folds⟩ := commits_folds sound.now legal (timely _ hs) commits
      have driven := folds.drive sound.now.healthy g time
      have folded : replay (g.commit c time).log = state' := (replay_append _ _).trans driven
      have kept : (g.commit c time).session.state = some state' := by
        simp [GoalLog.commit, hs, driven]
      have reply : (g.commit c time).reply c =
          .ok (c.tombstone.elim (Reply.view (viewOf state' c.activation)) .tombstone) := by
        simp [GoalLog.reply, GoalSession.expectState, kept, folds.shaped.healthy, Except.map]
      have same : ∀ x ∈ (g.commit c time).session.state, x = replay (g.commit c time).log := by
        intro x hx
        rw [kept] at hx
        cases hx
        exact folded.symm
      refine ⟨⟨same, fun cut => ?_⟩, ?_, same, fun r hr => ?_, fun e he => ?_, fun h => absurd legal h⟩
      · by_cases within : cut ≤ g.log.length
        · have prefix_ : (g.commit c time).log.take cut = g.log.take cut := List.take_append_of_le_length within
          rw [prefix_]
          exact sound.shaped cut
        · have all : (g.commit c time).log.take cut = (g.commit c time).log :=
            List.take_of_length_le (by simp [GoalLog.commit]; omega)
          rw [all, folded]
          exact folds.shaped
      · rw [folded]
        exact folds.shaped.healthy
      · cases reply.symm.trans hr
        obtain ⟨change, decoded, applied⟩ := folds.accepted
        refine ⟨legal, ⟨g.changeEvent c.data time, change, rfl, rfl, decoded, ?_⟩, ?_, ?_⟩
        · rw [folded]
          exact applied
        · rw [folded]
          exact folds.agrees
        · rw [folded]
          exact folds.advanced
      · cases reply.symm.trans he

theorem GoalLog.Sound.next (sound : g.Sound) {a : GoalAct} (timely : g.Timely a) : (g.next a).Sound := by
  cases a with
  | op op draws time => exact (sound.run timely).1
  | disarm =>
      simp only [GoalLog.next, GoalLog.disarm]
      split
      · exact ⟨sound.folded, sound.shaped⟩
      · exact sound
  | forget => exact ⟨sound.folded, sound.shaped⟩
  | reopen cut live projected =>
      refine ⟨fun state hs => ?_, fun cut' => ?_⟩
      · simp only [GoalLog.next, GoalLog.reopen] at hs
        split at hs
        · cases hs
          rfl
        · cases hs
      · simp only [GoalLog.next, GoalLog.reopen, List.take_take]
        exact sound.shaped _

/-- Whatever the service was asked before, the next operation and its replay agree. -/
theorem goal_service_agrees (reached : goalSystem.Reached (fun g a => g.Timely a) g)
    (timely : g.Timely (.op op draws time)) :
    Agreement g op (g.run draws time op).1 (g.run draws time op).2 := by
  have sound : g.Sound := by
    refine reached.invariant (I := GoalLog.Sound) ?_ ?_
    · rintro g ⟨empty, blank⟩
      refine ⟨fun state hs => ?_, fun cut => ?_⟩
      · rw [empty]
        exact blank state hs
      · rw [empty, List.take_nil]
        exact shaped_start
    · rintro g a g' _ sound rfl timely
      exact sound.next timely
  exact (sound.run timely).2

end

def shipped : GoalLog := ({ session := { id := "s" } } : GoalLog).next (.op (.create " ship " none) { now := 5 } 5)

/-- A goal is created and its objective edited. -/
theorem goal_service_agrees_edited :
    (shipped.run { now := 3 } 6 (.edit ⟨mintGoalId { now := 5 }, 1⟩ (some "ship it") none)).2.toBool = true ∧
      Agreement shipped (.edit ⟨mintGoalId { now := 5 }, 1⟩ (some "ship it") none)
        (shipped.run { now := 3 } 6 (.edit ⟨mintGoalId { now := 5 }, 1⟩ (some "ship it") none)).1
        (shipped.run { now := 3 } 6 (.edit ⟨mintGoalId { now := 5 }, 1⟩ (some "ship it") none)).2 := by
  have timely : ({ session := { id := "s" } } : GoalLog).Timely (.op (.create " ship " none) { now := 5 } 5) := by
    rintro state ⟨⟩
    exact ⟨by decide, by simp⟩
  have reached : goalSystem.Reached (fun g a => g.Timely a) shipped :=
    .step (.start ⟨rfl, fun state (hs : some {} = some state) => by cases hs; rfl⟩) rfl timely
  exact ⟨by decide +kernel, goal_service_agrees reached fun _ _ => trivial⟩

end Araya.Goals
