import Araya.Agent.Conservation
import Araya.Goal.Rounds

/-!
The round budget. The driver counts its rounds in the projection, where a round enters
with its message; a turn that ends before that leaves the count as it was, and at the
next idle boundary the driver queues the same round again.
-/

namespace Araya.Goals
open Agent

/-- The tools of the goal leave these to a turn that a human has asked for. -/
def GoalOp.byUser : GoalOp → Bool
  | .complete _ | .block _ _ => false
  | _ => true

/-- The message is a round of the goal `id`. -/
def names (id : String) (message : Json) : Bool :=
  (goalSource message).any fun source => Json.stringField source "goalId" == some id

def failsTurn : LoopEvent → Bool
  | .turnEnd _ reason _ => reason == .error || reason == .maxTokens
  | _ => false

/-- The loop with the turns that its driver listens for; `queued` are the rounds that the
driver has handed over since the user's last operation. -/
structure RoundRun where
  loop : GoalLoop
  queued : List Json := []

namespace RoundRun

/-- The listener of `turn/end`. -/
def heard (before after : GoalLoop) : GoalLoop :=
  if (after.world.log.drop before.world.log.length).any failsTurn then after.disarm else after

def queuedBy (r : RoundRun) : GoalLoopAct → List Json
  | .operate op draws => if op.byUser && (r.loop.session.change draws op).toBool then [] else r.queued
  | .send false => r.queued ++ r.loop.planned.toList
  | _ => r.queued

def next (r : RoundRun) (a : GoalLoopAct) : Option RoundRun :=
  (r.loop.next a).map fun g => { loop := heard r.loop g, queued := r.queuedBy a }

/-- The rounds of a goal that the driver has handed over or is about to. -/
def rounds (r : RoundRun) (id : String) : List Json := (r.queued ++ r.loop.planned.toList).filter (names id)

/-- The driver plans a round only once the last one it queued for the goal is in the log. -/
def Recorded (r : RoundRun) : GoalLoopAct → Prop
  | .plan _ => ∀ goal ∈ r.loop.armedGoal, ∀ m ∈ (r.queued.filter (names goal.id)).getLast?,
      m ∈ admitted r.loop.world.log
  | _ => True

end RoundRun

def roundRuns : System RoundRun GoalLoopAct where
  start r := goalLoop.start r.loop ∧ r.queued = []
  step r a r' := r.next a = some r'

/-! Rounds and the log -/

/-- Each message that names a goal was its round, and the current goal has counted its own. -/
structure Counts (state : GoalProjectionState) (messages : List Json) : Prop where
  seen : ∀ goal ∈ state.current, goal.id ∈ state.seenIds
  counted : ∀ m ∈ messages, ∀ source, goalSource m = some source → ∃ r, decodeRound source = .ok r ∧
    r.goalId ∈ state.seenIds ∧ ∀ goal ∈ state.current, goal.id = r.goalId → r.round ≤ state.roundsStarted

def Roomy (state : GoalProjectionState) : Prop := ∀ goal ∈ state.current, 1 ≤ goal.maxGoalRounds

/-- The goal stays, or goes, with its budget. -/
def Stays (state state' : GoalProjectionState) : Prop :=
  ∀ goal' ∈ state'.current, ∃ goal ∈ state.current, goal.id = goal'.id ∧ goal.maxGoalRounds = goal'.maxGoalRounds

section
variable {state state' : GoalProjectionState} {messages : List Json}

theorem Stays.of_current (h : state'.current = state.current) : Stays state state' := by
  intro goal hg
  exact ⟨goal, h ▸ hg, rfl, rfl⟩

theorem Counts.change (counts : Counts state messages) {change : DecodedChange}
    (h : applyChange state change = .ok state') : Counts state' messages := by
  unfold applyChange at h
  split at h
  · obtain ⟨_, _, h⟩ := Sessions.except_bind h
    obtain ⟨_, _, h⟩ := Sessions.except_bind h
    obtain ⟨_, _, h⟩ := Sessions.except_bind h
    cases h
    refine ⟨fun _ hg => (by cases hg), fun m hm source hs => ?_⟩
    obtain ⟨r, decoded, seen, _⟩ := counts.counted m hm source hs
    exact ⟨r, decoded, seen, fun _ hg => by cases hg⟩
  · obtain ⟨_, fresh, h⟩ := Sessions.except_bind h
    cases h
    have fresh := Sessions.of_ensure fresh
    simp only [Bool.and_eq_true, Bool.not_eq_true', List.contains_eq_mem, decide_eq_false_iff_not] at fresh
    refine ⟨fun goal hg => ?_, fun m hm source hs => ?_⟩
    · cases hg
      exact List.mem_append_right _ List.mem_cons_self
    · obtain ⟨r, decoded, seen, _⟩ := counts.counted m hm source hs
      refine ⟨r, decoded, List.mem_append_left _ seen, fun goal hg same => ?_⟩
      cases hg
      exact absurd (same ▸ seen) fresh.1.2
  · obtain ⟨current, now, h⟩ := Sessions.except_bind h
    obtain ⟨_, same, h⟩ := Sessions.except_bind h
    obtain ⟨_, kept, h⟩ := Sessions.except_bind h
    obtain ⟨_, _, h⟩ := Sessions.except_bind h
    cases h
    have now := Sessions.of_need now
    have same := Sessions.of_ensure same
    have kept := Sessions.of_ensure kept
    simp only [Bool.and_eq_true, beq_iff_eq] at same kept
    refine ⟨fun goal hg => ?_, fun m hm source hs => ?_⟩
    · cases hg
      rw [same.1]
      exact counts.seen current now
    · obtain ⟨r, decoded, seen, rounds⟩ := counts.counted m hm source hs
      refine ⟨r, decoded, seen, fun goal hg named => ?_⟩
      cases hg
      simp only [takeSnapshot]
      rw [kept.2]
      exact rounds current now (same.1.symm.trans named)

theorem Counts.round (counts : Counts state messages) {message : Json} {source : Json.Members}
    (hs : goalSource message = some source) (h : applyRound state source = .ok state') :
    Counts state' (messages ++ [message]) := by
  obtain ⟨r, decoded, ⟨goal, now, _, id, _, next, _⟩, rfl⟩ := applyRound_ok h
  refine ⟨counts.seen, fun m hm source' hs' => ?_⟩
  rcases List.mem_append.mp hm with old | new
  · obtain ⟨r', decoded', seen, rounds⟩ := counts.counted m old source' hs'
    refine ⟨r', decoded', seen, fun goal' hg same => ?_⟩
    have before := rounds goal' hg same
    simp only
    omega
  · cases List.mem_singleton.mp new
    rw [hs] at hs'
    cases hs'
    exact ⟨r, decoded, id ▸ counts.seen goal now, fun _ _ _ => le_rfl⟩

theorem Counts.plain (counts : Counts state messages) {message : Json} (plain : goalSource message = none) :
    Counts state (messages ++ [message]) := by
  refine ⟨counts.seen, fun m hm source hs => ?_⟩
  rcases List.mem_append.mp hm with old | new
  · exact counts.counted m old source hs
  · cases List.mem_singleton.mp new
    rw [plain] at hs
    cases hs

theorem Counts.mono {fewer : List Json} (counts : Counts state messages) (sub : ∀ m ∈ fewer, m ∈ messages) :
    Counts state fewer :=
  ⟨counts.seen, fun m hm => counts.counted m (sub m hm)⟩

/-- What the event folds to, where the fold does not fail on it. -/
theorem Counts.drive (counts : Counts state messages) {ev : Sessions.Event} (before : state.failure = none)
    (healthy : (state.drive ev).failure = none) :
    Counts (state.drive ev) (messages ++ if ev.type = "user/message" then [ev.data] else []) := by
  by_cases change : ev.type = "goal/change"
  · rw [GoalProjectionState.drive_change change before] at healthy ⊢
    rw [if_neg (by rw [change]; decide), List.append_nil]
    cases hd : decodeChange ev.data >>= applyChange state with
    | error what => rw [hd] at healthy; cases healthy
    | ok state' =>
        obtain ⟨change, _, applied⟩ := Sessions.except_bind hd
        exact counts.change applied
  · by_cases message : ev.type = "user/message"
    · rw [GoalProjectionState.drive_message message before] at healthy ⊢
      rw [if_pos message]
      cases hs : goalSource ev.data with
      | none => exact counts.plain hs
      | some source =>
          rw [hs] at healthy
          simp only [Option.elim_some] at healthy ⊢
          cases ha : applyRound state source with
          | error what => rw [ha] at healthy; cases healthy
          | ok state' => exact counts.round hs ha
    · rw [GoalProjectionState.drive_other change message, if_neg message, List.append_nil]
      exact counts

end

/-- A fold that has not failed has counted every round of its log. -/
theorem counts_log {log : Log} (healthy : (goalOf log).failure = none) : Counts (goalOf log) (admitted log) := by
  induction log using List.reverseRecOn with
  | nil => exact ⟨fun _ h => absurd h (by simp [goalOf, replay]), fun _ h => absurd h List.not_mem_nil⟩
  | append_singleton log e ih =>
      have before : (goalOf log).failure = none := by
        by_contra failed
        rw [goalOf_failed failed] at healthy
        exact failed healthy
      rw [goalOf_append] at healthy ⊢
      refine ((ih before).drive before healthy).mono fun m hm => ?_
      rw [admitted_append] at hm
      refine (List.mem_append.mp hm).elim (List.mem_append_left _) fun last => List.mem_append_right _ ?_
      cases e with
      | userMessage data => exact last
      | _ => exact absurd last List.not_mem_nil

/-! The budget of the goal -/

theorem decodeSnapshot_roomy {object : Json.Members} {goal : GoalSnapshot} (h : decodeSnapshot object = .ok goal) :
    1 ≤ goal.maxGoalRounds := by
  obtain ⟨_, _, h⟩ := Sessions.except_bind h
  obtain ⟨_, _, h⟩ := Sessions.except_bind h
  obtain ⟨_, _, h⟩ := Sessions.except_bind h
  obtain ⟨cap, capped, h⟩ := Sessions.except_bind h
  obtain ⟨_, _, h⟩ := Sessions.except_bind h
  obtain ⟨_, positive⟩ := Option.filter_eq_some_iff.mp (Sessions.of_need capped)
  have positive : 1 ≤ cap := by simpa using positive
  split at h
  · obtain ⟨_, _, h⟩ := Sessions.except_bind h
    cases h
    exact positive
  · obtain ⟨_, _, h⟩ := Sessions.except_bind h
    cases h
    exact positive

/-- The operation that a change names, and the budget of its goal. -/
theorem decodeChange_cases {data : Json} {change : DecodedChange} (h : decodeChange data = .ok change) :
    (∃ object, data.ifObject = some object ∧
      (Json.stringField object "operation").bind operationOf = some change.operation) ∧
    (change.operation = .clear ∨ 1 ≤ change.goal.maxGoalRounds) := by
  obtain ⟨object, found, h⟩ := Sessions.except_bind h
  obtain ⟨_, _, h⟩ := Sessions.except_bind h
  obtain ⟨_, _, h⟩ := Sessions.except_bind h
  obtain ⟨operation, named, h⟩ := Sessions.except_bind h
  have found := Sessions.of_need found
  have named := Sessions.of_need named
  split at h
  · next clear =>
      obtain ⟨_, _, h⟩ := Sessions.except_bind h
      obtain ⟨_, _, h⟩ := Sessions.except_bind h
      obtain ⟨_, _, h⟩ := Sessions.except_bind h
      obtain ⟨_, _, h⟩ := Sessions.except_bind h
      cases h
      exact ⟨⟨object, found, clear ▸ named⟩, .inl rfl⟩
  · obtain ⟨_, _, h⟩ := Sessions.except_bind h
    obtain ⟨goal, snapshot, h⟩ := Sessions.except_bind h
    obtain ⟨_, _, h⟩ := Sessions.except_bind h
    obtain ⟨_, _, h⟩ := Sessions.except_bind h
    obtain ⟨_, _, h⟩ := Sessions.except_bind h
    obtain ⟨_, _, h⟩ := Sessions.except_bind h
    cases h
    exact ⟨⟨object, found, named⟩, .inr (decodeSnapshot_roomy snapshot)⟩

section
variable {state state' : GoalProjectionState} {change : DecodedChange}

theorem applyChange_roomy (h : applyChange state change = .ok state')
    (roomy : change.operation = .clear ∨ 1 ≤ change.goal.maxGoalRounds) : Roomy state' := by
  unfold applyChange at h
  split at h
  · obtain ⟨_, _, h⟩ := Sessions.except_bind h
    obtain ⟨_, _, h⟩ := Sessions.except_bind h
    obtain ⟨_, _, h⟩ := Sessions.except_bind h
    cases h
    exact fun _ hg => by cases hg
  · next create =>
      obtain ⟨_, _, h⟩ := Sessions.except_bind h
      cases h
      intro goal hg
      cases hg
      exact roomy.resolve_left (by rw [create]; decide)
  · next clear _ =>
      obtain ⟨_, _, h⟩ := Sessions.except_bind h
      obtain ⟨_, _, h⟩ := Sessions.except_bind h
      obtain ⟨_, _, h⟩ := Sessions.except_bind h
      obtain ⟨_, _, h⟩ := Sessions.except_bind h
      cases h
      intro goal hg
      cases hg
      exact roomy.resolve_left clear

/-- The model's operations leave the goal its budget. -/
theorem applyChange_stays (h : applyChange state change = .ok state')
    (model : change.operation = .complete ∨ change.operation = .block) : Stays state state' := by
  have inner : change.operation ≠ .create ∧ change.operation ≠ .clear := by
    rcases model with same | same <;> rw [same] <;> decide
  rw [applyChange_inner inner.1 inner.2] at h
  obtain ⟨current, now, h⟩ := Sessions.except_bind h
  obtain ⟨_, same, h⟩ := Sessions.except_bind h
  obtain ⟨_, _, h⟩ := Sessions.except_bind h
  obtain ⟨_, transition, h⟩ := Sessions.except_bind h
  cases h
  have same := Sessions.of_ensure same
  simp only [Bool.and_eq_true, beq_iff_eq] at same
  have definition : ∃ u, requireSameDefinition current change.goal = .ok u := by
    rcases model with named | named <;>
    · simp only [checkTransition, named] at transition
      obtain ⟨u, defined, _⟩ := Sessions.except_bind transition
      exact ⟨u, defined⟩
  obtain ⟨_, defined⟩ := definition
  have defined := Sessions.of_ensure defined
  simp only [Bool.and_eq_true, beq_iff_eq] at defined
  intro goal hg
  cases hg
  exact ⟨current, Sessions.of_need now, same.1.symm, defined.2.symm⟩

/-- Only a change of the goal touches it. -/
theorem drive_current {ev : Sessions.Event} (other : ev.type ≠ "goal/change") :
    (state.drive ev).current = state.current := by
  by_cases failed : state.failure = none
  · by_cases message : ev.type = "user/message"
    · rw [GoalProjectionState.drive_message message failed]
      cases hs : goalSource ev.data with
      | none => rfl
      | some source =>
          simp only [Option.elim_some]
          cases ha : applyRound state source with
          | error what => rfl
          | ok state' =>
              obtain ⟨_, _, _, rfl⟩ := applyRound_ok ha
              rfl
    · rw [GoalProjectionState.drive_other other message]
  · rw [GoalProjectionState.drive_failed failed]

theorem drive_roomy {ev : Sessions.Event} (roomy : Roomy state) : Roomy (state.drive ev) := by
  by_cases change : ev.type = "goal/change"
  · by_cases failed : state.failure = none
    · rw [GoalProjectionState.drive_change change failed]
      cases hd : decodeChange ev.data >>= applyChange state with
      | error what => exact roomy
      | ok state' =>
          obtain ⟨change, decoded, applied⟩ := Sessions.except_bind hd
          exact applyChange_roomy applied (decodeChange_cases decoded).2
    · rw [GoalProjectionState.drive_failed failed]
      exact roomy
  · intro goal hg
    exact roomy goal (drive_current change ▸ hg)

end

theorem roomy_log (log : Log) : Roomy (goalOf log) := by
  induction log using List.reverseRecOn with
  | nil => exact fun _ h => absurd h (by simp [goalOf, replay])
  | append_singleton log e ih =>
      rw [goalOf_append]
      exact drive_roomy ih

theorem current_append {log events : Log} (others : ∀ e ∈ events, e.type ≠ "goal/change") :
    (goalOf (log ++ events)).current = (goalOf log).current := by
  induction events generalizing log with
  | nil => rw [List.append_nil]
  | cons e rest ih =>
      rw [List.forall_mem_cons] at others
      rw [List.append_cons, ih others.2, goalOf_append]
      exact drive_current others.1

/-! What a step does to the goal -/

/-- What the model's operations commit. -/
theorem model_change {session : GoalSession} {draws : Draws} {op : GoalOp} {c : Change}
    (h : session.change draws op = .ok c) (model : op.byUser = false) :
    ∃ state operation next, (operation = OperationKind.complete ∨ operation = .block) ∧
      c.data = currentChange state operation next draws.now := by
  cases op with
  | complete ref =>
      obtain ⟨⟨state, goal⟩, _, h⟩ := Sessions.except_bind h
      obtain ⟨_, _, h⟩ := Sessions.except_bind h
      cases h
      exact ⟨state, _, _, .inl rfl, rfl⟩
  | block ref reason =>
      obtain ⟨⟨state, goal⟩, _, h⟩ := Sessions.except_bind h
      obtain ⟨_, _, h⟩ := Sessions.except_bind h
      obtain ⟨_, _, h⟩ := Sessions.except_bind h
      cases h
      exact ⟨state, _, _, .inr rfl, rfl⟩
  | create _ _ | edit _ _ _ | pause _ | resume _ | clear _ => cases model

section
variable {g g' : GoalLoop}

theorem operate_stays {op : GoalOp} {draws : Draws} (model : op.byUser = false) :
    Stays g.state (g.operate op draws).state := by
  unfold GoalLoop.operate
  cases hc : g.session.change draws op with
  | error what => exact .of_current rfl
  | ok c =>
      obtain ⟨state, operation, next, kind, data⟩ := model_change hc model
      show Stays g.state (goalOf (g.world.log ++ [.other "goal/change" c.data]))
      rw [goalOf_append, show goalOf g.world.log = g.state from rfl]
      by_cases failed : g.state.failure = none
      · rw [GoalProjectionState.drive_change rfl failed]
        simp only [LoopEvent.record, LoopEvent.data]
        cases hd : decodeChange c.data >>= applyChange g.state with
        | error what => exact .of_current rfl
        | ok state' =>
            obtain ⟨change, decoded, applied⟩ := Sessions.except_bind hd
            obtain ⟨⟨object, found, named⟩, _⟩ := decodeChange_cases decoded
            rw [data] at found
            cases found
            have same : change.operation = operation := by
              simpa [Json.stringField, eq_comm] using named
            exact applyChange_stays applied (same ▸ kind)
      · rw [GoalProjectionState.drive_failed failed]
        exact .of_current rfl

/-- A move appends no change of the goal, unless a listener does. -/
theorem moved_others {success : Bool} {log : Log} {a : AgentState} {p : Agent.Phase} {o : Agent.Outcome} {m : Move}
    (h : Agent.Moved success log a p o m) (events : ∀ events, o = .events events → ∀ e ∈ events, e.type ≠ "goal/change") :
    ∀ e ∈ m.events, e.type ≠ "goal/change" := by
  have spliced : ∀ mutation : InboxMutation, ∀ e ∈ mutation.events, e.type ≠ "goal/change" := by
    intro mutation e he
    unfold InboxMutation.events at he
    split at he
    · cases he
    · cases List.mem_singleton.mp he
      simp [LoopEvent.type]
  have committed : ∀ (t : TurnState) (acc : Llm.StepAccumulator),
      ∀ e ∈ (commitModelOutcome log t.turn t.step acc success).events, e.type ≠ "goal/change" := by
    intro t acc
    rcases commit_cases log t.turn t.step acc success with ⟨message, hc, _⟩ | ⟨failure, hc⟩ | hc <;>
      rw [hc] <;> simp [LoopEvent.type]
  cases h with
  | claimsStep t mutation hm | claimsTurn t claimed mutation hm => exact spliced mutation
  | prompts t messages events' _ | requests t events' _ => exact events _ rfl
  | ends t acc _ _ _ _ | answered t acc _ _ | asks t acc _ _ => exact committed t acc
  | _ => simp [LoopEvent.type]

theorem call_current {w w' : World} {c : Agent.Call} (h : w.call c = some w')
    (change : ∀ e, c = .append e → e.type ≠ "goal/change") : (goalOf w'.log).current = (goalOf w.log).current := by
  obtain ⟨events, log, quiet⟩ := call_quiet h change
  rw [log]
  exact current_append fun e he => (quiet e he).1

theorem advance_current {w' : World} {i : Nat} {o : Agent.Outcome} (h : g.world.advance i o = some w')
    (events : ∀ events, o = .events events → ∀ e ∈ events, e.type ≠ "goal/change") :
    (goalOf w'.log).current = g.state.current := by
  obtain ⟨d, a, m, _, moved, log, _, _⟩ := GoalLoop.reserved_advance h
  rw [log]
  exact current_append (moved_others moved events)

theorem fence_current {i : Nat} (h : g.fence i = some g') :
    g'.state.current = g.state.current ∧ g'.planned = g.planned := by
  obtain ⟨d, _, h⟩ := Option.bind_eq_some_iff.mp h
  split at h
  · split at h
    · cases h
    · split at h
      · cases h
        exact ⟨rfl, rfl⟩
      · obtain ⟨w', hw, rfl⟩ := Option.map_eq_some_iff.mp h
        exact ⟨advance_current hw fun _ ho => (by cases ho), rfl⟩
  · cases h

theorem loop_current {act : Agent.Act} (h : g.next (.loop act) = some g') :
    g'.state.current = g.state.current ∧ g'.planned = g.planned := by
  cases act with
  | call c =>
      simp only [GoalLoop.next] at h
      split at h
      · next permitted =>
          obtain ⟨w', hw, rfl⟩ := Option.map_eq_some_iff.mp h
          exact ⟨call_current hw (GoalLoop.permits_call permitted).1, rfl⟩
      · cases h
  | advance i outcome =>
      simp only [GoalLoop.next] at h
      split at h
      · next permitted =>
          obtain ⟨w', hw, rfl⟩ := Option.map_eq_some_iff.mp h
          refine ⟨advance_current hw fun events ho e he => ?_, rfl⟩
          subst ho
          simpa using List.all_eq_true.mp permitted e he
      · cases h

theorem operate_planned {op : GoalOp} {draws : Draws} : (g.operate op draws).planned = g.planned := by
  unfold GoalLoop.operate
  split <;> rfl

theorem operate_refused {op : GoalOp} {draws : Draws} (refused : (g.session.change draws op).toBool = false) :
    (g.operate op draws).state.current = g.state.current := by
  unfold GoalLoop.operate
  split
  · rfl
  · next c hc =>
      rw [hc] at refused
      cases refused

theorem armedGoal_healthy {goal : GoalSnapshot} (h : g.armedGoal = some goal) : g.state.failure = none := by
  obtain ⟨found, _⟩ := Option.filter_eq_some_iff.mp h
  unfold GoalLoop.get at found
  split at found
  · cases found
  · next healthy => simpa using healthy

theorem disarm_state : g.disarm.state = g.state := by
  unfold GoalLoop.disarm
  split <;> rfl

theorem disarm_planned : g.disarm.planned = g.planned := by
  unfold GoalLoop.disarm
  split <;> rfl

end

/-! The invariant -/

namespace RoundRun

/-- How many rounds of a goal the driver has handed over. -/
def count (r : RoundRun) (id : String) : Nat := (r.queued.filter (names id)).length

/-- The driver hands over no more rounds than the last of them says. -/
structure Bounded (r : RoundRun) : Prop where
  within : ∀ goal ∈ r.loop.state.current, r.count goal.id ≤ goal.maxGoalRounds
  last : ∀ id, ∀ m ∈ (r.queued.filter (names id)).getLast?, ∃ goal round, m = roundMessage goal round ∧
    goal.id = id ∧ r.count id ≤ round
  planned : ∀ m ∈ r.loop.planned, ∃ goal round, m = roundMessage goal round ∧ r.count goal.id + 1 ≤ round ∧
    ∀ now ∈ r.loop.state.current, now.id = goal.id → r.count goal.id + 1 ≤ now.maxGoalRounds

variable {r r' : RoundRun}

theorem names_round {id : String} {goal : GoalSnapshot} {round : Nat} :
    names id (roundMessage goal round) = (goal.id == id) := by
  simp [names, goalSource_round, roundSource, Json.stringField]

theorem Bounded.stays (inv : r.Bounded) (queued : r'.queued = r.queued) (stays : Stays r.loop.state r'.loop.state)
    (planned : ∀ m ∈ r'.loop.planned, m ∈ r.loop.planned) : r'.Bounded := by
  have count : ∀ id, r'.count id = r.count id := fun id => by rw [RoundRun.count, queued, RoundRun.count]
  refine ⟨fun goal' hg => ?_, fun id m hm => ?_, fun m hm => ?_⟩
  · obtain ⟨goal, now, id, budget⟩ := stays goal' hg
    rw [count, ← id, ← budget]
    exact inv.within goal now
  · rw [queued] at hm
    rw [count]
    exact inv.last id m hm
  · obtain ⟨goal, round, shape, named, room⟩ := inv.planned m (planned m hm)
    rw [← count] at named room
    refine ⟨goal, round, shape, named, fun now' hn same => ?_⟩
    obtain ⟨now, hg, id, budget⟩ := stays now' hn
    exact budget ▸ room now hg (id.trans same)

/-- The user has the driver start over. -/
theorem Bounded.reset (inv : r.Bounded) (queued : r'.queued = []) (roomy : Roomy r'.loop.state)
    (planned : r'.loop.planned = r.loop.planned) : r'.Bounded := by
  have count : ∀ id, r'.count id = 0 := fun id => by rw [RoundRun.count, queued]; rfl
  refine ⟨fun goal hg => ?_, fun id m hm => ?_, fun m hm => ?_⟩
  · rw [count]
    exact Nat.zero_le _
  · rw [queued] at hm
    cases hm
  · rw [planned] at hm
    obtain ⟨goal, round, shape, named, _⟩ := inv.planned m hm
    refine ⟨goal, round, shape, ?_, fun now hn _ => ?_⟩
    · rw [count]
      omega
    · rw [count]
      exact roomy now hn

/-- What the log has of the last round, the projection has counted. -/
theorem Bounded.counted (inv : r.Bounded) {goal : GoalSnapshot} (now : r.loop.state.current = some goal)
    (healthy : r.loop.state.failure = none)
    (recorded : ∀ m ∈ (r.queued.filter (names goal.id)).getLast?, m ∈ admitted r.loop.world.log) :
    r.count goal.id ≤ r.loop.state.roundsStarted := by
  cases hl : (r.queued.filter (names goal.id)).getLast? with
  | none =>
      rw [count, List.getLast?_eq_none_iff.mp hl]
      exact Nat.zero_le _
  | some m =>
      obtain ⟨goal', round, rfl, id, bound⟩ := inv.last goal.id m hl
      obtain ⟨_, counted⟩ := counts_log healthy
      obtain ⟨round', decoded, _, rounds⟩ := counted _ (recorded _ hl) _ (goalSource_round goal' round)
      rw [decodeRound_source decoded] at rounds
      exact bound.trans (rounds goal now id.symm)

theorem Bounded.plan (inv : r.Bounded) {draws : Draws} {g : GoalLoop} (h : r.loop.plan draws = some g)
    (recorded : r.Recorded (.plan draws)) : ({ r with loop := g } : RoundRun).Bounded := by
  unfold GoalLoop.plan at h
  split at h
  · cases h
  · obtain ⟨goal, armed, rfl⟩ := Option.map_eq_some_iff.mp h
    obtain ⟨now, _⟩ := armedGoal_some armed
    split
    · exact inv.stays rfl (operate_stays rfl) fun m hm => operate_planned ▸ hm
    · next budget =>
        have counted := inv.counted now (armedGoal_healthy armed) (recorded goal armed)
        refine ⟨inv.within, inv.last, fun m hm => ?_⟩
        cases hm
        refine ⟨goal, _, rfl, Nat.add_le_add_right counted 1, fun now' hn _ => ?_⟩
        cases Option.some.inj (now.symm.trans hn)
        simp only [count] at counted ⊢
        omega

theorem Bounded.sent (inv : r.Bounded) {g : GoalLoop} {m : Json} (planned : r.loop.planned = some m)
    (current : g.state.current = r.loop.state.current) (none : g.planned = none) :
    ({ loop := g, queued := r.queued ++ [m] } : RoundRun).Bounded := by
  obtain ⟨goal, round, rfl, next, room⟩ := inv.planned m planned
  have count (id : String) : ({ loop := g, queued := r.queued ++ [roundMessage goal round] } : RoundRun).count id =
      r.count id + if goal.id = id then 1 else 0 := by
    by_cases same : goal.id = id <;> simp [RoundRun.count, List.filter_append, names_round, same]
  refine ⟨fun now hn => ?_, fun id m hm => ?_, fun m hm => ?_⟩
  · rw [count]
    rw [current] at hn
    by_cases same : goal.id = now.id
    · rw [if_pos same, ← same]
      exact room now hn same.symm
    · rw [if_neg same]
      exact inv.within now hn
  · rw [count]
    by_cases same : goal.id = id
    · rw [if_pos same]
      have last : m = roundMessage goal round := by
        simpa [List.filter_append, names_round, same, eq_comm] using hm
      exact ⟨goal, round, last, same, same ▸ next⟩
    · rw [if_neg same]
      have before : m ∈ (r.queued.filter (names id)).getLast? := by
        simpa [List.filter_append, names_round, same] using hm
      exact inv.last id m before
  · simp only at hm
    rw [none] at hm
    cases hm

/-- A step of the run keeps the invariant. -/
theorem Bounded.next (inv : r.Bounded) {a : GoalLoopAct} (h : r.next a = some r') (recorded : r.Recorded a) :
    r'.Bounded := by
  obtain ⟨g, hg, rfl⟩ := Option.map_eq_some_iff.mp h
  have heard (queued : List Json) (bounded : ({ loop := g, queued } : RoundRun).Bounded) :
      ({ loop := RoundRun.heard r.loop g, queued } : RoundRun).Bounded := by
    unfold RoundRun.heard
    split
    · refine bounded.stays rfl (.of_current ?_) fun m hm => ?_
      · exact congrArg (·.current) disarm_state
      · exact disarm_planned ▸ hm
    · exact bounded
  apply heard
  cases a with
  | operate op draws =>
      cases hg
      simp only [queuedBy]
      split
      · exact inv.reset rfl (roomy_log _) operate_planned
      · next kept =>
          refine inv.stays rfl ?_ fun m hm => operate_planned ▸ hm
          cases model : op.byUser with
          | false => exact operate_stays model
          | true =>
              rw [model, Bool.true_and] at kept
              exact .of_current (operate_refused (by simpa using kept))
  | disarm =>
      cases hg
      exact inv.stays rfl (.of_current (congrArg (·.current) disarm_state)) fun m hm => disarm_planned ▸ hm
  | compete on =>
      cases hg
      exact inv.stays rfl (.of_current rfl) fun m hm => hm
  | plan draws => exact inv.plan hg recorded
  | send refused =>
      obtain ⟨message, planned, hg⟩ := Option.bind_eq_some_iff.mp hg
      split at hg
      · next refuses =>
          cases hg
          rw [refuses]
          exact inv.stays rfl (.of_current (congrArg (·.current) disarm_state)) fun m hm => by cases hm
      · next accepts =>
          obtain ⟨w', hw, rfl⟩ := Option.map_eq_some_iff.mp hg
          have accepts : refused = false := by simpa using accepts
          simp only [accepts, queuedBy, planned, Option.toList_some]
          exact inv.sent planned (call_current hw fun _ he => by cases he) rfl
  | fence i =>
      obtain ⟨current, planned⟩ := fence_current hg
      exact inv.stays rfl (.of_current current) fun m hm => planned ▸ hm
  | loop act =>
      obtain ⟨current, planned⟩ := loop_current hg
      exact inv.stays rfl (.of_current current) fun m hm => planned ▸ hm
  | restart =>
      cases hg
      exact inv.stays rfl (.of_current rfl) fun m hm => by cases hm

theorem bounded_start (start : goalLoop.start r.loop) (queued : r.queued = []) : r.Bounded := by
  obtain ⟨success, _, planned, _⟩ := start
  refine ⟨fun goal _ => ?_, fun id m hm => ?_, fun m hm => ?_⟩
  · rw [count, queued]
    exact Nat.zero_le _
  · rw [queued] at hm
    cases hm
  · rw [planned] at hm
    cases hm

theorem Bounded.rounds (inv : r.Bounded) {goal : GoalSnapshot} (now : goal ∈ r.loop.state.current) :
    (r.rounds goal.id).length ≤ goal.maxGoalRounds := by
  have within := inv.within goal now
  rw [RoundRun.rounds, List.filter_append, List.length_append]
  cases hp : r.loop.planned with
  | none => exact within
  | some m =>
      obtain ⟨goal', round, rfl, _, room⟩ := inv.planned m hp
      by_cases same : goal'.id = goal.id
      · have room := room goal now same.symm
        simp only [same, count] at room
        simpa [names_round, same] using room
      · simpa [names_round, same, count] using within

/-- The pass after the last round of the budget. -/
theorem Bounded.rests (inv : r.Bounded) {goal : GoalSnapshot} (now : goal ∈ r.loop.state.current)
    (full : (r.rounds goal.id).length = goal.maxGoalRounds) {draws : Draws} {g : GoalLoop}
    (h : r.loop.plan draws = some g) (recorded : r.Recorded (.plan draws)) : g.planned = none := by
  have none : r.loop.planned = none := by
    by_contra waits
    have waits := Option.isSome_iff_ne_none.mpr waits
    simp [GoalLoop.plan, waits] at h
  have counted : r.count goal.id = goal.maxGoalRounds := by
    rw [← full, RoundRun.rounds, none, Option.toList_none, List.append_nil, count]
  unfold GoalLoop.plan at h
  split at h
  · cases h
  · obtain ⟨goal', armed, rfl⟩ := Option.map_eq_some_iff.mp h
    obtain ⟨now', _⟩ := armedGoal_some armed
    cases Option.some.inj (now'.symm.trans now)
    split
    · exact operate_planned.trans none
    · next budget =>
        have started := inv.counted now (armedGoal_healthy armed) (recorded goal armed)
        omega

end RoundRun

/-- While each round that the driver queues is in the log before it plans the next one, it
never schedules more rounds of a goal than its budget since the user's last operation, and
once it has scheduled them all its next pass queues nothing. -/
theorem round_budget {r : RoundRun} (reached : roundRuns.Reached (fun r a => r.Recorded a) r) :
    (∀ goal ∈ r.loop.state.current, (r.rounds goal.id).length ≤ goal.maxGoalRounds) ∧
      ∀ goal ∈ r.loop.state.current, (r.rounds goal.id).length = goal.maxGoalRounds → ∀ draws,
        r.Recorded (.plan draws) → ∀ g ∈ r.loop.plan draws, g.planned = none := by
  have inv : r.Bounded := by
    refine reached.invariant (I := RoundRun.Bounded) ?_ ?_
    · rintro r ⟨start, queued⟩
      exact RoundRun.bounded_start start queued
    · rintro r a r' _ inv h recorded
      exact inv.next h recorded
  exact ⟨fun goal now => inv.rounds now, fun goal now full draws recorded g hg => inv.rests now full hg recorded⟩

/-- The first drive of a goal with a budget of `cap`, its round queued. -/
def toRound (cap : Nat) : List GoalLoopAct :=
  [.operate (.create "ship" (some cap)) { now := 1 }, .loop (.call .create), .plan { now := 2 }, .send false]

def recorded? (r : RoundRun) : GoalLoopAct → Bool
  | .plan _ => r.loop.armedGoal.all fun goal => (r.queued.filter (names goal.id)).getLast?.all fun m =>
      (admitted r.loop.world.log).any (Json.same m)
  | _ => true

theorem recorded_of_check {r : RoundRun} {a : GoalLoopAct} (h : recorded? r a = true) : r.Recorded a := by
  cases a with
  | plan draws =>
      intro goal hg m hm
      simp only [recorded?, Option.mem_def.mp hg, Option.all_some, Option.mem_def.mp hm] at h
      obtain ⟨n, hn, same⟩ := List.any_eq_true.mp h
      exact Json.eq_of_same m n same ▸ hn
  | _ => trivial

/-- The drive runs its round to the end of the turn. -/
def toRecord : List GoalLoopAct :=
  firstDrive [.ok, .ok, .ok, .ok, .ok, .ok, .context []] ++ [.fence 0] ++
    firstDrive [.decision false [roundMessage { shipGoal with maxGoalRounds := 2 } 1], .ok, .ok, .ok, .ok, .ok, .ok,
      .chunks [], .ok, .ok, .ok, .ok, .ok, .ok, .ok, .ok, .ok]

theorem played_reached {ok : RoundRun → GoalLoopAct → Bool} {P : RoundRun → GoalLoopAct → Prop}
    (sound : ∀ r a, ok r a = true → P r a) {r : RoundRun} {acts : List GoalLoopAct}
    (h : System.follow RoundRun.next ok { loop := newLoop } acts = some r) : roundRuns.Reached P r :=
  System.follow_reached (S := roundRuns) (fun _ _ _ h => h) sound h (.start ⟨⟨false, rfl, rfl, rfl⟩, rfl⟩)

/-- Both rounds of a budget of two are queued, the second once the first is in the log. -/
theorem round_budget_spent : ∃ r : RoundRun, (r.rounds shipGoal.id).length = 2 ∧
    (∀ goal ∈ r.loop.state.current, (r.rounds goal.id).length ≤ goal.maxGoalRounds) := by
  have played : (System.follow RoundRun.next recorded? { loop := newLoop }
      (toRound 2 ++ toRecord ++ [.plan { now := 3 }, .send false])).any
        (fun r => (r.rounds shipGoal.id).length == 2) = true := by decide +kernel
  obtain ⟨r, hr, spent⟩ := (Option.any_eq_true _ _).mp played
  exact ⟨r, by simpa using spent, (round_budget (played_reached (fun _ _ => recorded_of_check) hr)).1⟩

/-- A listener of the pre-step rejects the batch, and the turn ends. -/
def toRejection : List GoalLoopAct :=
  firstDrive [.ok, .ok, .ok, .ok, .ok, .ok, .context []] ++ [.fence 0] ++
    firstDrive [.decision true [], .ok, .ok, .ok, .ok, .ok]

/-- A budget of one, and its round is queued again after the turn that was blocked. -/
theorem round_repeated : ¬ ∀ r : RoundRun, roundRuns.Reached (fun _ _ => True) r →
    ∀ goal ∈ r.loop.state.current, (r.rounds goal.id).length ≤ goal.maxGoalRounds := by
  intro bounded
  have played : (System.follow RoundRun.next (fun _ _ => true) { loop := newLoop }
      (toRound 1 ++ toRejection ++ [.plan { now := 3 }, .send false])).any
        (fun r => r.loop.state.current.any fun goal => decide (goal.maxGoalRounds < (r.rounds goal.id).length)) = true := by
    decide +kernel
  obtain ⟨r, hr, ended⟩ := (Option.any_eq_true _ _).mp played
  obtain ⟨goal, now, ended⟩ := (Option.any_eq_true _ _).mp ended
  have reached : roundRuns.Reached (fun _ _ => True) r := played_reached (fun _ _ _ => trivial) hr
  exact absurd (bounded r reached goal now) (Nat.not_le_of_lt (by simpa using ended))

end Araya.Goals
