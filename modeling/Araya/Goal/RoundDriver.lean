import Araya.Agent.Carried
import Araya.Agent.Prompt
import Araya.Goal.Agreement

/-!
The round driver beside the agent loop and the goal service, over one session. It
queues the next round of an armed goal as a message, and fences it where a pre-step
claims it; the listeners behind the fence, the rest of the pre-step and the step's
own appends come between the fence and the append of the message. The other parties
neither write goal changes nor name a goal as the source of a message.
-/

namespace Araya.Goals
open Agent

/-- The fold of the goal over the log of the loop. -/
def goalOf (log : Log) : GoalProjectionState := replay (log.zipIdx.map fun e => e.1.record e.2)

def goalMessages (messages : List Json) : List Json := messages.filter fun m => (goalSource m).isSome

/-- No more messages than the batch has, and each one of them. -/
def keeps (messages batch : List Json) : Bool :=
  decide (messages.length ≤ batch.length) && messages.all fun m => batch.any fun n => Json.same m n

def renderGoalRoundPrompt (goal : GoalSnapshot) (round : Nat) : String :=
  "<goal_round>\nObjective: " ++ String.ofList (Json.renderString goal.objective) ++ "\nRound: " ++ toString round ++
    "/" ++ toString goal.maxGoalRounds ++
    "\n\nContinue working toward the objective in this same session. Treat the current workspace, tool " ++
    "results, and durable session state as authoritative; inspect them instead of assuming earlier narration " ++
    "is still current. Make concrete progress and verify the result. Before claiming completion, gather " ++
    "evidence that the whole objective is achieved, read the current goal, and mark it complete. If work " ++
    "remains, leave the goal active for the next round. Follow the configured goal-tool policy before " ++
    "reporting a blocker.\n</goal_round>"

def roundSource (goal : GoalSnapshot) (round : Nat) : Json.Members :=
  [("goalId", .str goal.id), ("revision", .uint goal.revision), ("round", .uint round), ("kind", .str "goal")]

def roundMessage (goal : GoalSnapshot) (round : Nat) : Json :=
  Llm.userMessageData ("goal-round-" ++ toString round)
    [.obj [("type", .str "text"), ("text", .str (renderGoalRoundPrompt goal round))]]
    (some (.obj (roundSource goal round)))

def roundLimit (goal : GoalSnapshot) : GoalBlockReason where
  code := "round-limit"
  message := "Goal reached its configured limit of " ++ toString goal.maxGoalRounds ++ " rounds."

/-- `competing` is the flag of the driver, `planned` the message of the pass that waits in
`followup`, `fenced` the drives whose pre-step waits in a listener behind the fence. -/
structure GoalLoop where
  id : Sessions.SessionId
  world : World := {}
  activation : Option GoalActivation := none
  defaultMaxGoalRounds : Nat := 256
  competing : Bool := false
  planned : Option Json := none
  fenced : List Nat := []

inductive GoalLoopAct where
  | operate (op : GoalOp) (draws : Draws)
  | disarm
  | compete (on : Bool)
  | plan (draws : Draws)
  | send (refused : Bool)
  | fence (drive : Nat)
  | loop (a : Act)
  | restart

namespace GoalLoop

def state (g : GoalLoop) : GoalProjectionState := goalOf g.world.log

/-- The session as the goal service sees it. -/
def session (g : GoalLoop) : GoalSession where
  id := g.id
  state := some g.state
  activation := g.activation
  defaultMaxGoalRounds := g.defaultMaxGoalRounds

/-- `goal_service::get`: nothing where there is no goal, and nothing where it raises. -/
def get (g : GoalLoop) : Option GoalSnapshot := if g.state.failure.isSome then none else g.state.current

def disarm (g : GoalLoop) : GoalLoop :=
  if g.state.current.isSome then { g with activation := some .disarmed } else g

/-- An operation of the service; a rejected one changes nothing. -/
def operate (g : GoalLoop) (op : GoalOp) (draws : Draws) : GoalLoop :=
  match g.session.change draws op with
  | .error _ => g
  | .ok c => { g with
      activation := some c.activation
      world := { g.world with log := g.world.log ++ [.other "goal/change" c.data] } }

/-- `status`: no driver, or one without a drive. -/
def idle (g : GoalLoop) : Bool :=
  (g.world.current.bind fun i => g.world.agents[i]?).all fun a => !a.running

/-- The goal that the driver may continue. -/
def armedGoal (g : GoalLoop) : Option GoalSnapshot :=
  g.get.filter fun goal => goal.phase == .active && g.session.activationOf == .armed

/-- `drive`, up to its `followup`. -/
def plan (g : GoalLoop) (draws : Draws) : Option GoalLoop :=
  if g.planned.isSome || g.competing || !g.idle then none
  else
    g.armedGoal.map fun goal =>
      if goal.maxGoalRounds ≤ g.state.roundsStarted then g.operate (.block goal.ref (roundLimit goal)) draws
      else { g with planned := some (roundMessage goal (g.state.roundsStarted + 1)) }

/-- The end of `drive`: a `followup` that raises disarms the goal. -/
def send (g : GoalLoop) (refused : Bool) : Option GoalLoop :=
  g.planned.bind fun message =>
    if refused then some { g.disarm with planned := none }
    else (g.world.call (.followup message {} false)).map fun w => { g with world := w, planned := none }

/-- The exact live revision and its next round. -/
def matchesRound (g : GoalLoop) (source : Json.Members) : Bool :=
  g.armedGoal.any fun goal =>
    (Json.stringField source "goalId").getD "" == goal.id &&
      (Json.optUintField source "revision").getD 0 == goal.revision &&
        (Json.optUintField source "round").getD 0 == g.state.roundsStarted + 1

/-- What the fence lets pass. -/
def valid (g : GoalLoop) (messages : List Json) : Bool :=
  messages.all fun m => (goalSource m).all g.matchesRound

/-- The fence in the pre-step of a drive: it rejects, or hands on to the next listener. -/
def fence (g : GoalLoop) (i : Nat) : Option GoalLoop :=
  g.world.drives[i]?.bind fun d =>
    match d.phase with
    | .deciding _ proposed =>
      if i ∈ g.fenced then none
      else if g.valid proposed then some { g with fenced := i :: g.fenced }
      else (g.world.advance i (.decision true proposed)).map fun w => { g with world := w }
    | _ => none

/-- What the loop and its other callers may do: the decision of a pre-step comes after its
fence, and the goal messages it has are the batch's. -/
def permits (g : GoalLoop) : Act → Bool
  | .call (.append event) => event.type != "goal/change"
  | .call c => (goalMessages (g.world.brought c)).isEmpty
  | .advance _ (.context messages) => (goalMessages messages).isEmpty
  | .advance _ (.events events) => events.all fun e => e.type != "goal/change"
  | .advance i (.decision _ messages) =>
    g.fenced.contains i && g.world.drives[i]?.all fun d => keeps (goalMessages messages) (goalMessages d.phase.hands)
  | .advance _ _ => true

/-- An advance of a drive takes it out of the listener it waits in. -/
def next (g : GoalLoop) : GoalLoopAct → Option GoalLoop
  | .operate op draws => some (g.operate op draws)
  | .disarm => some g.disarm
  | .compete on => some { g with competing := on }
  | .plan draws => g.plan draws
  | .send refused => g.send refused
  | .fence i => g.fence i
  | .loop (.call c) =>
    if g.permits (.call c) then (g.world.call c).map fun w => { g with world := w } else none
  | .loop (.advance i outcome) =>
    if g.permits (.advance i outcome) then
      (g.world.advance i outcome).map fun w => { g with world := w, fenced := g.fenced.filter (· != i) }
    else none
  | .restart => some { g with
      world := World.fresh g.world.log g.world.maxTokensAsSuccess
      activation := none
      competing := false
      planned := none
      fenced := [] }

end GoalLoop

/-- The runs over a new session. -/
def goalLoop : System GoalLoop GoalLoopAct where
  start g := ∃ success, g.world = World.fresh [] success ∧ g.planned = none ∧ g.fenced = []
  step g a g' := g.next a = some g'

/-- Each round of the log named the goal, its revision and its next round as they were
when it was appended. -/
def RoundsCurrent (log : Log) : Prop := ∀ before message after, log = before ++ .userMessage message :: after →
  ∀ source, goalSource message = some source →
    ∃ r, decodeRound source = .ok r ∧ Admissible (goalOf before) r

/-! The fold over the loop's log -/

theorem goalOf_append (log : Log) (e : LoopEvent) :
    goalOf (log ++ [e]) = (goalOf log).drive (e.record log.length) := by
  simp [goalOf, List.zipIdx_append]

theorem goalOf_quiet {log events : Log} (quiet : ∀ e ∈ events, e.type ≠ "goal/change" ∧ e.type ≠ "user/message") :
    goalOf (log ++ events) = goalOf log := by
  induction events generalizing log with
  | nil => rw [List.append_nil]
  | cons e rest ih =>
      rw [List.forall_mem_cons] at quiet
      rw [List.append_cons, ih quiet.2, goalOf_append]
      exact GoalProjectionState.drive_other quiet.1.1 quiet.1.2

theorem goalOf_message {log : Log} {message : Json} (healthy : (goalOf log).failure = none) :
    goalOf (log ++ [.userMessage message]) = (goalSource message).elim (goalOf log) fun source =>
      (goalOf log).settle log.length (applyRound (goalOf log) source) := by
  rw [goalOf_append]
  exact GoalProjectionState.drive_message rfl healthy

/-- A failure stays. -/
theorem goalOf_failed {log events : Log} (failed : (goalOf log).failure ≠ none) :
    goalOf (log ++ events) = goalOf log := by
  induction events generalizing log with
  | nil => rw [List.append_nil]
  | cons e rest ih =>
      have same : goalOf (log ++ [e]) = goalOf log := by
        rw [goalOf_append]
        exact GoalProjectionState.drive_failed failed
      rw [List.append_cons, ih (by rw [same]; exact failed), same]

theorem applyRound_ok {state state' : GoalProjectionState} {source : Json.Members}
    (h : applyRound state source = .ok state') : ∃ r, decodeRound source = .ok r ∧ Admissible state r ∧
      state' = { state with roundsStarted := r.round } := by
  obtain ⟨r, decoded, h⟩ := Sessions.except_bind h
  obtain ⟨_, admissible, h⟩ := Sessions.except_bind h
  cases h
  exact ⟨r, decoded, of_decide_eq_true (Sessions.of_ensure admissible), rfl⟩

/-- A fold that has not failed took every round as current. -/
theorem rounds_current {log : Log} (healthy : (goalOf log).failure = none) : RoundsCurrent log := by
  rintro before message after rfl source hs
  have earlier : (goalOf before).failure = none := by
    by_contra failed
    rw [goalOf_failed failed] at healthy
    exact failed healthy
  have then_ : (goalOf (before ++ [.userMessage message])).failure = none := by
    by_contra failed
    rw [List.append_cons, goalOf_failed failed] at healthy
    exact failed healthy
  rw [goalOf_message earlier, hs] at then_
  cases hr : applyRound (goalOf before) source with
  | error what => simp [hr, GoalProjectionState.settle] at then_
  | ok state' =>
      obtain ⟨r, decoded, admissible, _⟩ := applyRound_ok hr
      exact ⟨r, decoded, admissible⟩

end Araya.Goals
