import Araya.Agent.Log
import Araya.Util.Machine

/-!
The agent loop over one session. A drive is a coroutine: its phase says where it
stands in `drive`, `turn`, `pre_step`, `run_step` or `execute_tools`, and with
the phase it keeps what the suspended call has in its locals. One step of the
system is one advance of one drive, up to its next append or suspension, or one
call of the service; the two interleave freely.
-/

namespace Araya.Agent

open Llm (ToolCallBlock LlmFailure StreamChunk StepAccumulator ContentBlock)

/-- A caller's stop token. -/
abbrev Token := Nat

structure ToolResult where
  content : Json
  isError : Bool := false
  concludesTurn : Bool := false

def errorResult (text : String) : ToolResult where
  content := Llm.textContent text
  isError := true

/-- `tool_batch_outcome`. -/
structure ToolBatchOutcome where
  aborted : Bool := false
  concluded : Bool := false

structure RunOutcome where
  status : RunStatus := .completed
  failure : Option LlmFailure := none
  turn : Nat := 0

structure DriveOptions where
  maxSteps : Nat := 16
  stop : Option Token := none

/-- The controller state of one driver. `stop` is whether a stop was requested of
the running drive's source, `bridge` the caller's token that requests it too. -/
structure AgentState where
  running : Bool := false
  stop : Bool := false
  wakeRequested : Bool := false
  maxSteps : Nat := 16
  seed : Option Json := none
  callerStop : Option Token := none
  bridge : Option Token := none
  lastOutcome : RunOutcome := {}

/-- `merge_exec`. -/
def AgentState.mergeExec (a : AgentState) (options : DriveOptions) : AgentState :=
  { a with maxSteps := options.maxSteps, callerStop := options.stop <|> a.callerStop }

/-- The locals of `turn`, with what its steps have returned so far as a history. -/
structure TurnState where
  turn : Nat
  step : Nat := 0
  firstStep : Bool := true
  ended : Option RunStatus := none
  exits : List (Option RunStatus) := []

/-- A turn whose `turn/end` was appended. -/
structure TurnReport where
  turn : Nat
  status : RunStatus
  exits : List (Option RunStatus)

inductive Phase where
  | posted
  | top
  | opening
  | looping (t : TurnState)
  | claimingStep (t : TurnState)
  | claimingTurn (t : TurnState) (claimed : List Json)
  | proposing (t : TurnState) (claimed : List Json)
  | deciding (t : TurnState) (proposed : List Json)
  | decided (t : TurnState) (reject : Bool) (messages : List Json)
  | starting (t : TurnState) (messages : List Json)
  | prompting (t : TurnState) (messages : List Json)
  | admitting (t : TurnState) (messages : List Json)
  | requesting (t : TurnState)
  | streaming (t : TurnState)
  | retrying (t : TurnState) (acc : StepAccumulator)
  | committing (t : TurnState) (acc : StepAccumulator)
  | calling (t : TurnState) (calls : List ToolCallBlock) (outcome : ToolBatchOutcome)
  | called (t : TurnState) (call : ToolCallBlock) (calls : List ToolCallBlock) (outcome : ToolBatchOutcome)
  | invoking (t : TurnState) (call : ToolCallBlock) (calls : List ToolCallBlock) (outcome : ToolBatchOutcome)
  | answering (t : TurnState) (call : ToolCallBlock) (result : ToolResult) (calls : List ToolCallBlock)
      (outcome : ToolBatchOutcome)
  | stepped (t : TurnState) (exit : Option RunStatus)
  | unwinding (t : TurnState) (what : String)
  | checking (t : TurnState)
  | stopping (t : TurnState)
  | rechecking (t : TurnState)
  | closing (t : TurnState)
  | closed
  | failing (t : TurnState) (what : String)
  | finished (what : Option String)
  | resuming
  | gone

structure Drive where
  agent : Nat
  phase : Phase := .posted

/-- What a drive meets as it advances: an append that refuses and a listener, a
sink, a stream or a tool that raises are `raise`. -/
inductive Outcome where
  | ok
  | raise (what : String)
  | events (events : List LoopEvent)
  | context (messages : List Json)
  | decision (reject : Bool) (messages : List Json)
  | chunks (chunks : List StreamChunk)
  | retry (again : Bool)
  | result (result : ToolResult)

/-- One advance of a drive: where it goes on, the driver's state and what it appends.
The rest is history: what it claims from the inbox, what the pre-step rejected or
left out of a batch, and what a raise lost of one. -/
structure Move where
  phase : Phase
  agent : AgentState
  events : List LoopEvent := []
  claimed : List Json := []
  rejected : List Json := []
  lost : List Json := []
  report : Option TurnReport := none

/-! The step -/

/-- `commit_model_outcome`: what it appends, and how the step ends when it ends here. -/
structure StepCommit where
  events : List LoopEvent := []
  terminal : Option RunStatus := none
  blocks : List ContentBlock := []

def commitModelOutcome (log : Log) (turn step : Nat) (acc : StepAccumulator)
    (maxTokensAsSuccess : Bool) : StepCommit :=
  let interrupted := acc.why = .aborted
  let blocks := if interrupted then acc.deliveredBlocks else acc.closed
  if acc.failure.isSome ∧ ¬ interrupted then
    { events := [.assistantAttempt turn step acc.failure], terminal := some .error, blocks }
  else {
    events :=
      if ¬ blocks.isEmpty then
        [.assistantMessage {
          id := "a" ++ toString log.length, blocks, usage := acc.usage.getD {}, replay := acc.replay,
          turn, step, interrupted }]
      else if interrupted then [.assistantAttempt turn step acc.failure]
      else []
    terminal :=
      match acc.why with
      | .aborted => some .aborted
      | .error => some .error
      | .maxTokens => some (if maxTokensAsSuccess then .completed else .maxTokens)
      | .stop | .toolCalls => none
    blocks }

/-- What `run_step` returns once all calls are answered. -/
def ToolBatchOutcome.exit (outcome : ToolBatchOutcome) : Option RunStatus :=
  if outcome.aborted then some .aborted
  else if outcome.concluded then some .completed
  else none

/-- The step returned `exit`; a turn cut by the ceiling stays so. -/
def TurnState.stepped (t : TurnState) (exit : Option RunStatus) : TurnState :=
  { t with
    ended := if exit.isSome ∧ t.ended ≠ some .maxTokens then exit else t.ended
    firstStep := false
    exits := t.exits ++ [exit] }

/-- The claim of `pre_step` on one queue. -/
def claim (log : Log) (target : InboxTarget) (count : Int) : InboxMutation :=
  makeInboxSplice (inboxOf log) target 0 count [] false

def InboxMutation.events (m : InboxMutation) : List LoopEvent :=
  if m.noop then [] else [.inboxSpliced m.data]

section
variable (maxTokensAsSuccess : Bool) (log : Log) (a : AgentState)

/-- A raise inside `run_step` closes the step, one inside `turn` the turn; the batch
that was not admitted yet goes with it. -/
def throwStep (t : TurnState) (what : String) (lost : List Json) : Option Move :=
  some { phase := .unwinding t what, agent := a, lost }

def throwTurn (t : TurnState) (what : String) (lost : List Json) : Option Move :=
  some { phase := .failing t what, agent := a, lost }

def throwDrive (what : String) : Option Move := some { phase := .finished (some what), agent := a }

def goto (phase : Phase) : Option Move := some { phase, agent := a }

def append (phase : Phase) (events : List LoopEvent) : Option Move := some { phase, agent := a, events }

/-- The messages of a batch whose id a decision no longer has. -/
def leftOut (proposed messages : List Json) : List Json :=
  proposed.filter fun m => inboxMessageId m ∉ messages.map inboxMessageId

/-- Between the turns of a drive. -/
def moveDrive : Phase → Outcome → Option Move
  | .posted, .ok => goto a .top
  | .top, .ok => if a.stop then goto a (.finished none) else goto a .opening
  | .opening, .ok =>
    let turn := nextTurn log
    some { phase := .looping { turn }, events := [.turnStart turn],
           agent := { a with lastOutcome := { a.lastOutcome with turn } } }
  | .opening, .raise what =>
    some { phase := .finished (some what),
           agent := { a with lastOutcome := { a.lastOutcome with turn := nextTurn log } } }
  | .closing t, .ok =>
    let status := t.ended.getD .completed
    some { phase := .closed, agent := { a with lastOutcome := { a.lastOutcome with status } },
           events := [.turnEnd t.turn status a.lastOutcome.failure],
           report := some ⟨t.turn, status, t.exits⟩ }
  | .closing _, .raise what => throwDrive a what
  | .closed, .ok =>
    if a.stop then goto a (.finished none)
    else if (inboxOf log).hasPending then goto a .top
    else goto a (.finished none)
  | .closed, .raise what => throwDrive a what
  | .failing t what, .ok =>
    some { phase := .finished (some what), agent := a,
           events := [.turnEnd t.turn .error a.lastOutcome.failure],
           report := some ⟨t.turn, .error, t.exits⟩ }
  | .failing _ _, .raise what => throwDrive a what
  | _, _ => none

/-- The loop of `turn` and its `pre_step`, up to `step/start`. -/
def movePreStep : Phase → Outcome → Option Move
  | .looping t, .ok =>
    if a.stop then goto a (.closing { t with ended := some .aborted })
    else if a.maxSteps ≤ t.step then goto a (.closing { t with ended := some .blocked })
    else goto a (.claimingStep { t with step := t.step + 1 })
  | .claimingStep t, .ok =>
    let m := claim log .nextStep (inboxOf log).nextStep.length
    some { phase := if t.firstStep then .claimingTurn t m.removed else .proposing t m.removed,
           agent := a, events := m.events, claimed := m.removed }
  | .claimingStep t, .raise what => throwTurn a t what []
  | .claimingTurn t claimed, .ok =>
    let m := claim log .nextTurn 1
    some { phase := .proposing t (claimed ++ m.removed), agent := a, events := m.events,
           claimed := m.removed }
  | .claimingTurn t claimed, .raise what => throwTurn a t what claimed
  | .proposing t claimed, .context messages =>
    if t.firstStep then
      some { phase := .deciding t (messages ++ claimed ++ a.seed.toList), agent := { a with seed := none } }
    else if messages.isEmpty then goto a (.deciding t claimed)
    else none
  | .proposing t claimed, .raise what => throwTurn a t what claimed
  | .deciding t proposed, .decision reject messages =>
    if reject then
      some { phase := .decided t true [], agent := a, rejected := proposed }
    else
      some { phase := .decided t false messages, agent := a, rejected := leftOut proposed messages }
  | .deciding t proposed, .raise what => throwTurn a t what proposed
  | .decided t reject messages, .ok =>
    if reject then goto a (.closing { t with ended := some .blocked })
    else if t.ended.isSome ∧ messages.isEmpty then goto a (.closing t)
    else if t.firstStep ∧ messages.isEmpty then goto a (.closing { t with ended := some .completed })
    else goto a (.starting t messages)
  | .starting t messages, .ok => append a (.prompting t messages) [.stepStart t.turn t.step]
  | .starting t messages, .raise what => throwTurn a t what messages
  | _, _ => none

/-- `run_step`, up to the model's outcome. -/
def moveRequest : Phase → Outcome → Option Move
  | .prompting t messages, .events events =>
    if ∀ e ∈ events, e.Foreign then append a (.prompting t messages) events else none
  | .prompting t messages, .ok => goto a (.admitting t messages)
  | .prompting t messages, .raise what => throwStep a t what messages
  | .admitting t [], .ok => goto a (.requesting t)
  | .admitting t (message :: rest), .ok => append a (.admitting t rest) [.userMessage message]
  | .admitting t messages, .raise what => throwStep a t what messages
  | .requesting t, .events events =>
    if ∀ e ∈ events, e.Foreign then append a (.requesting t) events else none
  | .requesting t, .ok => goto a (.streaming t)
  | .requesting t, .raise what => throwStep a t what []
  | .streaming t, .chunks chunks =>
    let acc := StepAccumulator.accumulate chunks
    if acc.why = .error ∧ acc.failure.isSome ∧ ¬ a.stop then goto a (.retrying t acc)
    else goto a (.committing t acc)
  | .streaming t, .raise what => throwStep a t what []
  | .retrying t acc, .retry again => goto a (if again then .streaming t else .committing t acc)
  | .retrying t _, .raise what => throwStep a t what []
  | .committing t acc, .ok =>
    let commit := commitModelOutcome log t.turn t.step acc maxTokensAsSuccess
    match commit.terminal with
    | some status =>
      some { phase := .stepped t (some status), events := commit.events,
             agent := if status = .error then
                 { a with lastOutcome := { a.lastOutcome with failure := acc.failure } }
               else a }
    | none =>
      match Llm.toolCallsOf commit.blocks with
      | [] => append a (.stepped t (some .completed)) commit.events
      | calls => append a (.calling t calls {}) commit.events
  | .committing t _, .raise what => throwStep a t what []
  | _, _ => none

/-- `execute_tools`. -/
def moveTools : Phase → Outcome → Option Move
  | .calling t [] outcome, .ok => goto a (.stepped t outcome.exit)
  | .calling t (call :: calls) outcome, .ok =>
    append a (.called t call calls outcome) [.toolCall t.turn t.step call]
  | .calling t _ _, .raise what => throwStep a t what []
  | .called t call calls outcome, .ok =>
    if outcome.aborted ∨ a.stop then
      goto a (.answering t call (errorResult "Error: tool call aborted before dispatch") calls
        { outcome with aborted := true })
    else goto a (.invoking t call calls outcome)
  | .called t _ _ _, .raise what => throwStep a t what []
  | .invoking t call calls outcome, .result result => goto a (.answering t call result calls outcome)
  | .invoking t _ _ _, .raise what => throwStep a t what []
  | .answering t call result calls outcome, .ok =>
    append a (.calling t calls { outcome with concluded := outcome.concluded || result.concludesTurn })
      [.toolResult ("t" ++ toString log.length) call.id result.content result.isError]
  | .answering t _ _ _ _, .raise what => throwStep a t what []
  | _, _ => none

/-- The end of a step and the check whether its turn goes on. -/
def moveStepEnd : Phase → Outcome → Option Move
  | .stepped t exit, .ok => append a (.checking (t.stepped exit)) [.stepEnd t.turn t.step]
  | .stepped t exit, .raise what => throwTurn a { t with exits := t.exits ++ [exit] } what []
  | .unwinding t what, .ok => append a (.failing t what) [.stepEnd t.turn t.step]
  | .unwinding t _, .raise what => throwTurn a t what []
  | .checking t, .ok =>
    if t.ended.isSome ∧ (inboxOf log).nextStep.isEmpty then goto a (.stopping t)
    else goto a (.looping t)
  | .stopping t, .ok => goto a (.rechecking t)
  | .stopping t, .raise what => throwTurn a t what []
  | .rechecking t, .ok =>
    if (inboxOf log).nextStep.isEmpty then goto a (.closing t) else goto a (.looping t)
  | _, _ => none

/-- `on_drive_done`, up to the waiters and then the pending wake. -/
def moveDone : Phase → Outcome → Option Move
  | .finished what, .ok =>
    let lastOutcome := match what with
      | none => a.lastOutcome
      | some message => { a.lastOutcome with status := .error, failure := some { message } }
    some { phase := .resuming,
           agent := { a with running := false, callerStop := none, bridge := none, lastOutcome } }
  | .resuming, .ok => some { phase := .gone, agent := { a with wakeRequested := false } }
  | _, _ => none

/-- The group of phases that a phase belongs to decides what advances it. -/
def move (phase : Phase) (outcome : Outcome) : Option Move :=
  moveDrive log a phase outcome <|> movePreStep log a phase outcome <|>
    moveRequest maxTokensAsSuccess log a phase outcome <|> moveTools log a phase outcome <|>
    moveStepEnd log a phase outcome <|> moveDone a phase outcome

end

/-- The user messages of a log. -/
def admitted (log : Log) : List Json :=
  log.filterMap fun
    | .userMessage data => some data
    | _ => none

/-! The service -/

/-- The service as one session sees it: `current` is the driver in the registry,
`agents` all that were ever made. From `accepted` on the fields are histories; `awaited`
are the ids that `followup` and `steer` have queued since the last `cancel`. -/
structure World where
  log : Log := []
  agents : List AgentState := []
  current : Option Nat := none
  drives : List Drive := []
  stopped : List Token := []
  maxTokensAsSuccess : Bool := false
  accepted : List Json := []
  discarded : List Json := []
  rejected : List Json := []
  lost : List Json := []
  awaited : List String := []
  reports : List TurnReport := []
  raised : Bool := false

inductive Call where
  | create
  | createFailed
  | run (options : DriveOptions) (input : String) (refused : Bool)
  | followup (message : Json) (options : DriveOptions) (refused : Bool)
  | steer (message : Json) (options : DriveOptions) (refused : Bool)
  | inject (message : Json) (refused : Bool)
  | cancel (keepInbox : Bool) (refused : Option InboxTarget)
  | dispose
  | shutdown
  | requestStop (token : Token)
  | append (event : LoopEvent)

inductive Act where
  | call (call : Call)
  | advance (drive : Nat) (outcome : Outcome)

namespace World

def updateAgent (w : World) (i : Nat) (f : AgentState → AgentState) : World :=
  { w with agents := w.agents.modify i f }

/-- `kick`: no second drive of a running driver. -/
def kick (w : World) (i : Nat) : World :=
  match w.agents[i]? with
  | none => w
  | some a =>
    if a.running then w
    else
      { w.updateAgent i fun a =>
          { a with running := true, stop := a.callerStop.any (· ∈ w.stopped), bridge := a.callerStop } with
        drives := w.drives ++ [{ agent := i }] }

/-- `enqueue`: the message goes to the end of its queue. -/
def enqueue (w : World) (target : InboxTarget) (message : Json) : World :=
  { w with
    log := w.log ++ [.inboxSpliced
      (makeInboxSplice (inboxOf w.log) target int64Max 0 [message] false).data]
    accepted := w.accepted ++ [message] }

/-- `clear_inbox` on one queue. -/
def discard (w : World) (target : InboxTarget) : World :=
  let m := makeInboxSplice (inboxOf w.log) target 0 ((inboxOf w.log).queue target).length [] true
  { w with log := w.log ++ m.events, discarded := w.discarded ++ m.removed }

def requestAbort (w : World) (i : Nat) : World :=
  w.updateAgent i fun a => if a.running then { a with stop := true } else a

/-- The history of a message about to enter a queue. -/
def await (w : World) (message : Json) : World :=
  let id := inboxMessageId message
  if id = "" ∨ id ∈ (inboxOf w.log).ids then w else { w with awaited := id :: w.awaited }

/-- `followup` and `steer`, once the driver is there. -/
def wakeWith (w : World) (i : Nat) (target : InboxTarget) (message : Json) (options : DriveOptions)
    (refused : Bool) : World :=
  let w := w.updateAgent i (·.mergeExec options)
  if refused then w else (((w.await message).enqueue target message).kick i)

def runInput (w : World) (input : String) : Json :=
  Llm.userMessageData ("u" ++ toString w.log.length)
    [.obj [("type", .str "text"), ("text", .str input)]] none

def run (w : World) (i : Nat) (options : DriveOptions) (input : String) (refused : Bool) : World :=
  let w := w.updateAgent i (·.mergeExec options)
  if input.isEmpty then w.kick i
  else if (w.agents[i]?).any (·.running) then
    if refused then w
    else (w.enqueue .nextTurn (w.runInput input)).updateAgent i ({ · with wakeRequested := true })
  else (w.updateAgent i ({ · with seed := some (w.runInput input) })).kick i

/-- `cancel`: a refused append leaves it before it reaches the drive. -/
def cancel (w : World) (i : Nat) (keepInbox : Bool) (refused : Option InboxTarget) : Option World :=
  if keepInbox then
    if refused.isSome then none else some (w.requestAbort i)
  else
    match refused with
    | none => some (((w.discard .nextStep).discard .nextTurn).requestAbort i)
    | some .nextStep => if (inboxOf w.log).nextStep.isEmpty then none else some w
    | some .nextTurn => if (inboxOf w.log).nextTurn.isEmpty then none else some (w.discard .nextStep)

def call (w : World) : Call → Option World
  | .create =>
    match w.current with
    | some _ => some w
    | none => some { w with agents := w.agents ++ [{}], current := some w.agents.length }
  | .createFailed => some { w with current := none }
  | .run options input refused => w.current.map fun i => w.run i options input refused
  | .followup message options refused =>
    w.current.map fun i => w.wakeWith i .nextTurn message options refused
  | .steer message options refused =>
    w.current.map fun i => w.wakeWith i .nextStep message options refused
  | .inject message refused =>
    w.current.map fun _ => if refused then w else w.enqueue .nextStep message
  | .cancel keepInbox refused =>
    match w.current with
    | none => some { w with awaited := [] }
    | some i => ({ w with awaited := [] } : World).cancel i keepInbox refused
  | .dispose | .shutdown =>
    match w.current with
    | none => some w
    | some i => some { w.requestAbort i with current := none }
  | .requestStop token =>
    some { w with
      stopped := token :: w.stopped
      agents := w.agents.map fun a => if a.bridge = some token then { a with stop := true } else a }
  | .append event => if event.Foreign then some { w with log := w.log ++ [event] } else none

/-- What a move of drive `i` writes. -/
def apply (w : World) (i : Nat) (d : Drive) (m : Move) : World :=
  { w with
    log := w.log ++ m.events
    agents := w.agents.set d.agent m.agent
    drives := w.drives.set i { d with phase := m.phase }
    rejected := w.rejected ++ m.rejected
    lost := w.lost ++ m.lost
    awaited := w.awaited.filter (· ∉ messageIds m.claimed)
    reports := w.reports ++ m.report.toList
    raised := w.raised || (match d.phase with | .finished what => what.isSome | _ => false) }

/-- The completion handler ends with the wake it was asked for. -/
def rewake (w : World) (i : Nat) (a : AgentState) : World :=
  if a.wakeRequested && (inboxOf w.log).hasPending then w.kick i else w

def advance (w : World) (i : Nat) (outcome : Outcome) : Option World :=
  match w.drives[i]? with
  | none => none
  | some d =>
    match w.agents[d.agent]? with
    | none => none
    | some a =>
      (move w.maxTokensAsSuccess w.log a d.phase outcome).map fun m =>
        let w' := w.apply i d m
        match d.phase with
        | .resuming => w'.rewake d.agent a
        | _ => w'

def next (w : World) : Act → Option World
  | .call c => w.call c
  | .advance i outcome => w.advance i outcome

/-- The service before it knows the session; what the log has pending or admitted
was accepted by an earlier one. -/
def fresh (log : Log) (maxTokensAsSuccess : Bool) : World where
  log
  maxTokensAsSuccess
  accepted := admitted log ++ (inboxOf log).nextTurn ++ (inboxOf log).nextStep

end World

/-- The runs of the service over a session whose log it found `ready`. -/
def loopSystem (ready : Log → Prop) : System World Act where
  start w := ∃ log maxTokensAsSuccess, ready log ∧ w = World.fresh log maxTokensAsSuccess
  step w a w' := w.next a = some w'

/-! Schedules -/

def queued (id : String) : Json := Llm.userMessageData id [] none

def advances (drive : Nat) (outcomes : List Outcome) : List Act := outcomes.map (.advance drive)

/-- From `proposing` on, with one message that the listeners let pass, up to the stream. -/
def admitBatch (id : String) : List Outcome :=
  [.context [], .decision false [queued id], .ok, .ok, .ok, .ok, .ok, .ok]

/-- A drive from its start, or from its next turn, to the stream of the first step. -/
def toStream (id : String) (posted : Bool) : List Outcome :=
  (if posted then [.ok] else []) ++ [.ok, .ok, .ok, .ok, .ok] ++ admitBatch id

end Araya.Agent
