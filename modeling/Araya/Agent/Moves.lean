import Araya.Agent.Loop

/-!
What one advance of a drive can do, said once: every invariant of the loop is a
case analysis of `Moved`. A raise is one case for all phases of a step and one
for all phases of a turn outside a step.
-/

namespace Araya.Agent

open Llm (StepAccumulator StreamChunk ToolCallBlock)

namespace Phase

/-- The part of its batch that a drive holds, claimed and not admitted yet. -/
def hands : Phase → List Json
  | .claimingTurn _ messages | .proposing _ messages | .deciding _ messages | .decided _ _ messages
  | .starting _ messages | .prompting _ messages | .admitting _ messages => messages
  | _ => []

/-- The turn of a drive that is inside `run_step`. -/
def running : Phase → Option TurnState
  | .prompting t _ | .admitting t _ | .requesting t | .streaming t | .retrying t _ | .committing t _
  | .calling t _ _ | .called t _ _ _ | .invoking t _ _ _ | .answering t _ _ _ _ => some t
  | _ => none

/-- The turn of a drive that is between two steps, where something may raise. -/
def between : Phase → Option TurnState
  | .claimingStep t | .claimingTurn t _ | .proposing t _ | .deciding t _ | .starting t _
  | .stopping t => some t
  | _ => none

end Phase

section
variable (maxTokensAsSuccess : Bool) (log : Log) (a : AgentState)

inductive Moved : Phase → Outcome → Move → Prop
  | start : Moved .posted .ok { phase := .top, agent := a }
  | halts : a.stop = true → Moved .top .ok { phase := .finished none, agent := a }
  | turns : a.stop = false → Moved .top .ok { phase := .opening, agent := a }
  | opens : Moved .opening .ok
      { phase := .looping { turn := nextTurn log }, events := [.turnStart (nextTurn log)],
        agent := { a with lastOutcome := { a.lastOutcome with turn := nextTurn log } } }
  | opensNot (what : String) : Moved .opening (.raise what)
      { phase := .finished (some what),
        agent := { a with lastOutcome := { a.lastOutcome with turn := nextTurn log } } }
  | aborts (t : TurnState) : a.stop = true → Moved (.looping t) .ok
      { phase := .closing { t with ended := some .aborted }, agent := a }
  | blocks (t : TurnState) : a.stop = false → Moved (.looping t) .ok
      { phase := .closing { t with ended := some .blocked }, agent := a }
  | nextStep (t : TurnState) : a.stop = false → Moved (.looping t) .ok
      { phase := .claimingStep { t with step := t.step + 1 }, agent := a }
  | claimsStep (t : TurnState) (m : InboxMutation) :
      m = claim log .nextStep (inboxOf log).nextStep.length → Moved (.claimingStep t) .ok
      { phase := if t.firstStep then .claimingTurn t m.removed else .proposing t m.removed,
        agent := a, events := m.events, claimed := m.removed }
  | claimsTurn (t : TurnState) (claimed : List Json) (m : InboxMutation) :
      m = claim log .nextTurn 1 → Moved (.claimingTurn t claimed) .ok
      { phase := .proposing t (claimed ++ m.removed), agent := a, events := m.events,
        claimed := m.removed }
  | proposes (t : TurnState) (claimed messages : List Json) : Moved (.proposing t claimed) (.context messages)
      { phase := .deciding t (messages ++ claimed ++ a.seed.toList), agent := { a with seed := none } }
  | proposesOn (t : TurnState) (claimed : List Json) : Moved (.proposing t claimed) (.context [])
      { phase := .deciding t claimed, agent := a }
  | rejects (t : TurnState) (proposed messages : List Json) :
      Moved (.deciding t proposed) (.decision true messages)
      { phase := .decided t true [], agent := a, rejected := proposed }
  | decides (t : TurnState) (proposed messages : List Json) :
      Moved (.deciding t proposed) (.decision false messages)
      { phase := .decided t false messages, agent := a, rejected := leftOut proposed messages }
  | blocked (t : TurnState) (messages : List Json) : Moved (.decided t true messages) .ok
      { phase := .closing { t with ended := some .blocked }, agent := a }
  | emptied (t : TurnState) : t.ended.isSome = true → Moved (.decided t false []) .ok
      { phase := .closing t, agent := a }
  | emptiedFirst (t : TurnState) : t.firstStep = true → Moved (.decided t false []) .ok
      { phase := .closing { t with ended := some .completed }, agent := a }
  | begins (t : TurnState) (messages : List Json) :
      (messages = [] → t.ended = none ∧ t.firstStep = false) → Moved (.decided t false messages) .ok
      { phase := .starting t messages, agent := a }
  | starts (t : TurnState) (messages : List Json) : Moved (.starting t messages) .ok
      { phase := .prompting t messages, agent := a, events := [.stepStart t.turn t.step] }
  | prompts (t : TurnState) (messages : List Json) (events : List LoopEvent) :
      (∀ e ∈ events, e.Foreign) → Moved (.prompting t messages) (.events events)
      { phase := .prompting t messages, agent := a, events }
  | prompted (t : TurnState) (messages : List Json) : Moved (.prompting t messages) .ok
      { phase := .admitting t messages, agent := a }
  | admits (t : TurnState) (message : Json) (rest : List Json) : Moved (.admitting t (message :: rest)) .ok
      { phase := .admitting t rest, agent := a, events := [.userMessage message] }
  | admitted (t : TurnState) : Moved (.admitting t []) .ok { phase := .requesting t, agent := a }
  | requests (t : TurnState) (events : List LoopEvent) :
      (∀ e ∈ events, e.Foreign) → Moved (.requesting t) (.events events)
      { phase := .requesting t, agent := a, events }
  | requested (t : TurnState) : Moved (.requesting t) .ok { phase := .streaming t, agent := a }
  | streams (t : TurnState) (chunks : List StreamChunk) : Moved (.streaming t) (.chunks chunks)
      { phase := .committing t (.accumulate chunks), agent := a }
  | breaks (t : TurnState) (chunks : List StreamChunk) : Moved (.streaming t) (.chunks chunks)
      { phase := .retrying t (.accumulate chunks), agent := a }
  | retries (t : TurnState) (acc : StepAccumulator) : Moved (.retrying t acc) (.retry true)
      { phase := .streaming t, agent := a }
  | givesUp (t : TurnState) (acc : StepAccumulator) : Moved (.retrying t acc) (.retry false)
      { phase := .committing t acc, agent := a }
  | ends (t : TurnState) (acc : StepAccumulator) (status : RunStatus) (a' : AgentState) :
      (commitModelOutcome log t.turn t.step acc maxTokensAsSuccess).terminal = some status →
      a' = (if status = .error then
        { a with lastOutcome := { a.lastOutcome with failure := acc.failure } } else a) →
      Moved (.committing t acc) .ok
      { phase := .stepped t (some status), agent := a',
        events := (commitModelOutcome log t.turn t.step acc maxTokensAsSuccess).events }
  | answered (t : TurnState) (acc : StepAccumulator) :
      (commitModelOutcome log t.turn t.step acc maxTokensAsSuccess).terminal = none →
      Llm.toolCallsOf (commitModelOutcome log t.turn t.step acc maxTokensAsSuccess).blocks = [] →
      Moved (.committing t acc) .ok
      { phase := .stepped t (some .completed), agent := a,
        events := (commitModelOutcome log t.turn t.step acc maxTokensAsSuccess).events }
  | asks (t : TurnState) (acc : StepAccumulator) :
      (commitModelOutcome log t.turn t.step acc maxTokensAsSuccess).terminal = none →
      Llm.toolCallsOf (commitModelOutcome log t.turn t.step acc maxTokensAsSuccess).blocks ≠ [] →
      Moved (.committing t acc) .ok
      { phase := .calling t
          (Llm.toolCallsOf (commitModelOutcome log t.turn t.step acc maxTokensAsSuccess).blocks) {},
        agent := a, events := (commitModelOutcome log t.turn t.step acc maxTokensAsSuccess).events }
  | calls (t : TurnState) (call : ToolCallBlock) (calls : List ToolCallBlock) (o : ToolBatchOutcome) :
      Moved (.calling t (call :: calls) o) .ok
      { phase := .called t call calls o, agent := a, events := [.toolCall t.turn t.step call] }
  | skips (t : TurnState) (call : ToolCallBlock) (calls : List ToolCallBlock) (o : ToolBatchOutcome) :
      Moved (.called t call calls o) .ok
      { phase := .answering t call (errorResult "Error: tool call aborted before dispatch") calls
          { o with aborted := true }, agent := a }
  | invokes (t : TurnState) (call : ToolCallBlock) (calls : List ToolCallBlock) (o : ToolBatchOutcome) :
      Moved (.called t call calls o) .ok { phase := .invoking t call calls o, agent := a }
  | invoked (t : TurnState) (call : ToolCallBlock) (calls : List ToolCallBlock) (o : ToolBatchOutcome)
      (r : ToolResult) : Moved (.invoking t call calls o) (.result r)
      { phase := .answering t call r calls o, agent := a }
  | answers (t : TurnState) (call : ToolCallBlock) (r : ToolResult) (calls : List ToolCallBlock)
      (o : ToolBatchOutcome) : Moved (.answering t call r calls o) .ok
      { phase := .calling t calls { o with concluded := o.concluded || r.concludesTurn }, agent := a,
        events := [.toolResult ("t" ++ toString log.length) call.id r.content r.isError] }
  | returns (t : TurnState) (o : ToolBatchOutcome) : Moved (.calling t [] o) .ok
      { phase := .stepped t o.exit, agent := a }
  | steps (t : TurnState) (exit : Option RunStatus) : Moved (.stepped t exit) .ok
      { phase := .checking (t.stepped exit), agent := a, events := [.stepEnd t.turn t.step] }
  | stepsNot (t : TurnState) (exit : Option RunStatus) (what : String) :
      Moved (.stepped t exit) (.raise what)
      { phase := .failing { t with exits := t.exits ++ [exit] } what, agent := a }
  | raisesStep (p : Phase) (t : TurnState) (what : String) : p.running = some t → Moved p (.raise what)
      { phase := .unwinding t what, agent := a, lost := p.hands }
  | unwinds (t : TurnState) (what : String) : Moved (.unwinding t what) .ok
      { phase := .failing t what, agent := a, events := [.stepEnd t.turn t.step] }
  | unwindsNot (t : TurnState) (what what' : String) : Moved (.unwinding t what) (.raise what')
      { phase := .failing t what', agent := a }
  | stops (t : TurnState) : t.ended.isSome = true → Moved (.checking t) .ok
      { phase := .stopping t, agent := a }
  | loops (t : TurnState) : Moved (.checking t) .ok { phase := .looping t, agent := a }
  | rechecks (t : TurnState) : Moved (.stopping t) .ok { phase := .rechecking t, agent := a }
  | settles (t : TurnState) : (inboxOf log).nextStep = [] → Moved (.rechecking t) .ok
      { phase := .closing t, agent := a }
  | reopens (t : TurnState) : Moved (.rechecking t) .ok { phase := .looping t, agent := a }
  | raisesTurn (p : Phase) (t : TurnState) (what : String) : p.between = some t → Moved p (.raise what)
      { phase := .failing t what, agent := a, lost := p.hands }
  | closes (t : TurnState) : Moved (.closing t) .ok
      { phase := .closed, events := [.turnEnd t.turn (t.ended.getD .completed) a.lastOutcome.failure],
        agent := { a with lastOutcome := { a.lastOutcome with status := t.ended.getD .completed } },
        report := some ⟨t.turn, t.ended.getD .completed, t.exits⟩ }
  | closesNot (t : TurnState) (what : String) : Moved (.closing t) (.raise what)
      { phase := .finished (some what), agent := a }
  | fails (t : TurnState) (what : String) : Moved (.failing t what) .ok
      { phase := .finished (some what), agent := a,
        events := [.turnEnd t.turn .error a.lastOutcome.failure], report := some ⟨t.turn, .error, t.exits⟩ }
  | failsNot (t : TurnState) (what what' : String) : Moved (.failing t what) (.raise what')
      { phase := .finished (some what'), agent := a }
  | closedNot (what : String) : Moved .closed (.raise what) { phase := .finished (some what), agent := a }
  | drains : a.stop = true ∨ (inboxOf log).hasPending = false → Moved .closed .ok
      { phase := .finished none, agent := a }
  | goesOn : Moved .closed .ok { phase := .top, agent := a }
  | finishes (what : Option String) (lastOutcome : RunOutcome) : Moved (.finished what) .ok
      { phase := .resuming,
        agent := { a with running := false, callerStop := none, bridge := none, lastOutcome } }
  | resumes : Moved .resuming .ok { phase := .gone, agent := { a with wakeRequested := false } }

end

section
variable {success : Bool} {log : Log} {a : AgentState} {p : Phase} {o : Outcome} {m : Move}

theorem moved_of_drive (h : moveDrive log a p o = some m) : Moved success log a p o m := by
  fun_cases moveDrive log a p o <;>
    simp only [moveDrive, goto, throwDrive, if_true, if_false, Bool.false_eq_true, reduceCtorEq, *] at h <;>
    cases h
  case case1 => exact .start
  case case2 hs => exact .halts hs
  case case3 hs => exact .turns (by simpa using hs)
  case case4 => exact .opens
  case case5 what => exact .opensNot what
  case case6 t _ => exact .closes t
  case case7 t what => exact .closesNot t what
  case case8 hs => exact .drains (.inl hs)
  case case9 => exact .goesOn
  case case10 hp => exact .drains (.inr (by simpa using hp))
  case case11 what => exact .closedNot what
  case case12 t what => exact .fails t what
  case case13 t what what' => exact .failsNot t what what'

theorem moved_of_preStep (h : movePreStep log a p o = some m) : Moved success log a p o m := by
  simp only [movePreStep, goto, append, throwTurn] at h
  split at h
  case h_1 t =>
      split at h
      · next hs => cases h; exact .aborts t hs
      · next hs =>
          split at h <;> cases h
          · exact .blocks t (by simpa using hs)
          · exact .nextStep t (by simpa using hs)
  case h_2 t => cases h; exact .claimsStep t _ rfl
  case h_3 t what => cases h; exact .raisesTurn _ t what rfl
  case h_4 t claimed => cases h; exact .claimsTurn t claimed _ rfl
  case h_5 t claimed what => cases h; exact .raisesTurn _ t what rfl
  case h_6 t claimed messages =>
      split at h
      · cases h; exact .proposes t claimed messages
      · split at h
        · next he => cases h; cases List.isEmpty_iff.mp he; exact .proposesOn t claimed
        · cases h
  case h_7 t claimed what => cases h; exact .raisesTurn _ t what rfl
  case h_8 t proposed reject messages =>
      cases reject <;> cases h
      · exact .decides t proposed messages
      · exact .rejects t proposed messages
  case h_9 t proposed what => cases h; exact .raisesTurn _ t what rfl
  case h_10 t reject messages =>
      cases reject
      · rw [if_neg Bool.false_ne_true] at h
        split at h
        · next he => cases h; cases List.isEmpty_iff.mp he.2; exact .emptied t he.1
        · next ended =>
            split at h
            · next he => cases h; cases List.isEmpty_iff.mp he.2; exact .emptiedFirst t he.1
            · next first =>
                cases h
                refine .begins t messages fun hm => ⟨?_, ?_⟩
                · simpa [hm] using ended
                · simpa [hm] using first
      · cases h; exact .blocked t messages
  case h_11 t messages => cases h; exact .starts t messages
  case h_12 t messages what => cases h; exact .raisesTurn _ t what rfl
  case h_13 => cases h

theorem moved_of_request (h : moveRequest success log a p o = some m) : Moved success log a p o m := by
  simp only [moveRequest, goto, append, throwStep] at h
  split at h
  case h_1 t messages events =>
      split at h
      · next hf => cases h; exact .prompts t messages events hf
      · cases h
  case h_2 t messages => cases h; exact .prompted t messages
  case h_3 t messages what => cases h; exact .raisesStep _ t what rfl
  case h_4 t => cases h; exact .admitted t
  case h_5 t message rest => cases h; exact .admits t message rest
  case h_6 t messages what => cases h; exact .raisesStep _ t what rfl
  case h_7 t events =>
      split at h
      · next hf => cases h; exact .requests t events hf
      · cases h
  case h_8 t => cases h; exact .requested t
  case h_9 t what => cases h; exact .raisesStep _ t what rfl
  case h_10 t chunks =>
      split at h <;> cases h
      · exact .breaks t chunks
      · exact .streams t chunks
  case h_11 t what => cases h; exact .raisesStep _ t what rfl
  case h_12 t acc again =>
      cases again <;> cases h
      · exact .givesUp t acc
      · exact .retries t acc
  case h_13 t acc what => cases h; exact .raisesStep _ t what rfl
  case h_14 t acc =>
      split at h
      · next status hs => cases h; exact .ends t acc status _ hs rfl
      · next hn =>
          split at h
          · next hc => cases h; exact .answered t acc hn hc
          · next hc => cases h; exact .asks t acc hn hc
  case h_15 t acc what => cases h; exact .raisesStep _ t what rfl
  case h_16 => cases h

theorem moved_of_tools (h : moveTools log a p o = some m) : Moved success log a p o m := by
  simp only [moveTools, goto, append, throwStep] at h
  split at h
  case h_1 t o => cases h; exact .returns t o
  case h_2 t call calls o => cases h; exact .calls t call calls o
  case h_3 t calls o what => cases h; exact .raisesStep _ t what rfl
  case h_4 t call calls o =>
      split at h <;> cases h
      · exact .skips t call calls o
      · exact .invokes t call calls o
  case h_5 t call calls o what => cases h; exact .raisesStep _ t what rfl
  case h_6 t call calls o r => cases h; exact .invoked t call calls o r
  case h_7 t call calls o what => cases h; exact .raisesStep _ t what rfl
  case h_8 t call r calls o => cases h; exact .answers t call r calls o
  case h_9 t call r calls o what => cases h; exact .raisesStep _ t what rfl
  case h_10 => cases h

theorem moved_of_stepEnd (h : moveStepEnd log a p o = some m) : Moved success log a p o m := by
  simp only [moveStepEnd, goto, append, throwTurn] at h
  split at h
  case h_1 t exit => cases h; exact .steps t exit
  case h_2 t exit what => cases h; exact .stepsNot t exit what
  case h_3 t what => cases h; exact .unwinds t what
  case h_4 t what what' => cases h; exact .unwindsNot t what what'
  case h_5 t =>
      split at h
      · next he => cases h; exact .stops t he.1
      · cases h; exact .loops t
  case h_6 t => cases h; exact .rechecks t
  case h_7 t what => cases h; exact .raisesTurn _ t what rfl
  case h_8 t =>
      split at h
      · next he => cases h; exact .settles t (List.isEmpty_iff.mp he)
      · cases h; exact .reopens t
  case h_9 => cases h

theorem moved_of_done (h : moveDone a p o = some m) : Moved success log a p o m := by
  simp only [moveDone] at h
  split at h
  case h_1 what => cases h; exact .finishes what _
  case h_2 => cases h; exact .resumes
  case h_3 => cases h

theorem of_orElse {x y : Option Move} (h : (x <|> y) = some m) : x = some m ∨ y = some m := by
  cases x with
  | none => exact .inr h
  | some x => exact .inl h

theorem moved_of_move (h : move success log a p o = some m) : Moved success log a p o m := by
  rcases of_orElse h with h | h
  · exact moved_of_drive h
  rcases of_orElse h with h | h
  · exact moved_of_preStep h
  rcases of_orElse h with h | h
  · exact moved_of_request h
  rcases of_orElse h with h | h
  · exact moved_of_tools h
  rcases of_orElse h with h | h
  · exact moved_of_stepEnd h
  · exact moved_of_done h

end

/-- What a commit appends: an assistant message of its blocks, an attempt, or nothing. -/
theorem commit_cases (log : Log) (turn step : Nat) (acc : StepAccumulator) (success : Bool) :
    let commit := commitModelOutcome log turn step acc success
    (∃ message : AssistantMessage, commit.events = [.assistantMessage message] ∧ message.turn = turn ∧
      message.blocks = commit.blocks) ∨
    (∃ failure, commit.events = [.assistantAttempt turn step failure]) ∨ commit.events = [] := by
  simp only [commitModelOutcome]
  split_ifs with hfailed hempty _ hint
  · exact .inr (.inl ⟨_, rfl⟩)
  · exact .inr (.inl ⟨_, rfl⟩)
  all_goals first
    | exact .inl ⟨_, rfl, rfl, rfl⟩
    | exact .inr (.inl ⟨_, rfl⟩)
    | exact .inr (.inr rfl)

/-! What a move does to the inbox -/

theorem foldl_foldInbox {events : List LoopEvent} (h : ∀ e ∈ events, e.type ≠ "agent/inbox/spliced")
    (state : InboxState) : events.foldl foldInbox state = state := by
  induction events generalizing state with
  | nil => rfl
  | cons e rest ih =>
      rw [List.foldl_cons, foldInbox_of_type (h e List.mem_cons_self)]
      exact ih (fun e' he => h e' (List.mem_cons_of_mem _ he)) state

theorem inboxOf_append {log events : Log} (h : ∀ e ∈ events, e.type ≠ "agent/inbox/spliced") :
    inboxOf (log ++ events) = inboxOf log := by
  simp only [inboxOf, List.foldl_append, foldl_foldInbox h]

theorem inboxOf_mutation {log : Log} {target : InboxTarget} {start count : Int} {inserted : List Json}
    {discard : Bool} {m : InboxMutation}
    (h : m = makeInboxSplice (inboxOf log) target start count inserted discard) (hn : m.noop = false) :
    inboxOf (log ++ m.events) = (inboxOf log).spliced target start count inserted := by
  subst h
  rw [InboxMutation.events, hn, if_neg Bool.false_ne_true, inboxOf_concat, foldInbox_spliced]
  exact applyInboxSplice_make _ _ _ _ _ _ hn

/-- A removal, also one that removes nothing, takes from the inbox what it reports. -/
theorem count_inboxOf_removed {log : Log} {target : InboxTarget} {start count : Int} {discard : Bool}
    {m : InboxMutation} (h : m = makeInboxSplice (inboxOf log) target start count [] discard) (x : String) :
    (inboxOf (log ++ m.events)).ids.count x + (messageIds m.removed).count x =
      (inboxOf log).ids.count x := by
  cases hn : m.noop with
  | false =>
      rw [inboxOf_mutation h hn, h]
      exact count_removed _ _ _ _ _ _
  | true =>
      have hr : m.removed = [] := by
        subst h
        unfold makeInboxSplice at hn ⊢
        simp only at hn ⊢
        split at hn
        · next hc => rw [if_pos hc]
        · cases hn
      simp [InboxMutation.events, hn, hr, messageIds]

/-- What a step commits leaves the inbox alone. -/
theorem commit_plain {success : Bool} {log : Log} (t : TurnState) (acc : StepAccumulator) :
    ∀ e ∈ (commitModelOutcome log t.turn t.step acc success).events, e.type ≠ "agent/inbox/spliced" := by
  rcases commit_cases log t.turn t.step acc success with ⟨message, hc, _⟩ | ⟨failure, hc⟩ | hc <;>
    rw [hc] <;> simp [LoopEvent.type]

/-- A move takes from the inbox what it claims, and adds nothing to it. -/
theorem moved_ids {success : Bool} {log : Log} {a : AgentState} {p : Phase} {o : Outcome} {m : Move}
    (h : Moved success log a p o m) (x : String) :
    (inboxOf (log ++ m.events)).ids.count x + (messageIds m.claimed).count x =
      (inboxOf log).ids.count x := by
  have plain : ∀ {events : List LoopEvent}, (∀ e ∈ events, e.type ≠ "agent/inbox/spliced") →
      (inboxOf (log ++ events)).ids.count x + (messageIds []).count x = (inboxOf log).ids.count x :=
    fun he => by rw [inboxOf_append he]; simp [messageIds]
  cases h with
  | claimsStep t m hm | claimsTurn t claimed m hm => exact count_inboxOf_removed hm x
  | prompts t messages events hf | requests t events hf =>
      refine plain fun e he ht => hf e he ?_
      rw [ht]
      simp [loopTypes]
  | ends t acc _ _ _ _ | answered t acc _ _ | asks t acc _ _ => exact plain (commit_plain t acc)
  | _ => exact plain (by simp [LoopEvent.type])

theorem moved_seed {success : Bool} {log : Log} {a : AgentState} {p : Phase} {o : Outcome} {m : Move}
    (h : Moved success log a p o m) : m.agent.seed = a.seed ∨ m.agent.seed = none := by
  cases h with
  | ends t acc status a' _ ha =>
      rw [ha]
      split <;> exact .inl rfl
  | proposes _ _ _ => exact .inr rfl
  | _ => exact .inl rfl

/-! What a step of the service does -/

namespace World
variable {w w' : World} {i : Nat} {o : Outcome}

/-- An advance of a drive is one of its moves; only the last one may wake the driver again. -/
theorem advance_move (h : w.advance i o = some w') : ∃ d a m, w.drives[i]? = some d ∧
    w.agents[d.agent]? = some a ∧ move w.maxTokensAsSuccess w.log a d.phase o = some m ∧
    (w' = w.apply i d m ∨ d.phase = .resuming ∧ w' = (w.apply i d m).rewake d.agent a) := by
  unfold advance at h
  split at h
  · cases h
  · next d hd =>
      split at h
      · cases h
      · next a ha =>
          obtain ⟨m, hm, hw⟩ := Option.map_eq_some_iff.mp h
          refine ⟨d, a, m, hd, ha, hm, ?_⟩
          simp only at hw
          split at hw
          · next hp => exact .inr ⟨hp, hw.symm⟩
          · exact .inl hw.symm

theorem advance_cases (h : w.advance i o = some w') : ∃ d a m, w.drives[i]? = some d ∧
    w.agents[d.agent]? = some a ∧ Moved w.maxTokensAsSuccess w.log a d.phase o m ∧
    (w' = w.apply i d m ∨ d.phase = .resuming ∧ w' = (w.apply i d m).rewake d.agent a) := by
  obtain ⟨d, a, m, hd, ha, hm, hw⟩ := advance_move h
  exact ⟨d, a, m, hd, ha, moved_of_move hm, hw⟩

theorem updateAgent_seeds {w : World} {P : Json → Prop} (i : Nat) {f : AgentState → AgentState}
    (kept : ∀ a, ∀ s ∈ (f a).seed, s ∈ a.seed ∨ P s) (seeds : ∀ a ∈ w.agents, ∀ s ∈ a.seed, P s) :
    ∀ a ∈ (w.updateAgent i f).agents, ∀ s ∈ a.seed, P s := by
  intro a ha s hs
  obtain ⟨j, hj⟩ := List.mem_iff_getElem?.mp ha
  simp only [updateAgent, List.getElem?_modify] at hj
  obtain ⟨b, hb, rfl⟩ := Option.map_eq_some_iff.mp hj
  have hmem := List.mem_of_getElem? hb
  split at hs
  · exact (kept b s hs).elim (seeds b hmem s) id
  · exact seeds b hmem s hs

/-- A kick starts a drive of an idle driver, or it does nothing. -/
theorem kick_cases (w : World) (i : Nat) : w.kick i = w ∨ ∃ a, w.agents[i]? = some a ∧ a.running = false ∧
    w.kick i = { w with
      agents := w.agents.modify i fun a =>
        { a with running := true, stop := a.callerStop.any (· ∈ w.stopped), bridge := a.callerStop }
      drives := w.drives ++ [{ agent := i }] } := by
  unfold kick
  cases ha : w.agents[i]? with
  | none => exact .inl rfl
  | some a =>
      by_cases hr : a.running = true
      · exact .inl (if_pos hr)
      · exact .inr ⟨a, rfl, by simpa using hr, if_neg hr⟩

/-- What is queued goes to the end of its queue. -/
theorem inboxOf_enqueue (w : World) (target : InboxTarget) (message : Json) :
    inboxOf (w.enqueue target message).log = (inboxOf w.log).spliced target int64Max 0 [message] := by
  have filled : (makeInboxSplice (inboxOf w.log) target int64Max 0 [message] false).noop = false := by
    simp [makeInboxSplice]
  rw [enqueue]
  dsimp only
  rw [inboxOf_concat, foldInbox_spliced, applyInboxSplice_make _ _ _ _ _ _ filled]

/-- A queued message enters its queue once, unless it has no id or its id is pending. -/
theorem count_enqueue (w : World) (target : InboxTarget) (message : Json) {x : String} (hx : x ≠ "") :
    (inboxOf (w.enqueue target message).log).ids.count x = (inboxOf w.log).ids.count x +
      if inboxMessageId message = x ∧ x ∉ (inboxOf w.log).ids then 1 else 0 := by
  rw [inboxOf_enqueue]
  exact count_enqueued _ _ _ _ hx

theorem of_call_cancel {keepInbox : Bool} {refused : Option InboxTarget}
    (h : w.cancel i keepInbox refused = some w') : w' = w ∨ w' = w.discard .nextStep ∨
      w' = w.requestAbort i ∨ w' = ((w.discard .nextStep).discard .nextTurn).requestAbort i := by
  unfold cancel at h
  cases keepInbox with
  | true =>
      rw [if_pos rfl] at h
      split at h <;> cases h
      exact .inr (.inr (.inl rfl))
  | false =>
      rw [if_neg Bool.false_ne_true] at h
      split at h
      · cases h; exact .inr (.inr (.inr rfl))
      · split at h <;> cases h
        exact .inl rfl
      · split at h <;> cases h
        exact .inr (.inl rfl)

end World

/-- An event of a call: a splice of the inbox, or another party's. -/
def LoopEvent.Aside : LoopEvent → Prop
  | .inboxSpliced _ => True
  | e => e.Foreign

/-- What a call leaves alone as long as it neither makes a driver nor starts a drive. -/
structure World.Touched (w w' : World) : Prop where
  reports : w'.reports = w.reports
  rejected : w'.rejected = w.rejected
  lost : w'.lost = w.lost
  raised : w'.raised = w.raised
  drives : w'.drives = w.drives
  running : ∀ j : Nat, (w'.agents[j]?).map AgentState.running = (w.agents[j]?).map AgentState.running
  current : ∀ i, w'.current = some i → w.current = some i
  log : ∃ events, w'.log = w.log ++ events ∧ ∀ e ∈ events, e.Aside

namespace World.Touched
variable {w w' w'' : World}

theorem refl (w : World) : w.Touched w :=
  ⟨rfl, rfl, rfl, rfl, rfl, fun _ => rfl, fun _ h => h, ⟨[], by simp⟩⟩

theorem trans (h : w.Touched w') (h' : w'.Touched w'') : w.Touched w'' := by
  obtain ⟨events, hl, he⟩ := h.log
  obtain ⟨events', hl', he'⟩ := h'.log
  refine ⟨h'.reports.trans h.reports, h'.rejected.trans h.rejected, h'.lost.trans h.lost,
    h'.raised.trans h.raised, h'.drives.trans h.drives, fun j => (h'.running j).trans (h.running j),
    fun i hi => h.current i (h'.current i hi), ⟨events ++ events', by rw [hl', hl, List.append_assoc], ?_⟩⟩
  intro e hmem
  exact (List.mem_append.mp hmem).elim (he e) (he' e)

theorem updateAgent (w : World) (i : Nat) {f : AgentState → AgentState}
    (hf : ∀ a, (f a).running = a.running) : w.Touched (w.updateAgent i f) := by
  refine ⟨rfl, rfl, rfl, rfl, rfl, fun j => ?_, fun _ h => h, ⟨[], by simp [World.updateAgent]⟩⟩
  simp only [World.updateAgent, List.getElem?_modify]
  cases w.agents[j]? with
  | none => rfl
  | some a => by_cases hij : i = j <;> simp [hij, hf]

theorem enqueue (w : World) (target : InboxTarget) (message : Json) :
    w.Touched (w.enqueue target message) :=
  ⟨rfl, rfl, rfl, rfl, rfl, fun _ => rfl, fun _ h => h, ⟨_, rfl, by simp [LoopEvent.Aside]⟩⟩

theorem await (w : World) (message : Json) : w.Touched (w.await message) := by
  simp only [World.await]
  split
  · exact refl w
  · exact ⟨rfl, rfl, rfl, rfl, rfl, fun _ => rfl, fun _ h => h, ⟨[], by simp⟩⟩

theorem discard (w : World) (target : InboxTarget) : w.Touched (w.discard target) := by
  refine ⟨rfl, rfl, rfl, rfl, rfl, fun _ => rfl, fun _ h => h, ⟨_, rfl, ?_⟩⟩
  intro e he
  unfold InboxMutation.events at he
  split at he
  · cases he
  · cases List.mem_singleton.mp he
    trivial

theorem requestAbort (w : World) (i : Nat) : w.Touched (w.requestAbort i) :=
  updateAgent w i fun a => by split <;> rfl

theorem forget (w : World) : w.Touched { w with awaited := [] } :=
  ⟨rfl, rfl, rfl, rfl, rfl, fun _ => rfl, fun _ h => h, ⟨[], by simp⟩⟩

theorem leave (w : World) : w.Touched { w with current := none } :=
  ⟨rfl, rfl, rfl, rfl, rfl, fun _ => rfl, fun _ h => (nomatch h), ⟨[], by simp⟩⟩

theorem halt (w : World) (token : Token) : w.Touched { w with
    stopped := token :: w.stopped
    agents := w.agents.map fun a => if a.bridge = some token then { a with stop := true } else a } := by
  refine ⟨rfl, rfl, rfl, rfl, rfl, fun j => ?_, fun _ h => h, ⟨[], by simp⟩⟩
  simp only [List.getElem?_map]
  cases w.agents[j]? with
  | none => rfl
  | some a =>
      simp only [Option.map_some]
      split <;> rfl

theorem append (w : World) {e : LoopEvent} (h : e.Foreign) : w.Touched { w with log := w.log ++ [e] } := by
  refine ⟨rfl, rfl, rfl, rfl, rfl, fun _ => rfl, fun _ h => h, ⟨[e], rfl, fun e' he => ?_⟩⟩
  cases List.mem_singleton.mp he
  cases e <;> trivial

theorem cancel {i : Nat} {keepInbox : Bool} {refused : Option InboxTarget}
    (h : w.cancel i keepInbox refused = some w') : w.Touched w' := by
  rcases of_call_cancel h with rfl | rfl | rfl | rfl
  · exact refl _
  · exact discard _ _
  · exact requestAbort _ i
  · exact ((discard _ _).trans (discard _ _)).trans (requestAbort _ i)

end World.Touched

namespace World
variable {w w' : World} {i : Nat}

theorem wakeWith_cases (w : World) (i : Nat) (target : InboxTarget) (message : Json)
    (options : DriveOptions) (refused : Bool) :
    ∃ t, w.Touched t ∧ (w.wakeWith i target message options refused = t ∨
      w.wakeWith i target message options refused = t.kick i) := by
  have merged := Touched.updateAgent w i (f := (·.mergeExec options)) fun _ => rfl
  cases refused with
  | true => exact ⟨_, merged, .inl rfl⟩
  | false => exact ⟨_, (merged.trans (.await _ message)).trans (.enqueue _ target message), .inr rfl⟩

theorem run_cases (w : World) (i : Nat) (options : DriveOptions) (input : String) (refused : Bool) :
    ∃ t, w.Touched t ∧ (w.run i options input refused = t ∨ w.run i options input refused = t.kick i) := by
  have merged := Touched.updateAgent w i (f := (·.mergeExec options)) fun _ => rfl
  simp only [run]
  split
  · exact ⟨_, merged, .inr rfl⟩
  · split
    · split
      · exact ⟨_, merged, .inl rfl⟩
      · refine ⟨_, (merged.trans (.enqueue _ _ _)).trans (.updateAgent _ i ?_), .inl rfl⟩
        exact fun _ => rfl
    · refine ⟨_, merged.trans (.updateAgent _ i ?_), .inr rfl⟩
      exact fun _ => rfl

/-- A call makes the driver, or it leaves the drives alone but for a last kick. -/
theorem call_cases {c : Call} (h : w.call c = some w') :
    (c = .create ∧ w.current = none ∧
      w' = { w with agents := w.agents ++ [{}], current := some w.agents.length }) ∨
    ∃ t, w.Touched t ∧ (w' = t ∨ ∃ i, w.current = some i ∧ w' = t.kick i) := by
  cases c with
  | create =>
      simp only [call] at h
      split at h
      · cases h; exact .inr ⟨_, .refl w, .inl rfl⟩
      · next hc => cases h; exact .inl ⟨rfl, hc, rfl⟩
  | createFailed => cases h; exact .inr ⟨_, .leave w, .inl rfl⟩
  | run options input refused =>
      obtain ⟨i, hi, rfl⟩ := Option.map_eq_some_iff.mp h
      obtain ⟨t, ht, he⟩ := run_cases w i options input refused
      exact .inr ⟨t, ht, he.imp_right fun hk => ⟨i, hi, hk⟩⟩
  | followup message options refused | steer message options refused =>
      obtain ⟨i, hi, rfl⟩ := Option.map_eq_some_iff.mp h
      obtain ⟨t, ht, he⟩ := wakeWith_cases w i _ message options refused
      exact .inr ⟨t, ht, he.imp_right fun hk => ⟨i, hi, hk⟩⟩
  | inject message refused =>
      obtain ⟨i, _, rfl⟩ := Option.map_eq_some_iff.mp h
      cases refused with
      | true => exact .inr ⟨_, .refl w, .inl rfl⟩
      | false => exact .inr ⟨_, .enqueue w _ message, .inl rfl⟩
  | cancel keepInbox refused =>
      simp only [call] at h
      split at h
      · cases h; exact .inr ⟨_, .forget w, .inl rfl⟩
      · exact .inr ⟨_, (Touched.forget w).trans (.cancel h), .inl rfl⟩
  | dispose | shutdown =>
      simp only [call] at h
      split at h
      · cases h; exact .inr ⟨_, .refl w, .inl rfl⟩
      · next i _ => cases h; exact .inr ⟨_, (Touched.requestAbort w i).trans (.leave _), .inl rfl⟩
  | requestStop token =>
      cases h
      exact .inr ⟨_, .halt w token, .inl rfl⟩
  | append event =>
      simp only [call] at h
      split at h
      · next hf => cases h; exact .inr ⟨_, .append w hf, .inl rfl⟩
      · cases h

end World

/-- What every call leaves alone: it starts drives and appends beside the loop. -/
structure World.Grown (w w' : World) : Prop where
  reports : w'.reports = w.reports
  rejected : w'.rejected = w.rejected
  lost : w'.lost = w.lost
  raised : w'.raised = w.raised
  drives : ∃ new, w'.drives = w.drives ++ new ∧ ∀ d ∈ new, d.phase = .posted
  log : ∃ events, w'.log = w.log ++ events ∧ ∀ e ∈ events, e.Aside

namespace World.Grown
variable {w w' : World}

theorem of_touched (h : w.Touched w') : w.Grown w' :=
  ⟨h.reports, h.rejected, h.lost, h.raised, ⟨[], by simp [h.drives]⟩, h.log⟩

theorem kicked (h : w.Touched w') (i : Nat) : w.Grown (w'.kick i) := by
  rcases w'.kick_cases i with hk | ⟨a, _, _, hk⟩
  · rw [hk]; exact of_touched h
  · rw [hk]
    exact ⟨h.reports, h.rejected, h.lost, h.raised, ⟨[{ agent := i }], by simp [h.drives], by simp⟩, h.log⟩

theorem call {c : Call} (h : w.call c = some w') : w.Grown w' := by
  rcases call_cases h with ⟨_, _, rfl⟩ | ⟨t, ht, rfl | ⟨i, _, rfl⟩⟩
  · exact ⟨rfl, rfl, rfl, rfl, ⟨[], by simp⟩, ⟨[], by simp⟩⟩
  · exact of_touched ht
  · exact kicked ht i

theorem rewake (w : World) (i : Nat) (a : AgentState) : w.Grown (w.rewake i a) := by
  unfold World.rewake
  split
  · exact kicked (.refl w) i
  · exact of_touched (.refl w)

end World.Grown

/-- An advance is a move of its drive, and then calls nothing or a kick. -/
theorem World.advance_grown {w w' : World} {i : Nat} {o : Outcome} (h : w.advance i o = some w') :
    ∃ d a m, w.drives[i]? = some d ∧ w.agents[d.agent]? = some a ∧
      Moved w.maxTokensAsSuccess w.log a d.phase o m ∧ (w.apply i d m).Grown w' := by
  obtain ⟨d, a, m, hd, ha, moved, rfl | ⟨_, rfl⟩⟩ := w.advance_cases h
  · exact ⟨d, a, m, hd, ha, moved, .of_touched (.refl _)⟩
  · exact ⟨d, a, m, hd, ha, moved, .rewake _ _ _⟩

end Araya.Agent
