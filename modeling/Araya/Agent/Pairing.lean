import Araya.Agent.Moves

/-!
Calls and results. Each tool call of a committed message is answered once before
its turn ends, as long as a message is committed with calls only where the step
goes on to execute them.
-/

namespace Araya.Agent

open Llm (StepAccumulator)

def AssistantMessage.callIds (m : AssistantMessage) : List String := (Llm.toolCallsOf m.blocks).map (·.id)

/-- The call that a `tool/result` answers. -/
def LoopEvent.answered : LoopEvent → Option String
  | .toolResult _ callId _ _ => some callId
  | _ => none

def resultIds (log : Log) : List String := log.filterMap LoopEvent.answered

theorem resultIds_append (log events : Log) : resultIds (log ++ events) = resultIds log ++ resultIds events :=
  List.filterMap_append

theorem resultIds_message (m : AssistantMessage) : resultIds [.assistantMessage m] = [] := rfl

/-- At each `turn/end` the calls of the turn's messages have their results, and each
result answers a call of a turn that has not ended. -/
structure Paired (log : Log) : Prop where
  answered : ∀ before m after n reason failure post,
    log = before ++ .assistantMessage m :: after ++ .turnEnd n reason failure :: post → m.turn = n →
    ∀ c ∈ m.callIds, (resultIds after).count c = 1
  asked : ∀ pre id c content isError post, log = pre ++ .toolResult id c content isError :: post →
    ∃ m, .assistantMessage m ∈ pre ∧ c ∈ m.callIds ∧ ∀ reason failure, .turnEnd m.turn reason failure ∉ pre

/-- The messages of turn `n` have been answered, but for the calls that are pending. -/
def Owed (log : Log) (n : Nat) (pending : List String) : Prop :=
  ∀ pre m post, log = pre ++ .assistantMessage m :: post → m.turn = n →
    ∀ c ∈ m.callIds, (resultIds post).count c = if c ∈ pending then 0 else 1

/-- The calls of the messages of turn `n`. -/
def callsIn (log : Log) (n : Nat) : List String :=
  log.flatMap fun
    | .assistantMessage m => if m.turn = n then m.callIds else []
    | _ => []

/-- An event that neither opens nor ends a turn, nor asks or answers a call. -/
def LoopEvent.Plain : LoopEvent → Prop
  | .turnStart _ | .turnEnd _ _ _ | .assistantMessage _ | .toolResult _ _ _ _ => False
  | _ => True

theorem LoopEvent.Aside.plain {e : LoopEvent} (h : e.Aside) : e.Plain := by
  cases e <;> first | trivial | exact absurd (by simp [LoopEvent.type, loopTypes]) h

/-! Appending -/

section
variable {log events pre post : Log} {e x : LoopEvent} {n : Nat} {pending : List String} {c : String}

theorem split_append (h : log ++ events = pre ++ x :: post) (hx : x ∉ events) :
    ∃ post', post = post' ++ events ∧ log = pre ++ x :: post' := by
  rcases List.append_eq_append_iff.mp h with ⟨mid, hpre, hevents⟩ | ⟨mid, hlog, hpost⟩
  · exact absurd (hevents ▸ List.mem_append_right _ List.mem_cons_self) hx
  · cases mid with
    | nil => exact absurd (by rw [List.nil_append] at hpost; rw [← hpost]; exact List.mem_cons_self) hx
    | cons y mid =>
        simp only [List.cons_append, List.cons.injEq] at hpost
        obtain ⟨rfl, rfl⟩ := hpost
        exact ⟨mid, rfl, hlog⟩

theorem split_concat (h : log ++ [e] = pre ++ x :: post) :
    (post = [] ∧ x = e ∧ pre = log) ∨ ∃ post', post = post' ++ [e] ∧ log = pre ++ x :: post' := by
  rcases List.eq_nil_or_concat post with rfl | ⟨post', y, rfl⟩
  · obtain ⟨rfl, hx⟩ := List.append_inj' h rfl
    exact .inl ⟨rfl, (List.cons.inj hx).1.symm, rfl⟩
  · rw [List.concat_eq_append, ← List.cons_append, ← List.append_assoc] at h
    obtain ⟨rfl, hx⟩ := List.append_inj' h rfl
    cases hx
    exact .inr ⟨post', List.concat_eq_append, rfl⟩

theorem resultIds_of_answered (h : ∀ e ∈ events, e.answered = none) : resultIds events = [] :=
  List.filterMap_eq_nil_iff.mpr h

theorem LoopEvent.Plain.answered (h : e.Plain) : e.answered = none := by
  cases e <;> first | rfl | exact h.elim

theorem mem_callsIn : c ∈ callsIn log n ↔ ∃ m, .assistantMessage m ∈ log ∧ m.turn = n ∧ c ∈ m.callIds := by
  simp only [callsIn, List.mem_flatMap]
  constructor
  · rintro ⟨e, he, hc⟩
    cases e with
    | assistantMessage m =>
        simp only at hc
        split at hc
        · next ht => exact ⟨m, he, ht, hc⟩
        · cases hc
    | _ => cases hc
  · rintro ⟨m, hm, ht, hc⟩
    exact ⟨_, hm, by simp only [ht, if_true]; exact hc⟩

theorem callsIn_append (log events : Log) (n : Nat) :
    callsIn (log ++ events) n = callsIn log n ++ callsIn events n := List.flatMap_append

/-- What carries no message and no result leaves the calls as they are. -/
theorem Owed.append (h : Owed log n pending) (message : ∀ m, .assistantMessage m ∉ events)
    (answered : ∀ e ∈ events, e.answered = none) : Owed (log ++ events) n pending := by
  intro pre m post hs ht c hc
  obtain ⟨post, rfl, hl⟩ := split_append hs (message m)
  rw [resultIds_append, resultIds_of_answered answered, List.append_nil]
  exact h pre m post hl ht c hc

theorem Owed.message_other (h : Owed log n pending) {m : AssistantMessage} (ht : m.turn ≠ n) :
    Owed (log ++ [.assistantMessage m]) n pending := by
  intro pre m' post hs ht' c hc
  rcases split_concat hs with ⟨_, hm, _⟩ | ⟨post, rfl, hl⟩
  · cases hm
    exact absurd ht' ht
  · rw [resultIds_append, resultIds_message, List.append_nil]
    exact h pre m' post hl ht' c hc

/-- A new message whose calls are new leaves them pending. -/
theorem Owed.message (h : Owed log n []) {m : AssistantMessage}
    (new : ∀ c ∈ m.callIds, c ∉ callsIn log n) : Owed (log ++ [.assistantMessage m]) n m.callIds := by
  intro pre m' post hs ht' c hc
  rcases split_concat hs with ⟨rfl, hm, _⟩ | ⟨post, rfl, hl⟩
  · cases hm
    rw [if_pos hc]
    rfl
  · rw [resultIds_append, resultIds_message, List.append_nil,
      h pre m' post hl ht' c hc, if_neg List.not_mem_nil, if_neg]
    exact fun hnew => new c hnew (mem_callsIn.mpr ⟨m', by simp [hl], ht', hc⟩)

/-- A result of the first pending call answers it. -/
theorem Owed.result (h : Owed log n (c :: pending)) (new : c ∉ pending) {id : String} {content : Json}
    {isError : Bool} : Owed (log ++ [.toolResult id c content isError]) n pending := by
  intro pre m post hs ht c' hc
  rcases split_concat hs with ⟨_, hm, _⟩ | ⟨post, rfl, hl⟩
  · cases hm
  · have before := h pre m post hl ht c' hc
    rw [resultIds_append, List.count_append, before]
    by_cases hcc : c = c'
    · subst hcc
      simp [resultIds, LoopEvent.answered, new]
    · simp [resultIds, LoopEvent.answered, hcc, Ne.symm hcc]

/-- A result of a call that the turn did not make is none of its own. -/
theorem Owed.result_other (h : Owed log n pending) (other : c ∉ callsIn log n) {id : String} {content : Json}
    {isError : Bool} : Owed (log ++ [.toolResult id c content isError]) n pending := by
  intro pre m post hs ht c' hc
  rcases split_concat hs with ⟨_, hm, _⟩ | ⟨post, rfl, hl⟩
  · cases hm
  · have hne : c ≠ c' := by
      rintro rfl
      exact other (mem_callsIn.mpr ⟨m, by simp [hl], ht, hc⟩)
    rw [resultIds_append, List.count_append, h pre m post hl ht c' hc]
    simp [resultIds, LoopEvent.answered, hne]

theorem paired_nil : Paired [] := ⟨by simp, by simp⟩

/-- What ends no turn and answers no call keeps the log paired. -/
theorem Paired.append (h : Paired log) (ends : ∀ n reason failure, .turnEnd n reason failure ∉ events)
    (answers : ∀ e ∈ events, e.answered = none) : Paired (log ++ events) := by
  constructor
  · intro before m after n reason failure post hs
    obtain ⟨post, _, hl⟩ := split_append hs (ends n reason failure)
    exact h.answered before m after n reason failure post hl
  · intro pre id c content isError post hs
    have none : LoopEvent.toolResult id c content isError ∉ events := fun hmem => by
      cases answers _ hmem
    obtain ⟨post, _, hl⟩ := split_append hs none
    exact h.asked pre id c content isError post hl

theorem Paired.plain (h : Paired log) (plain : ∀ e ∈ events, e.Plain) : Paired (log ++ events) :=
  h.append (fun _ _ _ he => plain _ he) fun e he => (plain e he).answered

theorem Paired.turnEnd (h : Paired log) (owed : Owed log n []) {reason : RunStatus}
    {failure : Option Llm.LlmFailure} : Paired (log ++ [.turnEnd n reason failure]) := by
  constructor
  · intro before m after n' reason' failure' post hs ht c hc
    rcases split_concat hs with ⟨_, he, hl⟩ | ⟨post, _, hl⟩
    · cases he
      simpa using owed before m after hl.symm ht c hc
    · exact h.answered before m after n' reason' failure' post hl ht c hc
  · intro pre id c content isError post hs
    rcases split_concat hs with ⟨_, he, _⟩ | ⟨post, _, hl⟩
    · cases he
    · exact h.asked pre id c content isError post hl

theorem Paired.result (h : Paired log) (open' : ∀ reason failure, .turnEnd n reason failure ∉ log)
    (asked : c ∈ callsIn log n) {id : String} {content : Json} {isError : Bool} :
    Paired (log ++ [.toolResult id c content isError]) := by
  constructor
  · intro before m after n' reason failure post hs
    rcases split_concat hs with ⟨_, he, _⟩ | ⟨post, _, hl⟩
    · cases he
    · exact h.answered before m after n' reason failure post hl
  · intro pre id' c' content' isError' post hs
    rcases split_concat hs with ⟨_, he, rfl⟩ | ⟨post, _, hl⟩
    · cases he
      obtain ⟨m, hm, rfl, hc⟩ := mem_callsIn.mp asked
      exact ⟨m, hm, hc, open'⟩
    · exact h.asked pre id' c' content' isError' post hl

end

/-! The phases -/

namespace Phase

/-- The turn that a drive is in, from its `turn/start` on. -/
def turnOf : Phase → Option Nat
  | .posted | .top | .opening | .closed | .finished _ | .resuming | .gone => none
  | .looping t | .claimingStep t | .claimingTurn t _ | .proposing t _ | .deciding t _ | .decided t _ _
  | .starting t _ | .prompting t _ | .admitting t _ | .requesting t | .streaming t | .retrying t _
  | .committing t _ | .calling t _ _ | .called t _ _ _ | .invoking t _ _ _ | .answering t _ _ _ _
  | .stepped t _ | .unwinding t _ | .checking t | .stopping t | .rechecking t | .closing t
  | .failing t _ => some t.turn

/-- The calls that wait for their result. -/
def pending : Phase → List String
  | .calling _ calls _ => calls.map (·.id)
  | .called _ call calls _ | .invoking _ call calls _ | .answering _ call _ calls _ =>
    call.id :: calls.map (·.id)
  | _ => []

/-- The outcome of the stream that is about to be committed. -/
def streamed : Phase → Option StepAccumulator
  | .committing _ acc => some acc
  | _ => none

theorem turnOf_running {p : Phase} {t : TurnState} (h : p.running = some t) : p.turnOf = some t.turn := by
  cases p <;> first | (cases h; rfl) | cases h

theorem turnOf_between {p : Phase} {t : TurnState} (h : p.between = some t) : p.turnOf = some t.turn := by
  cases p <;> first | (cases h; rfl) | cases h

end Phase

/-- What the stream leaves to commit can be answered: a message that ends its step has
no calls, and the calls of one that does not are new. -/
structure Answerable (taken : List String) (acc : StepAccumulator) : Prop where
  interrupted : acc.why = .aborted → Llm.toolCallsOf acc.deliveredBlocks = []
  cut : acc.failure = none → acc.why = .error ∨ acc.why = .maxTokens → Llm.toolCallsOf acc.closed = []
  fresh : acc.failure = none → acc.why = .stop ∨ acc.why = .toolCalls →
    ((Llm.toolCallsOf acc.closed).map (·.id)).Nodup ∧
      ∀ c ∈ (Llm.toolCallsOf acc.closed).map (·.id), c ∉ taken

instance (taken : List String) (acc : StepAccumulator) : Decidable (Answerable taken acc) :=
  decidable_of_iff ((acc.why = .aborted → (Llm.toolCallsOf acc.deliveredBlocks).isEmpty) ∧
      (acc.failure = none → acc.why = .error ∨ acc.why = .maxTokens →
        (Llm.toolCallsOf acc.closed).isEmpty) ∧
      (acc.failure = none → acc.why = .stop ∨ acc.why = .toolCalls →
        ((Llm.toolCallsOf acc.closed).map (·.id)).Nodup ∧
          ∀ c ∈ (Llm.toolCallsOf acc.closed).map (·.id), c ∉ taken))
    (by simp only [List.isEmpty_iff]; exact ⟨fun ⟨a, b, c⟩ => ⟨a, b, c⟩, fun ⟨a, b, c⟩ => ⟨a, b, c⟩⟩)

section
variable {success : Bool} {log : Log} {turn step : Nat} {acc : StepAccumulator} {taken : List String}

/-- A step that goes on has committed the closed blocks of a stream that was not cut. -/
theorem commit_goes_on (h : (commitModelOutcome log turn step acc success).terminal = none) :
    acc.failure = none ∧ (acc.why = .stop ∨ acc.why = .toolCalls) ∧
    (commitModelOutcome log turn step acc success).blocks = acc.closed ∧
    ((∃ m : AssistantMessage, (commitModelOutcome log turn step acc success).events = [.assistantMessage m] ∧
        m.turn = turn ∧ m.blocks = acc.closed) ∨
      (commitModelOutcome log turn step acc success).events = [] ∧ acc.closed = []) := by
  unfold commitModelOutcome at h ⊢
  cases hw : acc.why <;> cases hf : acc.failure <;> simp [hw, hf] at h ⊢ <;>
    by_cases hc : acc.closed = [] <;> simp [hc]

/-- A message that ends its step has no calls, if its stream is answerable. -/
theorem commit_ends (h : (commitModelOutcome log turn step acc success).terminal.isSome = true)
    (whole : Answerable taken acc) {m : AssistantMessage}
    (hm : (commitModelOutcome log turn step acc success).events = [.assistantMessage m]) :
    m.turn = turn ∧ m.callIds = [] := by
  rcases commit_cases log turn step acc success with ⟨message, he, ht, hb⟩ | ⟨failure, he⟩ | he <;>
    rw [hm] at he <;> cases he
  refine ⟨ht, List.map_eq_nil_iff.mpr ?_⟩
  rw [hb]
  -- a failure that was not an interruption is an attempt, not a message
  have failed : acc.why ≠ .aborted → acc.failure = none := by
    intro hw
    by_contra hf
    simp [commitModelOutcome, hw, Option.isSome_iff_ne_none, hf] at hm
  have blocks : acc.why ≠ .aborted →
      (commitModelOutcome log turn step acc success).blocks = acc.closed := by
    intro hw
    simp [commitModelOutcome, hw, failed hw]
  cases hw : acc.why with
  | aborted =>
      simpa [commitModelOutcome, hw] using whole.interrupted hw
  | error | maxTokens =>
      rw [blocks (by simp [hw])]
      exact whole.cut (failed (by simp [hw])) (by simp [hw])
  | stop | toolCalls =>
      simp [commitModelOutcome, hw, failed (by simp [hw])] at h

end

/-! The moves -/

/-- What a move does to the calls of its turn. -/
inductive Turned (log : Log) (taken : List String) (p : Phase) (m : Move) : Prop where
  | idles : m.phase.turnOf = none → m.events = [] → Turned log taken p m
  | opens : m.phase.turnOf = some (nextTurn log) → m.phase.pending = [] →
      m.events = [.turnStart (nextTurn log)] → Turned log taken p m
  | ends (n : Nat) (reason : RunStatus) (failure : Option Llm.LlmFailure) : p.turnOf = some n →
      p.pending = [] → m.phase.turnOf = none → m.events = [.turnEnd n reason failure] →
      Turned log taken p m
  | keeps : m.phase.turnOf = p.turnOf → m.phase.pending = p.pending → (∀ e ∈ m.events, e.Plain) →
      Turned log taken p m
  | commits (message : AssistantMessage) : p.turnOf = some message.turn →
      m.phase.turnOf = some message.turn → p.pending = [] → m.phase.pending = message.callIds →
      message.callIds.Nodup → (∀ c ∈ message.callIds, c ∉ taken) →
      m.events = [.assistantMessage message] → Turned log taken p m
  | answers (n : Nat) (id c : String) (content : Json) (isError : Bool) : p.turnOf = some n →
      m.phase.turnOf = some n → p.pending = c :: m.phase.pending →
      m.events = [.toolResult id c content isError] → Turned log taken p m

/-- A message without calls. -/
theorem Turned.silent {log : Log} {taken : List String} {p : Phase} {m : Move} {message : AssistantMessage}
    (before : p.turnOf = some message.turn) (after : m.phase.turnOf = some message.turn)
    (answered : p.pending = []) (still : m.phase.pending = []) (none : message.callIds = [])
    (events : m.events = [.assistantMessage message]) : Turned log taken p m := by
  refine .commits message before after answered ?_ ?_ ?_ events <;> rw [none]
  · exact still
  · exact List.nodup_nil
  · exact fun _ hc => absurd hc List.not_mem_nil

theorem claim_plain (m : InboxMutation) : ∀ e ∈ m.events, e.Plain := by
  intro e he
  unfold InboxMutation.events at he
  split at he
  · cases he
  · cases List.mem_singleton.mp he
    trivial

theorem LoopEvent.Foreign.plain {e : LoopEvent} (h : e.Foreign) : e.Plain := by
  cases e <;> first | trivial | exact absurd (by simp [LoopEvent.type, loopTypes]) h

theorem moved_turned {success : Bool} {log : Log} {a : AgentState} {p : Phase} {o : Outcome} {m : Move}
    {taken : List String} (h : Moved success log a p o m) (raises : ∀ what, o = .raise what → p.pending = [])
    (whole : o = .ok → ∀ acc, p.streamed = some acc → Answerable taken acc) : Turned log taken p m := by
  cases h with
  | start | halts _ | turns _ | opensNot _ | closesNot _ _ | failsNot _ _ _ | closedNot _ | drains _ | goesOn
  | finishes _ _ | resumes => exact .idles rfl rfl
  | opens => exact .opens rfl rfl rfl
  | closes t => exact .ends t.turn _ _ rfl rfl rfl rfl
  | fails t what => exact .ends t.turn _ _ rfl rfl rfl rfl
  | claimsStep t m hm =>
      refine .keeps ?_ ?_ (claim_plain m) <;> simp only <;> split <;> rfl
  | claimsTurn t claimed m hm => exact .keeps rfl rfl (claim_plain m)
  | prompts t messages events hf | requests t events hf =>
      exact .keeps rfl rfl fun e he => (hf e he).plain
  | ends t acc status a' hs ha =>
      have terminal : (commitModelOutcome log t.turn t.step acc success).terminal.isSome = true := by
        rw [hs]
        rfl
      rcases commit_cases log t.turn t.step acc success with ⟨message, he, ht, _⟩ | ⟨failure, he⟩ | he
      · have none := (commit_ends terminal (whole rfl acc rfl) he).2
        exact .silent (congrArg some ht.symm) (congrArg some ht.symm) rfl rfl none he
      · exact .keeps rfl rfl (by simp [he, LoopEvent.Plain])
      · exact .keeps rfl rfl (by simp [he])
  | answered t acc hs hc =>
      obtain ⟨_, _, blocks, ⟨message, he, ht, hb⟩ | ⟨he, _⟩⟩ := commit_goes_on hs
      · have none : message.callIds = [] := by
          rw [AssistantMessage.callIds, hb, ← blocks, hc]
          rfl
        exact .silent (congrArg some ht.symm) (congrArg some ht.symm) rfl rfl none he
      · exact .keeps rfl rfl (by simp [he])
  | asks t acc hs _ =>
      obtain ⟨failed, why, blocks, ⟨message, he, ht, hb⟩ | ⟨he, hempty⟩⟩ := commit_goes_on hs
      · have same : message.callIds = (Llm.toolCallsOf acc.closed).map (·.id) := by
          rw [AssistantMessage.callIds, hb]
        have fresh := (whole rfl acc rfl).fresh failed why
        refine .commits message (congrArg some ht.symm) (congrArg some ht.symm) rfl ?_ (same ▸ fresh.1)
          (same ▸ fresh.2) he
        rw [same, ← blocks]
        rfl
      · refine .keeps rfl ?_ (by simp [he])
        simp only [Phase.pending, blocks, hempty]
        rfl
  | answers t call r calls o => exact .answers t.turn _ call.id _ _ rfl rfl rfl rfl
  | raisesStep p t what hp =>
      exact .keeps (Phase.turnOf_running hp).symm (raises what rfl).symm (by simp)
  | raisesTurn p t what hp =>
      exact .keeps (Phase.turnOf_between hp).symm (raises what rfl).symm (by simp)
  | _ => exact .keeps rfl rfl (by simp [LoopEvent.Plain])

/-! The runs -/

/-- Where turn `n` stands in the part of the log that this run wrote. -/
structure Outstanding (new : Log) (next n : Nat) (pending : List String) : Prop where
  recent : n < next
  unended : ∀ reason failure, .turnEnd n reason failure ∉ new
  owed : Owed new n pending
  nodup : pending.Nodup
  asked : ∀ c ∈ pending, c ∈ callsIn new n

section
variable {new events : Log} {next next' n : Nat} {pending : List String}

theorem Outstanding.plain (h : Outstanding new next n pending) (le : next ≤ next')
    (plain : ∀ e ∈ events, e.Plain) : Outstanding (new ++ events) next' n pending where
  recent := lt_of_lt_of_le h.recent le
  unended reason failure hmem :=
    (List.mem_append.mp hmem).elim (h.unended reason failure) fun he => plain _ he
  owed := h.owed.append (fun m he => plain _ he) fun e he => (plain e he).answered
  nodup := h.nodup
  asked c hc := by
    rw [callsIn_append]
    exact List.mem_append_left _ (h.asked c hc)

theorem Outstanding.concat (h : Outstanding new next n pending) {e : LoopEvent} (le : next ≤ next')
    (ends : ∀ reason failure, e ≠ .turnEnd n reason failure) (owed : Owed (new ++ [e]) n pending) :
    Outstanding (new ++ [e]) next' n pending where
  recent := lt_of_lt_of_le h.recent le
  unended reason failure hmem :=
    (List.mem_append.mp hmem).elim (h.unended reason failure) fun he =>
      ends reason failure (List.mem_singleton.mp he).symm
  owed
  nodup := h.nodup
  asked c hc := by
    rw [callsIn_append]
    exact List.mem_append_left _ (h.asked c hc)

end

namespace World

/-- The turns that the drives are in. -/
def turns (w : World) : List Nat := w.drives.filterMap (·.phase.turnOf)

/-- The calls of the turns that the drives are in. -/
def takenIds (w : World) : List String := w.turns.flatMap (callsIn w.log)

/-- Nothing raises while a call waits for its result, and a stream is committed
with calls only if they can be answered. -/
def Answers (w : World) : Act → Prop
  | .call _ => True
  | .advance i o => ∀ d ∈ w.drives[i]?, match o with
    | .raise _ => d.phase.pending = []
    | .ok => ∀ acc ∈ d.phase.streamed, Answerable w.takenIds acc
    | .events _ | .context _ | .decision _ _ | .chunks _ | .retry _ | .result _ => True

instance (w : World) : (a : Act) → Decidable (w.Answers a)
  | .call _ => .isTrue trivial
  | .advance i (.raise _) => inferInstanceAs (Decidable (∀ d ∈ w.drives[i]?, d.phase.pending = []))
  | .advance i .ok =>
    inferInstanceAs (Decidable (∀ d ∈ w.drives[i]?, ∀ acc ∈ d.phase.streamed, Answerable w.takenIds acc))
  | .advance _ (.events _) | .advance _ (.context _) | .advance _ (.decision _ _) | .advance _ (.chunks _)
  | .advance _ (.retry _) | .advance _ (.result _) => .isTrue fun _ _ => trivial

/-- `new` is what this run has written: it is paired, and each drive in a turn has
that turn for itself and waits for the calls it has not answered. -/
structure Answering (w : World) (new : Log) : Prop where
  paired : Paired new
  messages : ∀ m, .assistantMessage m ∈ new → m.turn < nextTurn w.log
  ended : ∀ n reason failure, .turnEnd n reason failure ∈ new → n < nextTurn w.log
  outstanding : ∀ d ∈ w.drives, ∀ n ∈ d.phase.turnOf, Outstanding new (nextTurn w.log) n d.phase.pending
  distinct : ∀ (i j : Nat) (d e : Drive) (n : Nat), w.drives[i]? = some d → w.drives[j]? = some e →
    d.phase.turnOf = some n → e.phase.turnOf = some n → i = j
  apart : ∀ n ∈ w.turns, ∀ k ∈ w.turns, n ≠ k → ∀ c ∈ callsIn new n, c ∉ callsIn new k

variable {w w' : World} {new : Log}

theorem mem_turns {n : Nat} : n ∈ w.turns ↔ ∃ d ∈ w.drives, d.phase.turnOf = some n :=
  List.mem_filterMap

theorem callsIn_silent {events : Log} (none : ∀ x, .assistantMessage x ∉ events) {n : Nat} :
    callsIn events n = [] := by
  refine List.eq_nil_iff_forall_not_mem.mpr fun c hc => ?_
  obtain ⟨m, hm, _⟩ := mem_callsIn.mp hc
  exact none m hm

theorem nextTurn_append_le (log events : Log) : nextTurn log ≤ nextTurn (log ++ events) := by
  induction events generalizing log with
  | nil => simp
  | cons e rest ih =>
      have first : nextTurn log ≤ nextTurn (log ++ [e]) := by
        rw [nextTurn_concat]
        exact Nat.le_max_left _ _
      have := ih (log ++ [e])
      rw [List.append_assoc] at this
      exact first.trans this

/-- A call appends plain events and starts drives outside any turn. -/
theorem Grown.answering (h : w.Grown w') (inv : w.Answering new) :
    ∃ events, w'.log = w.log ++ events ∧ w'.Answering (new ++ events) := by
  obtain ⟨started, hd, hn⟩ := h.drives
  obtain ⟨events, hl, aside⟩ := h.log
  have plain : ∀ e ∈ events, e.Plain := fun e he => (aside e he).plain
  have le : nextTurn w.log ≤ nextTurn w'.log := hl ▸ nextTurn_append_le _ _
  have old : ∀ d ∈ w'.drives, ∀ n, d.phase.turnOf = some n → d ∈ w.drives := by
    intro d hmem n ht
    rw [hd] at hmem
    rcases List.mem_append.mp hmem with hold | hnew
    · exact hold
    · rw [hn d hnew] at ht
      cases ht
  have index : ∀ (i : Nat) (d : Drive) (n : Nat), w'.drives[i]? = some d → d.phase.turnOf = some n →
      w.drives[i]? = some d := by
    intro i d n hi ht
    by_cases hlt : i < w.drives.length
    · rwa [hd, List.getElem?_append_left hlt] at hi
    · rw [hd, List.getElem?_append_right (by omega)] at hi
      rw [hn d (List.mem_of_getElem? hi)] at ht
      cases ht
  refine ⟨events, hl, inv.paired.plain plain, ?_, ?_, ?_, ?_, ?_⟩
  · intro m hm
    rcases List.mem_append.mp hm with hold | hnew
    · exact lt_of_lt_of_le (inv.messages m hold) le
    · exact absurd hnew fun he => plain _ he
  · intro n reason failure he
    rcases List.mem_append.mp he with hold | hnew
    · exact lt_of_lt_of_le (inv.ended n reason failure hold) le
    · exact absurd hnew fun he => plain _ he
  · exact fun d hmem n ht => (inv.outstanding d (old d hmem n ht) n ht).plain le plain
  · exact fun i j d e n hi hj hdt het =>
      inv.distinct i j d e n (index i d n hi hdt) (index j e n hj het) hdt het
  · intro n hmem k hk hne c hc
    obtain ⟨d, hmem, ht⟩ := mem_turns.mp hmem
    obtain ⟨e, hk, hkt⟩ := mem_turns.mp hk
    rw [callsIn_append, callsIn_silent fun x he => plain _ he, List.append_nil] at hc ⊢
    exact inv.apart n (mem_turns.mpr ⟨d, old d hmem n ht, ht⟩) k (mem_turns.mpr ⟨e, old e hk k hkt, hkt⟩) hne c hc

section
variable {i : Nat} {d : Drive} {a : AgentState} {o : Outcome} {m : Move}

theorem apply_drives (hd : w.drives[i]? = some d) {j : Nat} {e : Drive}
    (hj : (w.apply i d m).drives[j]? = some e) :
    (j = i ∧ e = { d with phase := m.phase }) ∨ (j ≠ i ∧ w.drives[j]? = some e) := by
  rcases eq_or_ne i j with rfl | hne
  · rw [World.apply, List.getElem?_set_self (List.getElem?_eq_some_iff.mp hd).1] at hj
    exact .inl ⟨rfl, (Option.some.inj hj).symm⟩
  · rw [World.apply, List.getElem?_set_ne hne] at hj
    exact .inr ⟨hne.symm, hj⟩

/-- What is left to show of a move once its drive and the other drives in a turn
are known to be outstanding still. -/
theorem Answering.apply_of (inv : w.Answering new) (hd : w.drives[i]? = some d)
    (paired : Paired (new ++ m.events))
    (messages : ∀ x, .assistantMessage x ∈ m.events → x.turn < nextTurn (w.log ++ m.events))
    (ended : ∀ n reason failure, .turnEnd n reason failure ∈ m.events → n < nextTurn (w.log ++ m.events))
    (own : ∀ n, m.phase.turnOf = some n →
      Outstanding (new ++ m.events) (nextTurn (w.log ++ m.events)) n m.phase.pending)
    (others : ∀ j e n, j ≠ i → w.drives[j]? = some e → e.phase.turnOf = some n →
      Outstanding (new ++ m.events) (nextTurn (w.log ++ m.events)) n e.phase.pending)
    (alone : ∀ n, m.phase.turnOf = some n → ∀ j e, j ≠ i → w.drives[j]? = some e → e.phase.turnOf ≠ some n)
    (apart : ∀ n ∈ (w.apply i d m).turns, ∀ k ∈ (w.apply i d m).turns, n ≠ k →
      ∀ c ∈ callsIn (new ++ m.events) n, c ∉ callsIn (new ++ m.events) k) :
    (w.apply i d m).Answering (new ++ m.events) := by
  have le := nextTurn_append_le w.log m.events
  refine ⟨paired, fun x hx => ?_, fun n reason failure hn => ?_, fun e he n ht => ?_, ?_, apart⟩
  · rcases List.mem_append.mp hx with hold | hnew
    · exact lt_of_lt_of_le (inv.messages x hold) le
    · exact messages x hnew
  · rcases List.mem_append.mp hn with hold | hnew
    · exact lt_of_lt_of_le (inv.ended n reason failure hold) le
    · exact ended n reason failure hnew
  · obtain ⟨j, hj⟩ := List.mem_iff_getElem?.mp he
    rcases apply_drives hd hj with ⟨rfl, rfl⟩ | ⟨hne, hold⟩
    · exact own n ht
    · exact others j e n hne hold ht
  · intro j k e f n hj hk hje hkf
    rcases apply_drives hd hj with ⟨rfl, rfl⟩ | ⟨hnej, holdj⟩ <;>
      rcases apply_drives hd hk with ⟨rfl, rfl⟩ | ⟨hnek, holdk⟩
    · rfl
    · exact absurd hkf (alone n hje k f hnek holdk)
    · exact absurd hje (alone n hkf j e hnej holdj)
    · exact inv.distinct j k e f n holdj holdk hje hkf

/-- A turn after the move is the one the move leaves its drive in, or one from before. -/
theorem turns_apply (hd : w.drives[i]? = some d) {n : Nat} (h : n ∈ (w.apply i d m).turns) :
    m.phase.turnOf = some n ∨ n ∈ w.turns := by
  obtain ⟨e, he, ht⟩ := mem_turns.mp h
  obtain ⟨j, hj⟩ := List.mem_iff_getElem?.mp he
  rcases apply_drives hd hj with ⟨_, rfl⟩ | ⟨_, hold⟩
  · exact .inl ht
  · exact .inr (mem_turns.mpr ⟨e, List.mem_of_getElem? hold, ht⟩)

theorem Answering.apply (inv : w.Answering new) (hlog : ∃ old, w.log = old ++ new)
    (hd : w.drives[i]? = some d) (turned : Turned w.log w.takenIds d.phase m) :
    (w.apply i d m).Answering (new ++ m.events) := by
  have le := nextTurn_append_le w.log m.events
  have hmem := List.mem_of_getElem? hd
  -- the other drives are in other turns than the one that moves
  have other : ∀ n, d.phase.turnOf = some n → ∀ (j : Nat) (e : Drive) k, j ≠ i → w.drives[j]? = some e →
      e.phase.turnOf = some k → k ≠ n := by
    rintro n hn j e k hne hj hk rfl
    exact hne (inv.distinct j i e d k hj hd hk hn)
  have alone : ∀ n, d.phase.turnOf = some n → ∀ (j : Nat) (e : Drive), j ≠ i → w.drives[j]? = some e →
      e.phase.turnOf ≠ some n := fun n hn j e hne hj hk => other n hn j e n hne hj hk rfl
  have outstanding : ∀ (j : Nat) (e : Drive) n, w.drives[j]? = some e → e.phase.turnOf = some n →
      Outstanding new (nextTurn w.log) n e.phase.pending :=
    fun j e n hj hn => inv.outstanding e (List.mem_of_getElem? hj) n hn
  have inTurns : ∀ n, d.phase.turnOf = some n → n ∈ w.turns := fun n hn => mem_turns.mpr ⟨d, hmem, hn⟩
  have silent : (∀ x, .assistantMessage x ∉ m.events) → (∀ n, m.phase.turnOf = some n → n ∈ w.turns) →
      ∀ n ∈ (w.apply i d m).turns, ∀ k ∈ (w.apply i d m).turns, n ≠ k →
        ∀ c ∈ callsIn (new ++ m.events) n, c ∉ callsIn (new ++ m.events) k := by
    intro none turn n hn k hk
    rw [callsIn_append, callsIn_append, callsIn_silent none, callsIn_silent none, List.append_nil,
      List.append_nil]
    exact inv.apart n ((turns_apply hd hn).elim (turn n) id) k ((turns_apply hd hk).elim (turn k) id)
  cases turned with
  | idles gone events =>
      have empty : ∀ e ∈ m.events, e.Plain := by simp [events]
      exact inv.apply_of hd (inv.paired.plain empty) (fun x hx => absurd hx fun he => empty _ he)
        (fun n reason failure hx => absurd hx fun he => empty _ he) (by simp [gone])
        (fun j e n _ hj hn => (outstanding j e n hj hn).plain le empty) (by simp [gone])
        (silent (fun x he => empty _ he) (by simp [gone]))
  | keeps turn pending plain =>
      refine inv.apply_of hd (inv.paired.plain plain) (fun x hx => absurd hx fun he => plain _ he)
        (fun n reason failure hx => absurd hx fun he => plain _ he) ?_
        (fun j e n _ hj hn => (outstanding j e n hj hn).plain le plain) (fun n hn => alone n (turn ▸ hn))
        (silent (fun x he => plain _ he) fun n hn => inTurns n (turn ▸ hn))
      intro n hn
      rw [pending]
      exact (outstanding i d n hd (turn ▸ hn)).plain le plain
  | opens turn pending events =>
      have next : nextTurn (w.log ++ m.events) = nextTurn w.log + 1 := by
        rw [events, nextTurn_concat, startedTurn_turnStart]
        omega
      have empty : callsIn new (nextTurn w.log) = [] := by
        refine List.eq_nil_iff_forall_not_mem.mpr fun c hc => ?_
        obtain ⟨x, hx, ht, _⟩ := mem_callsIn.mp hc
        exact absurd (inv.messages x hx) (by omega)
      have none : ∀ x, .assistantMessage x ∉ m.events := by simp [events]
      have still : ∀ n, callsIn (new ++ m.events) n = callsIn new n := by
        intro n
        rw [callsIn_append, callsIn_silent none, List.append_nil]
      refine inv.apply_of hd (inv.paired.append (by simp [events]) (by simp [events, LoopEvent.answered]))
        (by simp [events]) (by simp [events]) ?_ ?_ ?_ ?_
      · intro n hn
        rw [turn] at hn
        cases hn
        rw [pending, next, events]
        refine ⟨by omega, fun reason failure hmem => ?_, ?_, List.nodup_nil, by simp⟩
        · rcases List.mem_append.mp hmem with hold | hnew
          · exact absurd (inv.ended _ reason failure hold) (by omega)
          · simp at hnew
        · refine Owed.append (fun pre x post hs ht c hc => ?_) (by simp) (by simp [LoopEvent.answered])
          exact absurd (inv.messages x (by simp [hs])) (by omega)
      · intro j e n _ hj hn
        rw [events] at le ⊢
        have before := outstanding j e n hj hn
        exact before.concat le (by simp) (before.owed.append (by simp) (by simp [LoopEvent.answered]))
      · intro n hn j e _ hj hjn
        rw [turn] at hn
        cases hn
        exact absurd (outstanding j e _ hj hjn).recent (by omega)
      · intro n hn k hk hne c hc
        rw [still] at hc ⊢
        rcases turns_apply hd hn with hnew | hn
        · rw [turn] at hnew
          cases hnew
          rw [empty] at hc
          cases hc
        · rcases turns_apply hd hk with hnew | hk
          · rw [turn] at hnew
            cases hnew
            rw [empty]
            exact List.not_mem_nil
          · exact inv.apart n hn k hk hne c hc
  | ends n reason failure turn answered gone events =>
      have now := outstanding i d n hd turn
      rw [answered] at now
      refine inv.apply_of hd (events ▸ inv.paired.turnEnd now.owed) (by simp [events]) ?_ (by simp [gone]) ?_
        (by simp [gone]) (silent (by simp [events]) (by simp [gone]))
      · intro n' reason' failure' hmem
        rw [events] at hmem
        cases List.mem_singleton.mp hmem
        exact lt_of_lt_of_le now.recent le
      · intro j e k hne hj hk
        rw [events] at le ⊢
        have before := outstanding j e k hj hk
        refine before.concat le (fun reason' failure' he => ?_)
          (before.owed.append (by simp) (by simp [LoopEvent.answered]))
        cases he
        exact other n turn j e n hne hj hk rfl
  | commits message before after answered pending nodup fresh events =>
      have now := outstanding i d _ hd before
      rw [answered] at now
      have untaken : ∀ n ∈ w.turns, ∀ c ∈ message.callIds, c ∉ callsIn new n := by
        intro n hn c hc hin
        obtain ⟨old, hold⟩ := hlog
        refine fresh c hc (List.mem_flatMap.mpr ⟨n, hn, ?_⟩)
        rw [hold, callsIn_append]
        exact List.mem_append_right _ hin
      have now' := untaken _ (inTurns _ before)
      refine inv.apply_of hd (inv.paired.append (by simp [events]) (by simp [events, LoopEvent.answered]))
        ?_ (by simp [events]) ?_ ?_ (fun n hn => ?_) ?_
      · intro x hx
        rw [events] at hx
        cases List.mem_singleton.mp hx
        exact lt_of_lt_of_le now.recent le
      · intro n hn
        rw [after] at hn
        cases hn
        rw [pending, events]
        rw [events] at le
        refine ⟨lt_of_lt_of_le now.recent le, fun reason failure hmem => ?_, now.owed.message now', nodup,
          fun c hc => mem_callsIn.mpr ⟨message, by simp, rfl, hc⟩⟩
        exact now.unended reason failure (by simpa using hmem)
      · intro j e n hne hj hn
        rw [events] at le ⊢
        have before' := outstanding j e n hj hn
        exact before'.concat le (by simp) (before'.owed.message_other (other _ before j e n hne hj hn).symm)
      · rw [after] at hn
        cases hn
        exact alone _ before
      · have turns : ∀ n ∈ (w.apply i d m).turns, n ∈ w.turns := by
          intro n hn
          rcases turns_apply hd hn with hnew | hn
          · rw [after] at hnew
            exact inTurns n (before.trans hnew)
          · exact hn
        have own : ∀ n c, c ∈ callsIn m.events n → n = message.turn ∧ c ∈ message.callIds := by
          intro n c hc
          obtain ⟨x, hx, ht, hc⟩ := mem_callsIn.mp hc
          rw [events] at hx
          cases List.mem_singleton.mp hx
          exact ⟨ht.symm, hc⟩
        intro n hn k hk hne c hc hc'
        rw [callsIn_append] at hc hc'
        rcases List.mem_append.mp hc with hold | hnew <;> rcases List.mem_append.mp hc' with hold' | hnew'
        · exact inv.apart n (turns n hn) k (turns k hk) hne c hold hold'
        · exact untaken n (turns n hn) c (own k c hnew').2 hold
        · exact untaken k (turns k hk) c (own n c hnew).2 hold'
        · exact hne ((own n c hnew).1.trans (own k c hnew').1.symm)
  | answers n id c content isError before after pending events =>
      have now := outstanding i d n hd before
      rw [pending] at now
      have asked := now.asked c List.mem_cons_self
      refine inv.apply_of hd (events ▸ inv.paired.result now.unended asked) (by simp [events])
        (by simp [events]) ?_ ?_ (fun k hk => ?_) (silent (by simp [events]) fun k hk => ?_)
      · intro k hk
        rw [after] at hk
        cases hk
        rw [events] at le ⊢
        have fresh : c ∉ m.phase.pending := (List.nodup_cons.mp now.nodup).1
        refine ⟨lt_of_lt_of_le now.recent le, fun reason failure hmem => ?_, now.owed.result fresh,
          (List.nodup_cons.mp now.nodup).2, fun c' hc' => ?_⟩
        · exact now.unended reason failure (by simpa using hmem)
        · rw [callsIn_append]
          exact List.mem_append_left _ (now.asked c' (List.mem_cons_of_mem _ hc'))
      · intro j e k hne hj hk
        rw [events] at le ⊢
        have before' := outstanding j e k hj hk
        have apart := inv.apart n (inTurns n before) k (mem_turns.mpr ⟨e, List.mem_of_getElem? hj, hk⟩)
          (other n before j e k hne hj hk).symm c asked
        exact before'.concat le (by simp) (before'.owed.result_other apart)
      · rw [after] at hk
        cases hk
        exact alone n before
      · rw [after] at hk
        exact inTurns k (before.trans hk)

end

theorem answering_reached {start : Log} (h : (loopSystem (· = start)).Reached (fun w a => w.Answers a) w) :
    ∃ new, w.log = start ++ new ∧ w.Answering new := by
  refine System.Reached.invariant (I := fun w => ∃ new, w.log = start ++ new ∧ w.Answering new) ?_ ?_ h
  · rintro _ ⟨log, success, rfl, rfl⟩
    exact ⟨[], by simp [World.fresh], paired_nil, by simp, by simp, fun d hd => absurd hd List.not_mem_nil,
      fun _ _ _ _ _ hi => (nomatch hi), fun n hn => absurd hn List.not_mem_nil⟩
  · rintro w a w' _ ⟨new, hlog, inv⟩ hs answers
    cases a with
    | call c =>
        obtain ⟨events, hl, inv'⟩ := (Grown.call hs).answering inv
        exact ⟨new ++ events, by rw [hl, hlog, List.append_assoc], inv'⟩
    | advance i o =>
        obtain ⟨d, a, m, hd, _, moved, grown⟩ := advance_grown hs
        have ok := answers d hd
        have turned : Turned w.log w.takenIds d.phase m := by
          refine moved_turned moved ?_ ?_
          · rintro what rfl
            exact ok
          · rintro rfl acc hacc
            exact ok acc hacc
        obtain ⟨events, hl, inv'⟩ := grown.answering (inv.apply ⟨start, hlog⟩ hd turned)
        refine ⟨new ++ m.events ++ events, ?_, inv'⟩
        rw [hl, World.apply, hlog, List.append_assoc, List.append_assoc, List.append_assoc]

end World

/-- Calls and results pair up at each `turn/end` of the run. -/
theorem calls_answered {start : Log} {w : World}
    (h : (loopSystem (· = start)).Reached (fun w a => w.Answers a) w) :
    ∃ new, w.log = start ++ new ∧ Paired new := by
  obtain ⟨new, hlog, inv⟩ := World.answering_reached h
  exact ⟨new, hlog, inv.paired⟩

/-- A step that calls a tool, and a step that answers. -/
def toolTurn : List Act :=
  [.call .create, .call (.followup (queued "m1") {} false)] ++ advances 0 (toStream "m1" true) ++
    advances 0 [.chunks [.blockEnd 0 (.toolCall ⟨"c1", "read", "{}"⟩), .finish .toolCalls none none], .ok,
      .ok, .ok, .result { content := .null }, .ok, .ok, .ok, .ok, .ok, .ok] ++
    advances 0 [.context [], .decision false [], .ok, .ok, .ok, .ok, .ok] ++
    advances 0 [.chunks [.blockEnd 0 (.text "done"), .finish .stop none none], .ok, .ok, .ok, .ok, .ok, .ok]

theorem calls_answered_once : ∃ w, (loopSystem (· = [])).Reached (fun w a => w.Answers a) w ∧
    w.reports.length = 1 ∧ resultIds w.log = ["c1"] ∧ ∃ new, w.log = [] ++ new ∧ Paired new := by
  have played : (System.follow World.next (fun w a => decide (w.Answers a)) (World.fresh [] false)
      toolTurn).any (fun w => decide (w.reports.length = 1 ∧ resultIds w.log = ["c1"])) = true := by
    decide +kernel
  obtain ⟨w, hw, hplayed⟩ := (Option.any_eq_true _ _).mp played
  obtain ⟨reports, results⟩ := of_decide_eq_true hplayed
  have reached := System.follow_reached (S := loopSystem (· = [])) (P := fun w a => w.Answers a)
    (fun _ _ _ h => h) (fun _ _ h => of_decide_eq_true h) hw (.start ⟨[], false, rfl, rfl⟩)
  exact ⟨w, reached, reports, results, calls_answered reached⟩

def LoopEvent.message : LoopEvent → Option AssistantMessage
  | .assistantMessage m => some m
  | .turnStart _ | .turnEnd _ _ _ | .stepStart _ _ | .stepEnd _ _ | .inboxSpliced _ | .userMessage _
  | .assistantAttempt _ _ _ | .toolCall _ _ _ | .toolResult _ _ _ _ | .other _ _ => none

def LoopEvent.endedTurn : LoopEvent → Option Nat
  | .turnEnd n _ _ => some n
  | .turnStart _ | .stepStart _ _ | .stepEnd _ _ | .inboxSpliced _ | .userMessage _ | .assistantMessage _
  | .assistantAttempt _ _ _ | .toolCall _ _ _ | .toolResult _ _ _ _ | .other _ _ => none

theorem split_at {log : Log} {i : Nat} {e : LoopEvent} (h : log[i]? = some e) :
    log = log.take i ++ e :: log.drop (i + 1) := by
  obtain ⟨hlt, rfl⟩ := List.getElem?_eq_some_iff.mp h
  rw [List.getElem_cons_drop, List.take_append_drop]

/-- The pairing of one message, `k` events before the end of its turn. -/
theorem Paired.at {log : Log} (h : Paired log) {i k : Nat} {m : AssistantMessage}
    (message : (log[i]?).bind LoopEvent.message = some m)
    (ended : (log.drop (i + 1))[k]?.bind LoopEvent.endedTurn = some m.turn) {c : String} (hc : c ∈ m.callIds) :
    (resultIds ((log.drop (i + 1)).take k)).count c = 1 := by
  obtain ⟨e, hi, he⟩ := Option.bind_eq_some_iff.mp message
  obtain ⟨f, hk, hf⟩ := Option.bind_eq_some_iff.mp ended
  cases e <;> cases he
  cases f <;> cases hf
  next reason failure =>
    have front := split_at hi
    have back := split_at hk
    refine h.answered (log.take i) m _ _ reason failure ((log.drop (i + 1)).drop (k + 1)) ?_ rfl c hc
    rw [List.append_assoc, List.cons_append, ← back, ← front]

/-- An interrupted stream commits the part of a call that had arrived; nothing answers it. -/
theorem calls_unanswered : ¬ ∀ start w, (loopSystem (· = start)).Reached (fun _ _ => True) w →
    ∃ new, w.log = start ++ new ∧ Paired new := by
  intro pairs
  have played : (System.follow World.next (fun _ _ => true) (World.fresh [] false)
      ([.call .create, .call (.followup (queued "m1") {} false)] ++ advances 0 (toStream "m1" true) ++
        [.call (.cancel false none)] ++
        advances 0 [.chunks [.toolCallDelta 0 "c1" "read" "", .finish .aborted none none], .ok, .ok, .ok, .ok,
          .ok, .ok])).any (fun w => ((w.log[5]?).bind LoopEvent.message).any fun m =>
            decide ("c1" ∈ m.callIds ∧ (w.log.drop 6)[1]?.bind LoopEvent.endedTurn = some m.turn ∧
              resultIds ((w.log.drop 6).take 1) = [])) = true := by
    decide +kernel
  obtain ⟨w, hw, hplayed⟩ := (Option.any_eq_true _ _).mp played
  obtain ⟨m, hm, hplayed⟩ := (Option.any_eq_true _ _).mp hplayed
  obtain ⟨call, ended, none⟩ := of_decide_eq_true hplayed
  have reached := System.follow_reached (S := loopSystem (· = [])) (P := fun _ _ => True)
    (fun _ _ _ h => h) (fun _ _ _ => trivial) hw (.start ⟨[], false, rfl, rfl⟩)
  obtain ⟨new, hlog, paired⟩ := pairs [] w reached
  rw [List.nil_append] at hlog
  subst hlog
  have once := paired.at hm ended call
  rw [none] at once
  cases once

end Araya.Agent