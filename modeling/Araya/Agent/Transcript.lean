import Araya.Agent.Drives
import Araya.Agent.Pairing
import Araya.Agent.Prompt

/-!
Every transcript of the loop can be sent. A turn of the model answers a user
turn, and a system update stands after one; what may keep a request from being
built are the arguments of a committed call, which the builder parses.
-/

namespace Araya.Agent

open Sessions (Surface Message)
open Llm (StepAccumulator LlmMessage)

/-- The role in which an event of the loop speaks to the model. -/
def LoopEvent.said : LoopEvent → Option Llm.MessageRole
  | .userMessage _ | .toolResult _ _ _ _ => some .user
  | .assistantMessage _ => some .assistant
  | _ => none

/-- An event whose message, if it has one, is of the loop's own vocabulary. -/
def LoopEvent.Own (e : LoopEvent) : Prop :=
  ∀ type data, e = .other type data → Sessions.isBuiltinSurfaceType type = false

def rolesOf (s : Surface) : List Llm.MessageRole := (spoken s).map fun m => Llm.roleOf m.role

theorem spokenRoles_transcript (log : Log) : Llm.spokenRoles (transcript log) = rolesOf (surfaceOf log) := by
  simp only [Llm.spokenRoles, transcript, rolesOf, spoken, List.map_map, List.filter_map]
  refine congrArg _ (List.filter_congr fun m _ => ?_)
  rcases m with ⟨_ | _ | _ | _, _, _, _, _, _⟩ <;> rfl

/-! What an event says -/

section
variable {s : Surface} {n : Nat} {e : LoopEvent} {parse : String → Option Json}

theorem foldBuiltin_of_type {ev : Sessions.Event} (h : Sessions.isBuiltinSurfaceType ev.type = false) :
    Sessions.foldBuiltin ev = .none := by
  simp only [Sessions.isBuiltinSurfaceType, Bool.or_eq_false_iff, beq_eq_false_iff_ne] at h
  obtain ⟨⟨⟨⟨system, user⟩, assistant⟩, result⟩, replace⟩ := h
  simp [Sessions.foldBuiltin, system, user, assistant, result, replace]

theorem applyEvent_silent (h : Sessions.isBuiltinSurfaceType e.type = false) : applyEvent s (e, n) = s := by
  rw [applyEvent, foldBuiltin_of_type h]
  rfl

theorem applyEvent_userMessage {data : Json} (valid : (LoopEvent.record (.userMessage data) n).Valid) :
    ∃ m, applyEvent s (.userMessage data, n) = s.push n m ∧ m.role = .user := by
  simp only [Sessions.Event.Valid, Sessions.validateEvent, LoopEvent.record, LoopEvent.type, LoopEvent.data,
    Sessions.isBuiltinSurfaceType] at valid
  simp only [beq_self_eq_true, Bool.true_or, Bool.or_true, Bool.true_eq_false, if_false, String.reduceEq] at valid
  obtain ⟨o, ho, valid⟩ := Sessions.except_bind valid
  obtain ⟨_, hid, valid⟩ := Sessions.except_bind valid
  obtain ⟨_, hcontent, valid⟩ := Sessions.except_bind valid
  obtain ⟨id, hid⟩ := Option.isSome_iff_exists.mp (Sessions.of_ensure hid)
  obtain ⟨items, hitems⟩ := Option.isSome_iff_exists.mp (Sessions.of_ensure hcontent)
  obtain ⟨content, hcontent, _⟩ := Option.bind_eq_some_iff.mp hitems
  obtain ⟨hid, _⟩ := Option.filter_eq_some_iff.mp hid
  have object : data.ifObject = some o := by
    obtain ⟨o', ho', ho⟩ := Sessions.except_bind ho
    cases ho
    exact Sessions.of_need ho'
  refine ⟨{ role := .user, id, content, source := Json.find? o "source" }, ?_, rfl⟩
  simp [applyEvent, LoopEvent.record, LoopEvent.type, LoopEvent.data, Sessions.foldBuiltin,
    Sessions.messageObject, object, hid, hcontent, Sessions.plainMessage, Sessions.appendPlan, Surface.apply]

theorem applyEvent_toolResult (id callId : String) (content : Json) (isError : Bool) :
    ∃ m, applyEvent s (.toolResult id callId content isError, n) = s.push n m ∧ m.role = .toolResult := by
  refine ⟨{
    role := .toolResult, id, toolCallId := some callId
    content := .arr [.obj [("type", .str "tool_result"), ("tool_call_id", .str callId), ("content", content),
      ("is_error", .bool isError)]]
    source := some (.obj [("kind", .str "tool"), ("call_id", .str callId)]) }, ?_, rfl⟩
  simp [applyEvent, LoopEvent.record, LoopEvent.type, LoopEvent.data, Sessions.foldBuiltin,
    Sessions.messageObject, Llm.toolResultData, Sessions.answeredCall, Json.arrayField, Json.stringField,
    Sessions.plainMessage, Sessions.appendPlan, Surface.apply]

theorem applyEvent_assistantMessage (x : AssistantMessage) :
    ∃ m, applyEvent s (.assistantMessage x, n) = s.push n m ∧ m.role = .assistant ∧
      Llm.toolCallsOf (Llm.toLlmMessage m).content = Llm.toolCallsOf x.blocks := by
  refine ⟨{ role := .assistant, id := x.id, content := Llm.blocksToJson x.blocks }, ?_, rfl,
    Llm.toolCallsOf_blocksToJson x.blocks⟩
  simp [applyEvent, LoopEvent.record, LoopEvent.type, LoopEvent.data, Sessions.foldBuiltin,
    Sessions.messageObject, Llm.assistantMessageData, Json.objectField, Json.stringField,
    Sessions.plainMessage, Sessions.appendPlan, Surface.apply]

/-- The effect of a valid event of the loop on its surface. -/
theorem applyEvent_said (valid : (e.record n).Valid) (own : e.Own) :
    (e.said = none ∧ applyEvent s (e, n) = s) ∨ ∃ m role, e.said = some role ∧
      applyEvent s (e, n) = s.push n m ∧ Llm.roleOf m.role = role ∧ m.role ≠ .system ∧
      ∀ call ∈ Llm.toolCallsOf (Llm.toLlmMessage m).content, m.role = .assistant →
        ∃ x, e = .assistantMessage x ∧ call ∈ Llm.toolCallsOf x.blocks := by
  cases e with
  | userMessage data =>
      obtain ⟨m, hm, role⟩ := applyEvent_userMessage (s := s) valid
      exact .inr ⟨m, .user, rfl, hm, by rw [role]; rfl, by simp [role], fun _ _ ha => by simp [role] at ha⟩
  | toolResult id callId content isError =>
      obtain ⟨m, hm, role⟩ := applyEvent_toolResult (s := s) (n := n) id callId content isError
      exact .inr ⟨m, .user, rfl, hm, by rw [role]; rfl, by simp [role], fun _ _ ha => by simp [role] at ha⟩
  | assistantMessage x =>
      obtain ⟨m, hm, role, calls⟩ := applyEvent_assistantMessage (s := s) (n := n) x
      refine .inr ⟨m, .assistant, rfl, hm, by rw [role]; rfl, by simp [role], fun call hc _ => ⟨x, rfl, ?_⟩⟩
      rwa [← calls]
  | other type data => exact .inl ⟨rfl, applyEvent_silent (own type data rfl)⟩
  | _ => exact .inl ⟨rfl, applyEvent_silent rfl⟩

end

/-- The events from number `n` on pass the checks of the session. -/
def Recorded (n : Nat) (events : List LoopEvent) : Prop := ∀ e ∈ events.zipIdx n, (e.1.record e.2).Valid

instance (n : Nat) (events : List LoopEvent) : Decidable (Recorded n events) :=
  inferInstanceAs (Decidable (∀ e ∈ events.zipIdx n, _))

/-- The session can be sent as long as nothing waits for a user turn: its nodes are
numbered, and the calls of its assistant turns parse. -/
structure Encodes (parse : String → Option Json) (s : Surface) (next : Nat) : Prop where
  numbered : Numbered s next
  calls : ∀ m ∈ spoken s, (Llm.toLlmMessage m).Encodable parse

/-- Every assistant turn answers a user turn, and no system prompt is empty. -/
structure Converses (s : Surface) : Prop where
  answering : Llm.Answering (rolesOf s)
  texts : ∀ m ∈ s.messages, m.role = .system → Llm.joinText (Llm.toLlmMessage m) ≠ ""

section
variable {s s' : Surface} {n : Nat} {e : LoopEvent} {parse : String → Option Json}

/-- One more spoken message. -/
theorem rolesOf_push {m : Message} (speaks : m.role ≠ .system) :
    rolesOf (s.push n m) = rolesOf s ++ [Llm.roleOf m.role] := by
  simp [rolesOf, spoken, Surface.push, List.filter_append, speaks]

theorem Encodes.event (h : Encodes parse s n) (valid : (e.record n).Valid) (own : e.Own)
    (calls : ∀ x, e = .assistantMessage x → ∀ call ∈ Llm.toolCallsOf x.blocks, call.Parses parse) :
    Encodes parse (applyEvent s (e, n)) (n + 1) ∧ rolesOf (applyEvent s (e, n)) = rolesOf s ++ e.said.toList ∧
      ∀ m ∈ (applyEvent s (e, n)).messages, m.role = .system → m ∈ s.messages := by
  rcases applyEvent_said (s := s) valid own with ⟨said, same⟩ | ⟨m, role, said, pushed, hr, speaks, own⟩
  · rw [said, same]
    exact ⟨⟨h.numbered.later, h.calls⟩, (List.append_nil _).symm, fun m hm _ => hm⟩
  · rw [said, pushed]
    have there : ∀ x ∈ s.messages ++ [m], x ∈ s.messages ∨ x = m := fun x hx =>
      (List.mem_append.mp hx).imp_right List.mem_singleton.mp
    refine ⟨⟨h.numbered.push m, fun x hx => ?_⟩, ?_, fun x hx hs => ?_⟩
    · obtain ⟨hx, hs⟩ := List.mem_filter.mp hx
      rcases there x hx with hold | rfl
      · exact h.calls x (List.mem_filter.mpr ⟨hold, hs⟩)
      · intro hrole call hc
        have assistant : x.role = .assistant := by
          cases hx' : x.role with
          | assistant => rfl
          | _ => simp [Llm.toLlmMessage, Llm.roleOf, hx'] at hrole
        obtain ⟨y, he, hy⟩ := own call hc assistant
        exact calls y he call hy
    · rw [rolesOf_push speaks, hr]
      rfl
    · rcases there x hx with hold | rfl
      · exact hold
      · exact absurd hs speaks

theorem Encodes.events {events : List LoopEvent} (h : Encodes parse s n) (valid : Recorded n events)
    (own : ∀ e ∈ events, e.Own)
    (calls : ∀ x, .assistantMessage x ∈ events → ∀ call ∈ Llm.toolCallsOf x.blocks, call.Parses parse) :
    Encodes parse ((events.zipIdx n).foldl applyEvent s) (n + events.length) ∧
      rolesOf ((events.zipIdx n).foldl applyEvent s) = rolesOf s ++ events.filterMap LoopEvent.said ∧
      ∀ m ∈ ((events.zipIdx n).foldl applyEvent s).messages, m.role = .system → m ∈ s.messages := by
  induction events generalizing s n with
  | nil => exact ⟨h, by simp, fun m hm _ => hm⟩
  | cons e es ih =>
      have head := h.event (valid (e, n) (by simp)) (own e List.mem_cons_self) fun x hx =>
        calls x (by rw [← hx]; exact List.mem_cons_self)
      obtain ⟨encodes, roles, texts⟩ := ih head.1 (fun x hx => valid x (List.mem_cons_of_mem _ hx))
        (fun x hx => own x (List.mem_cons_of_mem _ hx)) fun x hx => calls x (List.mem_cons_of_mem _ hx)
      refine ⟨?_, ?_, fun m hm hs => head.2.2 m (texts m hm hs) hs⟩
      · rw [List.length_cons, show n + (es.length + 1) = n + 1 + es.length by omega]
        exact encodes
      · rw [List.zipIdx_cons, List.foldl_cons, roles, head.2.1, List.append_assoc]
        cases hs : e.said <;> simp [hs]

end

/-- What the events do to a session that can be sent. -/
structure Continues (parse : String → Option Json) (log events : Log) : Prop where
  encodes : Encodes parse (surfaceOf (log ++ events)) (log ++ events).length
  roles : rolesOf (surfaceOf (log ++ events)) = rolesOf (surfaceOf log) ++ events.filterMap LoopEvent.said
  texts : ∀ m ∈ (surfaceOf (log ++ events)).messages, m.role = .system → m ∈ (surfaceOf log).messages ∨
    Llm.joinText (Llm.toLlmMessage m) ≠ ""

section
variable {parse : String → Option Json} {log events : Log}

theorem continues_own (h : Encodes parse (surfaceOf log) log.length) (valid : Recorded log.length events)
    (own : ∀ e ∈ events, e.Own)
    (calls : ∀ x, .assistantMessage x ∈ events → ∀ call ∈ Llm.toolCallsOf x.blocks, call.Parses parse) :
    Continues parse log events := by
  obtain ⟨encodes, roles, texts⟩ := h.events valid own calls
  rw [← surfaceOf_append] at encodes roles texts
  exact ⟨by rwa [List.length_append], roles, fun m hm hs => .inl (texts m hm hs)⟩

theorem continues_prompt (h : Encodes parse (surfaceOf log) log.length)
    (writes : PromptWrites (surfaceOf log) log.length events) (silent : events.filterMap LoopEvent.said = [])
    (small : (log ++ events).length ≤ 2 ^ 63) : Continues parse log events := by
  obtain ⟨prompted, numbered⟩ := writes.prompted h.numbered (by rwa [List.length_append] at small)
  rw [← surfaceOf_append] at prompted numbered
  refine ⟨⟨by rwa [List.length_append], ?_⟩, ?_, prompted.texts⟩
  · rw [prompted.spoken]
    exact h.calls
  · rw [silent, List.append_nil, rolesOf, prompted.spoken]
    rfl

theorem Continues.converses (h : Continues parse log events) (inv : Converses (surfaceOf log))
    (answering : Llm.Answering (rolesOf (surfaceOf log) ++ events.filterMap LoopEvent.said)) :
    Converses (surfaceOf (log ++ events)) := by
  refine ⟨by rwa [h.roles], fun m hm hs => ?_⟩
  exact (h.texts m hm hs).elim (fun hold => inv.texts m hold hs) id

end

/-! The moves of a drive -/

/-- The last turn is a user's. -/
def Heard (roles : List Llm.MessageRole) : Prop := roles.getLast? = some .user

/-- Where a drive stands, the user's turn that its next request needs is there, or
still to be admitted, or the drive does not come to a request. -/
def Phase.Due (roles : List Llm.MessageRole) : Phase → Prop
  | .looping t | .claimingStep t | .claimingTurn t _ | .proposing t _ | .deciding t _ | .decided t _ _
  | .checking t | .stopping t | .rechecking t => t.firstStep = false → t.ended = none → Heard roles
  | .starting _ messages | .prompting _ messages | .admitting _ messages => messages = [] → Heard roles
  | .requesting _ | .streaming _ | .retrying _ _ | .committing _ _ => Heard roles
  | .calling _ calls _ => calls = [] → Heard roles
  | .stepped _ exit => exit = none → Heard roles
  | _ => True

/-- The blocks of a stream that its commit writes. -/
def committedBlocks (acc : StepAccumulator) : List Llm.ContentBlock :=
  if acc.failure.isSome ∧ acc.why ≠ .aborted then []
  else if acc.why = .aborted then acc.deliveredBlocks
  else acc.closed

section
variable {success : Bool} {log : Log} {a : AgentState} {p : Phase} {o : Outcome} {m : Move}

theorem commit_message {turn step : Nat} {acc : StepAccumulator} {x : AssistantMessage}
    (h : .assistantMessage x ∈ (commitModelOutcome log turn step acc success).events) :
    x.blocks = committedBlocks acc := by
  have same : ¬ (acc.failure.isSome ∧ ¬ acc.why = .aborted) →
      (commitModelOutcome log turn step acc success).blocks = committedBlocks acc := by
    intro failed
    rw [commitModelOutcome, if_neg failed, committedBlocks, if_neg failed]
  rcases commit_cases log turn step acc success with ⟨message, he, _, hb⟩ | ⟨failure, he⟩ | he
  · rw [he] at h
    cases List.mem_singleton.mp h
    refine hb.trans (same fun failed => ?_)
    rw [commitModelOutcome, if_pos failed] at he
    simp at he
  · rw [he] at h
    simp at h
  · rw [he] at h
    cases h

theorem LoopEvent.Foreign.said {e : LoopEvent} (h : e.Foreign) : e.said = none := by
  cases e <;> first | rfl | exact absurd (by simp [LoopEvent.type, loopTypes]) h

theorem foreign_said {events : List LoopEvent} (h : ∀ e ∈ events, e.Foreign) :
    events.filterMap LoopEvent.said = [] :=
  List.filterMap_eq_nil_iff.mpr fun e he => (h e he).said

/-- What a move writes is the loop's own, but for what a request adds beside it. -/
theorem moved_own (h : Moved success log a p o m) :
    (∃ events, o = .events events ∧ m.events = events ∧ ∀ e ∈ events, e.Foreign) ∨ ∀ e ∈ m.events, e.Own := by
  have own : ∀ {events : List LoopEvent}, (∀ e ∈ events, ∀ type data, e ≠ .other type data) →
      ∀ e ∈ events, e.Own := fun he e hmem type data ho => absurd ho (he e hmem type data)
  have committed : ∀ (t : TurnState) (acc : StepAccumulator),
      ∀ e ∈ (commitModelOutcome log t.turn t.step acc success).events, ∀ type data, e ≠ .other type data := by
    intro t acc
    rcases commit_cases log t.turn t.step acc success with ⟨message, hc, _⟩ | ⟨failure, hc⟩ | hc <;>
      rw [hc] <;> simp
  cases h with
  | prompts t messages events hf | requests t events hf => exact .inl ⟨events, rfl, rfl, hf⟩
  | ends t acc _ _ _ _ | answered t acc _ _ | asks t acc _ _ => exact .inr (own (committed t acc))
  | claimsStep t m hm | claimsTurn t claimed m hm =>
      refine .inr (own ?_)
      simp only [InboxMutation.events]
      split <;> simp
  | _ => exact .inr (own (by simp))

/-- A message is committed from the stream it ends. -/
theorem moved_message (h : Moved success log a p o m) {x : AssistantMessage}
    (hx : .assistantMessage x ∈ m.events) :
    o = .ok ∧ ∃ acc, p.streamed = some acc ∧ x.blocks = committedBlocks acc := by
  cases h with
  | prompts t messages events hf | requests t events hf =>
      exact absurd (hf _ hx) (by simp [LoopEvent.Foreign, LoopEvent.type, loopTypes])
  | ends t acc _ _ _ _ | answered t acc _ _ | asks t acc _ _ => exact ⟨rfl, acc, rfl, commit_message hx⟩
  | claimsStep t m hm | claimsTurn t claimed m hm =>
      simp only [InboxMutation.events] at hx
      split at hx <;> simp at hx
  | _ => simp at hx

theorem heard_user (roles : List Llm.MessageRole) : Heard (roles ++ [.user]) := by
  simp [Heard]

theorem answering_user {roles : List Llm.MessageRole} (h : Llm.Answering roles) :
    Llm.Answering (roles ++ [.user]) :=
  List.isChain_append.mpr ⟨h, .singleton _, by simp⟩

theorem answering_assistant {roles : List Llm.MessageRole} (h : Llm.Answering roles) (heard : Heard roles) :
    Llm.Answering (roles ++ [.assistant]) := by
  refine List.isChain_append.mpr ⟨h, .singleton _, fun before hb _ _ _ => ?_⟩
  rw [heard] at hb
  exact (Option.some.inj hb).symm

theorem commit_said (log : Log) (turn step : Nat) (acc : StepAccumulator) (success : Bool) :
    (commitModelOutcome log turn step acc success).events.filterMap LoopEvent.said = [.assistant] ∨
      (commitModelOutcome log turn step acc success).events.filterMap LoopEvent.said = [] := by
  rcases commit_cases log turn step acc success with ⟨message, hc, _⟩ | ⟨failure, hc⟩ | hc <;> rw [hc]
  · exact .inl rfl
  · exact .inr rfl
  · exact .inr rfl

theorem answering_commit {roles : List Llm.MessageRole} (h : Llm.Answering roles) (heard : Heard roles)
    (turn step : Nat) (acc : StepAccumulator) : Llm.Answering
      (roles ++ (commitModelOutcome log turn step acc success).events.filterMap LoopEvent.said) := by
  rcases commit_said log turn step acc success with hs | hs <;> rw [hs]
  · exact answering_assistant h heard
  · rwa [List.append_nil]

/-- A move keeps the turns of a conversation answering each other, and leaves the
drive with the user's turn it needs. -/
theorem moved_due (h : Moved success log a p o m) {roles : List Llm.MessageRole} (due : p.Due roles)
    (answering : Llm.Answering roles) : m.phase.Due (roles ++ m.events.filterMap LoopEvent.said) ∧
      Llm.Answering (roles ++ m.events.filterMap LoopEvent.said) := by
  have silent : ∀ {phase : Phase} {events : List LoopEvent}, phase.Due roles →
      events.filterMap LoopEvent.said = [] → phase.Due (roles ++ events.filterMap LoopEvent.said) ∧
        Llm.Answering (roles ++ events.filterMap LoopEvent.said) := by
    intro phase events hd hs
    rw [hs, List.append_nil]
    exact ⟨hd, answering⟩
  cases h with
  | opens => exact silent (fun first _ => absurd first (by simp)) rfl
  | claimsStep t m hm =>
      have quiet : m.events.filterMap LoopEvent.said = [] := by
        unfold InboxMutation.events
        split <;> rfl
      refine silent ?_ quiet
      split <;> exact due
  | claimsTurn t claimed m hm =>
      refine silent due ?_
      unfold InboxMutation.events
      split <;> rfl
  | begins t messages begun => exact silent (fun he => due (begun he).2 (begun he).1) rfl
  | prompts t messages events hf | requests t events hf => exact silent due (foreign_said hf)
  | admits t message rest => exact ⟨fun _ => heard_user roles, answering_user answering⟩
  | admitted t => exact silent (due rfl) rfl
  | ends t acc status a' _ _ => exact ⟨by simp [Phase.Due], answering_commit answering due _ _ _⟩
  | answered t acc _ _ => exact ⟨by simp [Phase.Due], answering_commit answering due _ _ _⟩
  | asks t acc _ asked => exact ⟨fun none => absurd none asked, answering_commit answering due _ _ _⟩
  | answers t call r calls o => exact ⟨fun _ => heard_user roles, answering_user answering⟩
  | returns t o => exact silent (fun _ => due rfl) rfl
  | steps t exit =>
      refine silent (fun _ ended => ?_) rfl
      refine due ?_
      simp only [TurnState.stepped] at ended
      split at ended
      · exact ended
      · next open' =>
          cases exit with
          | none => rfl
          | some status => simp [ended] at open'
  | _ => exact silent (by first | exact due | trivial) rfl

end

/-! The runs in which the loop alone speaks -/

namespace World

/-- What another party appends is no message; a request adds its system prompt, and
beside that no message either. -/
def Writes (w : World) : Act → Prop
  | .call (.append e) => Sessions.isBuiltinSurfaceType e.type = false
  | .advance i (.events events) => ∀ d ∈ w.drives[i]?, (∀ e ∈ events, e.Own) ∨
    ∃ rendered inHistory startsSeries, events <+: commitSystemPrompt w.log rendered inHistory startsSeries
  | _ => True

/-- The arguments of the tool calls that a commit writes parse to objects. -/
def Delivers (parse : String → Option Json) (w : World) : Act → Prop
  | .advance i .ok => ∀ d ∈ w.drives[i]?, ∀ acc ∈ d.phase.streamed,
    ∀ call ∈ Llm.toolCallsOf (committedBlocks acc), call.Parses parse
  | _ => True

/-- A call appends no message. -/
def Quiet (w w' : World) : Prop :=
  ∃ events, w'.log = w.log ++ events ∧ ∀ e ∈ events, Sessions.isBuiltinSurfaceType e.type = false

namespace Quiet
variable {w w' w'' : World}

theorem of_log (h : w'.log = w.log) : w.Quiet w' := ⟨[], by simp [h]⟩

theorem trans (h : w.Quiet w') (h' : w'.Quiet w'') : w.Quiet w'' := by
  obtain ⟨events, hl, he⟩ := h
  obtain ⟨events', hl', he'⟩ := h'
  refine ⟨events ++ events', by rw [hl', hl, List.append_assoc], fun e hmem => ?_⟩
  exact (List.mem_append.mp hmem).elim (he e) (he' e)

theorem kick (w : World) (i : Nat) : w.Quiet (w.kick i) := by
  rcases w.kick_cases i with hk | ⟨_, _, _, hk⟩
  · exact of_log (by rw [hk])
  · exact of_log (by rw [hk])

theorem rewake (w : World) (i : Nat) (a : AgentState) : w.Quiet (w.rewake i a) := by
  unfold World.rewake
  split
  · exact kick w i
  · exact of_log rfl

theorem await (w : World) (message : Json) : w.Quiet (w.await message) := by
  refine of_log ?_
  simp only [World.await]
  split <;> rfl

theorem enqueue (w : World) (target : InboxTarget) (message : Json) : w.Quiet (w.enqueue target message) :=
  ⟨_, rfl, by simp [LoopEvent.type, Sessions.isBuiltinSurfaceType]⟩

theorem discard (w : World) (target : InboxTarget) : w.Quiet (w.discard target) := by
  refine ⟨_, rfl, fun e he => ?_⟩
  unfold InboxMutation.events at he
  split at he
  · cases he
  · cases List.mem_singleton.mp he
    rfl

theorem wakeWith (w : World) (i : Nat) (target : InboxTarget) (message : Json) (options : DriveOptions)
    (refused : Bool) : w.Quiet (w.wakeWith i target message options refused) := by
  have merged : w.Quiet (w.updateAgent i (·.mergeExec options)) := of_log rfl
  cases refused with
  | true => exact merged
  | false => exact ((merged.trans (await _ message)).trans (enqueue _ target message)).trans (kick _ i)

theorem run (w : World) (i : Nat) (options : DriveOptions) (input : String) (refused : Bool) :
    w.Quiet (w.run i options input refused) := by
  have merged : w.Quiet (w.updateAgent i (·.mergeExec options)) := of_log rfl
  simp only [World.run]
  split
  · exact merged.trans (kick _ i)
  · split
    · split
      · exact merged
      · exact (merged.trans (enqueue _ _ _)).trans (of_log rfl)
    · exact (merged.trans (of_log rfl)).trans (kick _ i)

theorem cancel {i : Nat} {keepInbox : Bool} {refused : Option InboxTarget}
    (h : w.cancel i keepInbox refused = some w') : w.Quiet w' := by
  rcases of_call_cancel h with rfl | rfl | rfl | rfl
  · exact of_log rfl
  · exact discard _ _
  · exact of_log rfl
  · exact ((discard _ _).trans (discard _ _)).trans (of_log rfl)

theorem call {c : Call} (h : w.call c = some w') (writes : w.Writes (.call c)) : w.Quiet w' := by
  cases c with
  | create =>
      simp only [World.call] at h
      split at h <;> cases h <;> exact of_log rfl
  | createFailed | requestStop token => cases h; exact of_log rfl
  | run options input refused =>
      obtain ⟨i, _, rfl⟩ := Option.map_eq_some_iff.mp h
      exact run w i options input refused
  | followup message options refused | steer message options refused =>
      obtain ⟨i, _, rfl⟩ := Option.map_eq_some_iff.mp h
      exact wakeWith w i _ message options refused
  | inject message refused =>
      obtain ⟨i, _, rfl⟩ := Option.map_eq_some_iff.mp h
      cases refused with
      | true => exact of_log rfl
      | false => exact enqueue w _ message
  | cancel keepInbox refused =>
      simp only [World.call] at h
      split at h
      · cases h; exact of_log rfl
      · have forget : w.Quiet { w with awaited := [] } := of_log rfl
        exact forget.trans (cancel h)
  | dispose | shutdown =>
      simp only [World.call] at h
      split at h <;> cases h <;> exact of_log rfl
  | append event =>
      simp only [World.call] at h
      split at h <;> cases h
      exact ⟨[event], rfl, fun e he => by rw [List.mem_singleton.mp he]; exact writes⟩

end Quiet

/-- The events that a step appended. -/
def appended (w w' : World) : Log := w'.log.drop w.log.length

end World

/-- The runs of the service in which the loop alone writes messages: every event
passes the checks of the session, and its number fits the wire's int64. -/
def transcriptSystem (ready : Log → Prop) : System World Act where
  start w := ∃ log maxTokensAsSuccess, ready log ∧ w = World.fresh log maxTokensAsSuccess
  step w a w' := w.next a = some w' ∧ w.Writes a ∧ Recorded w.log.length (w.appended w') ∧
    w'.log.length ≤ 2 ^ 63

namespace World
variable {w w' : World} {parse : String → Option Json}

theorem Quiet.told (h : w.Quiet w') (encodes : Encodes parse (surfaceOf w.log) w.log.length)
    (valid : Recorded w.log.length (w.appended w')) : ∃ events, w'.log = w.log ++ events ∧
      events.filterMap LoopEvent.said = [] ∧ Continues parse w.log events := by
  obtain ⟨events, hl, quiet⟩ := h
  have silent : ∀ e ∈ events, e.said = none ∧ e.Own := by
    intro e he
    have hq := quiet e he
    cases e with
    | userMessage | assistantMessage | toolResult =>
        simp [LoopEvent.type, Sessions.isBuiltinSurfaceType] at hq
    | other type data => exact ⟨rfl, fun _ _ ho => by cases ho; exact hq⟩
    | _ => exact ⟨rfl, fun _ _ ho => (by cases ho)⟩
  refine ⟨events, hl, List.filterMap_eq_nil_iff.mpr fun e he => (silent e he).1, ?_⟩
  refine continues_own encodes ?_ (fun e he => (silent e he).2) fun x hx => ?_
  · rwa [appended, hl, List.drop_left] at valid
  · exact absurd (silent _ hx).1 (by simp [LoopEvent.said])

theorem advance_told {i : Nat} {o : Outcome} (h : w.advance i o = some w') (writes : w.Writes (.advance i o))
    (delivers : w.Delivers parse (.advance i o)) (encodes : Encodes parse (surfaceOf w.log) w.log.length)
    (valid : Recorded w.log.length (w.appended w')) (small : w'.log.length ≤ 2 ^ 63) :
    ∃ d a m, w.drives[i]? = some d ∧ w.agents[d.agent]? = some a ∧
      Moved w.maxTokensAsSuccess w.log a d.phase o m ∧ (w.apply i d m).Grown w' ∧
      w'.log = w.log ++ m.events ∧ Continues parse w.log m.events := by
  obtain ⟨d, a, m, hd, ha, moved, hw⟩ := advance_cases h
  have hl : w'.log = w.log ++ m.events := by
    rcases hw with rfl | ⟨_, rfl⟩
    · rfl
    · unfold rewake
      split
      · rcases (w.apply i d m).kick_cases d.agent with hk | ⟨_, _, _, hk⟩ <;> rw [hk] <;> rfl
      · rfl
  have grown : (w.apply i d m).Grown w' := by
    rcases hw with rfl | ⟨_, rfl⟩
    · exact .of_touched (.refl _)
    · exact .rewake _ _ _
  have recorded : Recorded w.log.length m.events := by
    rwa [appended, hl, List.drop_left] at valid
  refine ⟨d, a, m, hd, ha, moved, grown, hl, ?_⟩
  have calls : ∀ x, .assistantMessage x ∈ m.events → ∀ call ∈ Llm.toolCallsOf x.blocks, call.Parses parse := by
    intro x hx
    obtain ⟨rfl, acc, hacc, blocks⟩ := moved_message moved hx
    rw [blocks]
    exact delivers d hd acc hacc
  rcases moved_own moved with ⟨events, rfl, rfl, foreign⟩ | own
  · rcases writes d hd with own | ⟨rendered, inHistory, startsSeries, pre⟩
    · exact continues_own encodes recorded own calls
    · rw [hl] at small
      refine continues_prompt encodes ?_ (foreign_said foreign) small
      exact commitSystemPrompt_writes encodes.numbered pre (by rwa [List.length_append] at small)
  · exact continues_own encodes recorded own calls

/-- Every drive has the user's turn that its next request needs, or will have it. -/
structure Conversing (w : World) : Prop where
  owned : w.Owned
  converses : Converses (surfaceOf w.log)
  due : ∀ d ∈ w.drives, d.phase.Due (rolesOf (surfaceOf w.log))

theorem due_of_settled {p : Phase} (h : p.Settled) (roles : List Llm.MessageRole) : p.Due roles := by
  cases p <;> first | exact h.elim | trivial

theorem Conversing.call {c : Call} (inv : w.Conversing) (h : w.call c = some w')
    (writes : w.Writes (.call c)) (alone : w.MakesAlone (.call c))
    (encodes : Encodes parse (surfaceOf w.log) w.log.length)
    (valid : Recorded w.log.length (w.appended w')) : w'.Conversing := by
  obtain ⟨events, hl, silent, continues⟩ := (Quiet.call h writes).told encodes valid
  have roles : rolesOf (surfaceOf w'.log) = rolesOf (surfaceOf w.log) := by
    rw [hl, continues.roles, silent, List.append_nil]
  refine ⟨inv.owned.call h alone, ?_, ?_⟩
  · rw [hl]
    refine continues.converses inv.converses ?_
    rw [silent, List.append_nil]
    exact inv.converses.answering
  · obtain ⟨new, hdrives, posted⟩ := (Grown.call h).drives
    rw [hdrives, roles]
    intro d hd
    rcases List.mem_append.mp hd with hold | hnew
    · exact inv.due d hold
    · rw [posted d hnew]
      trivial

theorem Conversing.advance {i : Nat} {o : Outcome} (inv : w.Conversing) (h : w.advance i o = some w')
    {d : Drive} {a : AgentState} {m : Move} (hd : w.drives[i]? = some d) 
    (moved : Moved w.maxTokensAsSuccess w.log a d.phase o m) (grown : (w.apply i d m).Grown w')
    (hl : w'.log = w.log ++ m.events) (continues : Continues parse w.log m.events) : w'.Conversing := by
  obtain ⟨due, answering⟩ := moved_due moved (inv.due d (List.mem_of_getElem? hd)) inv.converses.answering
  refine ⟨inv.owned.advance h, ?_, ?_⟩
  · rw [hl]
    exact continues.converses inv.converses answering
  · obtain ⟨new, hdrives, posted⟩ := grown.drives
    rw [hdrives, hl, continues.roles]
    intro e he
    rcases List.mem_append.mp he with hold | hnew
    · obtain ⟨j, hj⟩ := List.mem_iff_getElem?.mp hold
      by_cases settled : e.phase.Settled
      · exact due_of_settled settled _
      · rcases inv.owned.appending hd hj settled with ⟨_, rfl⟩ | ⟨before, hs⟩
        · exact due
        · rw [(moved_settled moved hs).2.1, List.filterMap_nil, List.append_nil]
          exact inv.due e (List.mem_of_getElem? before)
    · rw [posted e hnew]
      trivial

end World

/-- A log whose session can be sent, whatever wrote it. -/
structure Sound (parse : String → Option Json) (log : Log) : Prop where
  encodes : Encodes parse (surfaceOf log) log.length
  converses : Converses (surfaceOf log)

theorem sound_nil (parse : String → Option Json) : Sound parse [] :=
  ⟨⟨⟨rfl, List.nodup_nil, by simp [surfaceOf]⟩, by simp [surfaceOf, spoken]⟩, .nil, by simp [surfaceOf]⟩

section
variable {parse : String → Option Json} {w : World}

theorem encodes_reached (h : (transcriptSystem (Sound parse)).Reached (fun w a => w.Delivers parse a) w) :
    Encodes parse (surfaceOf w.log) w.log.length := by
  refine h.invariant (I := fun w => Encodes parse (surfaceOf w.log) w.log.length) ?_ ?_
  · rintro _ ⟨log, success, sound, rfl⟩
    exact sound.encodes
  · rintro w a w' _ encodes ⟨hs, writes, valid, small⟩ delivers
    cases a with
    | call c =>
        obtain ⟨events, hl, _, continues⟩ := (World.Quiet.call hs writes).told encodes valid
        rw [hl]
        exact continues.encodes
    | advance i o =>
        obtain ⟨d, a, m, _, _, _, _, hl, continues⟩ := World.advance_told hs writes delivers encodes valid small
        rw [hl]
        exact continues.encodes

theorem conversing_reached (h : (transcriptSystem (Sound parse)).Reached
    (fun w a => w.Delivers parse a ∧ w.MakesAlone a) w) : w.Conversing := by
  refine h.invariant (I := fun w => w.Conversing) ?_ ?_
  · rintro _ ⟨log, success, sound, rfl⟩
    exact ⟨World.owned_fresh log success, sound.converses, fun d hd => absurd hd List.not_mem_nil⟩
  · rintro w a w' reached inv ⟨hs, writes, valid, small⟩ ⟨delivers, alone⟩
    have encodes := encodes_reached (reached.mono fun _ _ ok => ok.1)
    cases a with
    | call c => exact inv.call hs writes alone encodes valid
    | advance i o =>
        obtain ⟨d, a, m, hd, _, moved, grown, hl, continues⟩ :=
          World.advance_told hs writes delivers encodes valid small
        exact inv.advance hs hd moved grown hl continues

end

/-- The drive is about to send its request, or waits for its stream. -/
def Phase.Sends : Phase → Prop
  | .requesting _ | .streaming _ => True
  | _ => False

theorem Phase.sends_of_streaming {p : Phase} (h : (p matches .streaming _) = true) : p.Sends := by
  cases p <;> trivial

/-- The messages become a request on every route of the kind and with every valid effort. -/
def Sendable (parse : String → Option Json) (route : Llm.CompatModel → Prop)
    (messages : List Llm.LlmMessage) : Prop :=
  ∀ options config model, route model → Llm.EffortValid options model → options.messages = messages →
    Llm.Builds parse options config model

section
variable {parse : String → Option Json} {log : Log}

theorem Encodes.encodable (h : Encodes parse (surfaceOf log) log.length) :
    ∀ m ∈ transcript log, m.Encodable parse := by
  intro x hx
  obtain ⟨m, hm, rfl⟩ := List.mem_map.mp hx
  by_cases system : m.role = .system
  · intro ha
    simp [Llm.toLlmMessage, Llm.roleOf, system] at ha
  · exact h.calls m (List.mem_filter.mpr ⟨hm, by simpa using system⟩)

theorem Encodes.sendable (h : Encodes parse (surfaceOf log) log.length) :
    Sendable parse (·.inHistory = false) (transcript log) := by
  rintro options config model route effort messages
  refine Llm.builds_iff.mpr ⟨effort, ?_, ?_⟩
  · rw [messages]
    exact h.encodable
  · rw [route]
    exact Llm.inTurn_plain

theorem Converses.texts_transcript (h : Converses (surfaceOf log)) :
    ∀ m ∈ transcript log, m.role = .system → Llm.joinText m ≠ "" := by
  intro x hx system
  obtain ⟨m, hm, rfl⟩ := List.mem_map.mp hx
  refine h.texts m hm ?_
  cases hr : m.role with
  | system => rfl
  | _ => simp [Llm.toLlmMessage, Llm.roleOf, hr] at system

theorem Sound.sendable (h : Sound parse log) {more : List Llm.LlmMessage}
    (heard : Heard (rolesOf (surfaceOf log) ++ Llm.spokenRoles more)) (user : ∀ m ∈ more, m.role = .user) :
    Sendable parse (fun _ => True) (transcript log ++ more) := by
  rintro options config model - effort messages
  have encodable : ∀ m ∈ options.messages, m.Encodable parse := by
    rw [messages]
    intro m hm
    rcases List.mem_append.mp hm with hold | hnew
    · exact h.encodes.encodable m hold
    · intro ha
      rw [user m hnew] at ha
      cases ha
  refine Llm.builds_iff.mpr ⟨effort, encodable, ?_⟩
  cases model.inHistory with
  | false => exact Llm.inTurn_plain
  | true =>
      have roles : Llm.spokenRoles options.messages = rolesOf (surfaceOf log) ++ Llm.spokenRoles more := by
        rw [messages, ← spokenRoles_transcript]
        simp [Llm.spokenRoles]
      have users : ∀ r ∈ Llm.spokenRoles more, r = .user := by
        intro r hr
        obtain ⟨m, hm, rfl⟩ := List.mem_map.mp (List.mem_of_mem_filter hr)
        exact user m hm
      refine Llm.inTurn_answering (by simp) ?_ ?_ ?_
      · rw [roles, Option.toList_none, List.nil_append]
        clear roles heard
        generalize Llm.spokenRoles more = rs at users
        induction rs using List.reverseRecOn with
        | nil => simpa using h.converses.answering
        | append_singleton rs r ih =>
            rw [← List.append_assoc, users r (by simp)]
            exact answering_user (ih fun r hr => users r (by simp [hr]))
      · rw [roles]
        exact heard
      · intro m hm system
        rw [messages] at hm
        rcases List.mem_append.mp hm with hold | hnew
        · exact h.converses.texts_transcript m hold system
        · rw [user m hnew] at system
          cases system

end

/-- Where the arguments of every committed call parse to an object, each reachable
transcript can be sent on the routes with one system prompt; where no driver is made
beside an unfinished drive, each request of a drive, and the next one of an idle
session, can be sent on every route. -/
theorem transcript_encodable {parse : String → Option Json} {w : World}
    (h : (transcriptSystem (Sound parse)).Reached (fun w a => w.Delivers parse a) w) :
    Sendable parse (·.inHistory = false) (transcript w.log) ∧
    ((transcriptSystem (Sound parse)).Reached (fun w a => w.Delivers parse a ∧ w.MakesAlone a) w →
      Sound parse w.log ∧
      (∀ d ∈ w.drives, d.phase.Sends → Sendable parse (fun _ => True) (transcript w.log)) ∧
      ∀ message, message.role = .user → Sendable parse (fun _ => True) (transcript w.log ++ [message])) := by
  refine ⟨(encodes_reached h).sendable, fun alone => ?_⟩
  have conversing := conversing_reached alone
  have sound : Sound parse w.log := ⟨encodes_reached h, conversing.converses⟩
  refine ⟨sound, fun d hd sends => ?_, fun message user => ?_⟩
  · have heard : Heard (rolesOf (surfaceOf w.log)) := by
      have due := conversing.due d hd
      cases hp : d.phase <;> rw [hp] at due sends <;> first | exact sends.elim | exact due
    have all : Sendable parse (fun _ => True) (transcript w.log ++ []) :=
      sound.sendable (by simpa [Llm.spokenRoles] using heard) (by simp)
    rwa [List.append_nil] at all
  · refine sound.sendable ?_ (by simpa using user)
    simp [Llm.spokenRoles, user, Heard]

/-- The step of `transcriptSystem`, for the acts by which no event comes with the act. -/
def World.tell (w : World) (a : Act) : Option World :=
  match a with
  | .call (.append _) | .advance _ (.events _) => none
  | _ => (w.next a).filter fun w' => decide (Recorded w.log.length (w.appended w') ∧ w'.log.length ≤ 2 ^ 63)

theorem World.tell_step {ready : Log → Prop} {w w' : World} {a : Act} (h : w.tell a = some w') :
    (transcriptSystem ready).step w a w' := by
  have writes : w.Writes a ∧ (w.next a).filter (fun w' => decide (Recorded w.log.length (w.appended w') ∧
      w'.log.length ≤ 2 ^ 63)) = some w' := by
    unfold World.tell at h
    split at h
    · cases h
    · cases h
    · next call events =>
        refine ⟨?_, h⟩
        unfold World.Writes
        split
        · next e => exact absurd rfl (call e)
        · next i es => exact absurd rfl (events i es)
        · trivial
  obtain ⟨next, ok⟩ := Option.filter_eq_some_iff.mp writes.2
  obtain ⟨recorded, small⟩ := of_decide_eq_true ok
  exact ⟨next, writes.1, recorded, small⟩

/-- Parses the empty object, and rejects every text that is cut inside an object. -/
def parseEmpty (text : String) : Option Json := if text = "\x7b\x7d" then some (.obj []) else none

def delivers? (w : World) : Act → Bool
  | .advance i .ok => ((w.drives[i]?).bind fun d => d.phase.streamed).all fun acc =>
    (Llm.toolCallsOf (committedBlocks acc)).all fun call => call.arguments == "\x7b\x7d"
  | .call .create => w.drives.isEmpty
  | _ => true

theorem delivers_of_check {w : World} {a : Act} (h : delivers? w a = true) :
    w.Delivers parseEmpty a ∧ w.MakesAlone a := by
  cases a with
  | call c =>
      refine ⟨trivial, ?_⟩
      cases c with
      | create =>
          intro _ d hd
          rw [List.isEmpty_iff.mp h] at hd
          cases hd
      | _ => trivial
  | advance i o =>
      refine ⟨?_, trivial⟩
      cases o with
      | ok =>
          intro d hd acc hacc call hc
          have all : ((w.drives[i]?).bind fun d => d.phase.streamed).all (fun acc =>
              (Llm.toolCallsOf (committedBlocks acc)).all fun call => call.arguments == "\x7b\x7d") = true := h
          rw [Option.mem_def.mp hd, Option.bind_some, Option.mem_def.mp hacc] at all
          have text : call.arguments = "\x7b\x7d" := by simpa using List.all_eq_true.mp all call hc
          exact ⟨[], by rw [parseEmpty, if_pos text]⟩
      | _ => trivial

/-- A step whose call has no arguments, and the request after its result. -/
theorem transcript_encodable_answered : ∃ w,
    (transcriptSystem (Sound parseEmpty)).Reached (fun w a => w.Delivers parseEmpty a) w ∧
    (transcript w.log).map LlmMessage.role = [.user, .assistant, .user] ∧
    (∃ d ∈ w.drives, d.phase.Sends) ∧
    Sendable parseEmpty (·.inHistory = false) (transcript w.log) ∧
    ((transcriptSystem (Sound parseEmpty)).Reached
        (fun w a => w.Delivers parseEmpty a ∧ w.MakesAlone a) w →
      Sound parseEmpty w.log ∧
      (∀ d ∈ w.drives, d.phase.Sends → Sendable parseEmpty (fun _ => True) (transcript w.log)) ∧
      ∀ message, message.role = .user → Sendable parseEmpty (fun _ => True) (transcript w.log ++ [message])) := by
  have played : (System.follow World.tell delivers? (World.fresh [] false)
      ([.call .create, .call (.followup (queued "m1") {} false)] ++ advances 0 (toStream "m1" true) ++
        advances 0 [.chunks [.blockEnd 0 (.toolCall ⟨"c1", "list", "\x7b\x7d"⟩), .finish .toolCalls none none],
          .ok, .ok, .ok, .result { content := .null }, .ok, .ok, .ok, .ok, .ok, .ok] ++
        advances 0 [.context [], .decision false [], .ok, .ok, .ok, .ok, .ok])).any (fun w =>
          decide ((transcript w.log).map LlmMessage.role = [.user, .assistant, .user] ∧
            w.drives.any fun d => d.phase matches .streaming _)) = true := by decide +kernel
  obtain ⟨w, hw, hplayed⟩ := (Option.any_eq_true _ _).mp played
  obtain ⟨roles, sends⟩ := of_decide_eq_true hplayed
  have reached := System.follow_reached (S := transcriptSystem (Sound parseEmpty))
    (P := fun w a => w.Delivers parseEmpty a ∧ w.MakesAlone a) (fun _ _ _ h => World.tell_step h)
    (fun _ _ h => delivers_of_check h) hw (.start ⟨[], false, sound_nil parseEmpty, rfl⟩)
  have delivered : (transcriptSystem (Sound parseEmpty)).Reached (fun w a => w.Delivers parseEmpty a) w :=
    reached.mono fun _ _ ok => ok.1
  obtain ⟨d, hd, phase⟩ := List.any_eq_true.mp sends
  exact ⟨w, delivered, roles, ⟨d, hd, Phase.sends_of_streaming phase⟩, transcript_encodable delivered⟩

/-- A stream is interrupted inside the arguments of a call; what it delivered is
committed, and no request can be built over it. -/
theorem transcript_stuck : ¬ ∀ parse w, (transcriptSystem (Sound parse)).Reached (fun _ _ => True) w →
    Sendable parse (·.inHistory = false) (transcript w.log) := by
  intro sendable
  have played : (System.follow World.tell (fun _ _ => true) (World.fresh [] false)
      ([.call .create, .call (.followup (queued "m1") {} false)] ++ advances 0 (toStream "m1" true) ++
        [.call (.cancel false none)] ++
        advances 0 [.chunks [.toolCallDelta 0 "c1" "read" "\x7b\"path\":", .finish .aborted none none], .ok,
          .ok, .ok, .ok, .ok, .ok])).any (fun w =>
          (Llm.buildMessagesRequest parseEmpty { messages := transcript w.log } {} {}).toOption.isNone) =
      true := by decide +kernel
  obtain ⟨w, hw, hplayed⟩ := (Option.any_eq_true _ _).mp played
  have reached := System.follow_reached (S := transcriptSystem (Sound parseEmpty)) (P := fun _ _ => True)
    (fun _ _ _ h => World.tell_step h) (fun _ _ _ => trivial) hw (.start ⟨[], false, sound_nil parseEmpty, rfl⟩)
  obtain ⟨request, built⟩ := sendable parseEmpty w reached { messages := transcript w.log } {} {} rfl
    (by simp [Llm.EffortValid, Llm.validEffort]) rfl
  rw [built] at hplayed
  cases hplayed

end Araya.Agent
