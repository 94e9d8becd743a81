import Araya.Llm.Stream
import Araya.Session.Validate
import Mathlib.Data.List.Chain

/-!
The request of the Messages protocol. `build_messages_request` reads the model
messages once: it merges messages of one role, parses the arguments of every
tool call, and holds a system update back until a user turn precedes it. What it
refuses is settled by the messages alone, whatever it has assembled before.
-/

namespace Araya.Llm

structure ToolSchema where
  name : String
  description : String
  parameters : Json

/-- `generate_options`; a temperature is the bits of its double. -/
structure GenerateOptions where
  model : String := ""
  reasoningEffort : String := ""
  messages : List LlmMessage := []
  system : String := ""
  tools : List ToolSchema := []
  temperature : Option UInt64 := none
  maxTokens : Option Nat := none
  stop : List String := []

structure CompatModel where
  defaultMaxTokens : Nat := 0
  defaultReasoningEffort : Option String := none
  systemPromptUpdate : Option String := none

structure CompatConfig where
  fallbackMaxTokens : Nat := 4096
  thinkingBudgetTokens : Nat := 0

def invalidRequest (what : String) : LlmFailure := { code := .invalidRequest, message := what }

def blockText : ContentBlock → String
  | .text text => text
  | .reasoning _ | .toolCall _ | .toolResult _ _ _ | .image _ _ _ => ""

def joinText (message : LlmMessage) : String := String.join (message.content.map blockText)

/-- The signature of the content block at `index`, from the replay state. -/
def replaySignature (message : LlmMessage) (index : Nat) : Option String :=
  (message.replayState.bind Json.ifObject).bind fun o =>
    if Json.stringField o "format" = some "messages" then
      (Json.arrayField o "signatures").bind fun signatures => (signatures[index]?).bind Json.ifString
    else none

/-- The text that a block of a tool result holds. -/
def innerText (inner : Json) : String :=
  match inner.ifObject with
  | none => ""
  | some o => if Json.stringField o "type" = some "text" then getString o "text" else ""

def toolResultContent (content : Json) : Json :=
  let text := match content with
    | .arr items => String.join (items.map innerText)
    | .str s => s
    | .null | .bool _ | .int _ | .uint _ | .double _ | .obj _ => ""
  .obj [("type", .str "text"), ("text", .str text)]

section
variable (parse : String → Option Json)

/-- The object that the arguments of a call are parsed to. -/
def toolInput (call : ToolCallBlock) : Except LlmFailure Json :=
  match parse call.arguments with
  | none => .error (invalidRequest "Messages tool input is invalid JSON")
  | some input =>
    if input.ifObject.isSome then .ok input
    else .error (invalidRequest "Messages tool input must be an object")

def assistantBlock (message : LlmMessage) : ContentBlock × Nat → Except LlmFailure (List Json)
  | (.text text, _) => .ok [.obj [("type", .str "text"), ("text", .str text)]]
  | (.reasoning text, index) =>
    .ok [.obj ([("type", .str "thinking"), ("thinking", .str text)] ++
      ((replaySignature message index).map fun s => ("signature", .str s)).toList)]
  | (.toolCall call, _) =>
    (toolInput parse call).map fun input =>
      [.obj [("type", .str "tool_use"), ("id", .str call.id), ("name", .str call.name), ("input", input)]]
  | (.toolResult _ _ _, _) | (.image _ _ _, _) => .ok []

def assistantBlocks (message : LlmMessage) : Except LlmFailure (List Json) :=
  (message.content.zipIdx.mapM (assistantBlock parse message)).map List.flatten

def userBlock : ContentBlock → List Json
  | .text text => if text.isEmpty then [] else [.obj [("type", .str "text"), ("text", .str text)]]
  | .image _ mediaType data =>
    [.obj [("type", .str "image"), ("source", .obj [("type", .str "base64"),
      ("media_type", .str mediaType), ("data", .str data)])]]
  | .toolResult toolCallId content isError =>
    [.obj ([("type", .str "tool_result"), ("tool_use_id", .str toolCallId),
      ("content", .arr [toolResultContent content])] ++
      if isError then [("is_error", .bool true)] else [])]
  | .reasoning _ | .toolCall _ => []

def userBlocks (message : LlmMessage) : List Json := message.content.flatMap userBlock

def roleName : MessageRole → String
  | .assistant => "assistant"
  | .user => "user"
  | .system => "system"

def validEffort (effort : String) : Bool :=
  effort == "off" || effort == "low" || effort == "high" || effort == "max"

/-- An entry of the request's `messages`. -/
structure RequestMessage where
  role : String
  content : List Json

/-- The locals of the loop over the messages. -/
structure Assembly where
  messages : List RequestMessage := []
  historySystem : String := ""
  systemUpdates : List RequestMessage := []

def Assembly.lastRole (s : Assembly) : Option String := s.messages.getLast?.map RequestMessage.role

def flushSystemUpdates (s : Assembly) : Except LlmFailure Assembly :=
  if s.systemUpdates.isEmpty then .ok s
  else if s.lastRole = some "user" then
    .ok { s with messages := s.messages ++ s.systemUpdates, systemUpdates := [] }
  else .error (invalidRequest "Messages system update without a preceding user turn")

/-- The content goes to the last entry when that is of the same role. -/
def Assembly.add (s : Assembly) (role : String) (content : List Json) : Assembly :=
  match s.messages.getLast? with
  | some last =>
    if last.role = role then
      { s with messages := s.messages.dropLast ++ [{ role, content := last.content ++ content }] }
    else { s with messages := s.messages ++ [{ role, content }] }
  | none => { s with messages := s.messages ++ [{ role, content }] }

/-- The body of the loop. -/
def addMessage (inHistory : Bool) (s : Assembly) (message : LlmMessage) : Except LlmFailure Assembly :=
  match message.role with
  | .system =>
    let text := joinText message
    if inHistory && !s.messages.isEmpty then
      if text.isEmpty then .error (invalidRequest "Messages in-history system update is empty")
      else .ok { s with systemUpdates := s.systemUpdates ++
        [{ role := "system", content := [.obj [("type", .str "text"), ("text", .str text)]] }] }
    else .ok { s with historySystem := text }
  | .assistant => do
    let s ← flushSystemUpdates s
    let content ← assistantBlocks parse message
    .ok (s.add (roleName .assistant) content)
  | .user => .ok (s.add (roleName .user) (userBlocks message))

def assemble (inHistory : Bool) (messages : List LlmMessage) (s : Assembly) : Except LlmFailure Assembly := do
  let s ← messages.foldlM (addMessage parse inHistory) s
  flushSystemUpdates s

def unsupportedEffort (effort : String) : LlmFailure :=
  invalidRequest ("Messages does not support reasoning effort " ++ effort)

def requestEffort (options : GenerateOptions) (model : CompatModel) : Except LlmFailure String :=
  if options.reasoningEffort.isEmpty then
    let effort := model.defaultReasoningEffort.getD "high"
    if validEffort effort then .ok effort else .error (unsupportedEffort effort)
  else if validEffort options.reasoningEffort then .ok options.reasoningEffort
  else .error (unsupportedEffort options.reasoningEffort)

def requestSystem (system historySystem : String) : String :=
  if historySystem.isEmpty then system
  else if system.isEmpty then historySystem
  else system ++ "\n\n" ++ historySystem

def requestMaxTokens (options : GenerateOptions) (config : CompatConfig) (model : CompatModel) : Nat :=
  match options.maxTokens with
  | some n => n
  | none => if model.defaultMaxTokens ≠ 0 then model.defaultMaxTokens else config.fallbackMaxTokens

def thinkingMembers (config : CompatConfig) (effort : String) : Json.Members :=
  let type := Json.str (if effort = "off" then "disabled" else "enabled")
  if 0 < config.thinkingBudgetTokens then
    [("thinking", .obj (("type", type) ::
      if effort = "off" then [] else [("budget_tokens", .uint config.thinkingBudgetTokens)]))]
  else
    ("thinking", .obj [("type", type)]) ::
      if effort = "off" then [] else [("output_config", .obj [("effort", .str effort)])]

def RequestMessage.toJson (m : RequestMessage) : Json :=
  .obj [("role", .str m.role), ("content", .arr m.content)]

def ToolSchema.toJson (tool : ToolSchema) : Json :=
  .obj [("name", .str tool.name), ("description", .str tool.description), ("input_schema", tool.parameters)]

def CompatModel.inHistory (model : CompatModel) : Bool := model.systemPromptUpdate == some "in-history"

def buildMessagesRequest (options : GenerateOptions) (config : CompatConfig) (model : CompatModel) :
    Except LlmFailure Json := do
  let assembly ← assemble parse model.inHistory options.messages {}
  let effort ← requestEffort options model
  let system := requestSystem options.system assembly.historySystem
  .ok (.obj ([("model", .str options.model), ("stream", .bool true),
    ("max_tokens", .uint (requestMaxTokens options config model)),
    ("messages", .arr (assembly.messages.map RequestMessage.toJson))] ++
    (if system.isEmpty then [] else [("system", .str system)]) ++
    thinkingMembers config effort ++
    (options.temperature.map fun t => ("temperature", .double t)).toList ++
    (if options.stop.isEmpty then [] else [("stop_sequences", .arr (options.stop.map .str))]) ++
    if options.tools.isEmpty then [] else [("tools", .arr (options.tools.map ToolSchema.toJson))]))

end

/-! What the builder accepts -/

/-- The arguments of the call are the text of an object. -/
def ToolCallBlock.Parses (parse : String → Option Json) (call : ToolCallBlock) : Prop :=
  ∃ input, parse call.arguments = some (.obj input)

/-- A message the builder can encode: the calls of an assistant message parse. -/
def LlmMessage.Encodable (parse : String → Option Json) (message : LlmMessage) : Prop :=
  message.role = .assistant → ∀ call ∈ toolCallsOf message.content, call.Parses parse

/-- Over the messages still to come, no system update is left without a user turn
before it: `last` is the role of the last entry, `pending` whether an update waits. -/
def InTurn (inHistory : Bool) : Option MessageRole → Bool → List LlmMessage → Prop
  | last, pending, [] => pending = true → last = some .user
  | last, pending, message :: rest =>
    match message.role with
    | .system =>
      if inHistory && last.isSome then joinText message ≠ "" ∧ InTurn inHistory last true rest
      else InTurn inHistory last pending rest
    | .assistant => (pending = true → last = some .user) ∧ InTurn inHistory (some .assistant) false rest
    | .user => InTurn inHistory (some .user) pending rest

/-- The assembly has `last` as its last role, and updates exactly when `pending`. -/
structure Assembly.Stands (s : Assembly) (last : Option MessageRole) (pending : Bool) : Prop where
  role : s.lastRole = last.map roleName
  updates : s.systemUpdates.isEmpty = !pending
  spoken : last ≠ some .system

section
variable {parse : String → Option Json} {s s' : Assembly} {last : Option MessageRole} {pending : Bool}

theorem assembly_stands : ({} : Assembly).Stands none false := ⟨rfl, rfl, by simp⟩

theorem toolInput_ok {call : ToolCallBlock} : (∃ input, toolInput parse call = .ok input) ↔ call.Parses parse := by
  unfold toolInput ToolCallBlock.Parses
  cases parse call.arguments with
  | none => simp
  | some input => cases input <;> simp [Json.ifObject]

theorem assistantBlock_ok (message : LlmMessage) (b : ContentBlock) (index : Nat) :
    (∃ out, assistantBlock parse message (b, index) = .ok out) ↔
      ∀ call ∈ toolCallsOf [b], call.Parses parse := by
  cases b with
  | toolCall call =>
      have single : toolCallsOf [.toolCall call] = [call] := rfl
      rw [single, List.forall_mem_singleton, ← toolInput_ok, assistantBlock]
      cases toolInput parse call with
      | error e => simp [Except.map]
      | ok input => simp [Except.map]
  | text | reasoning | toolResult | image => simp [assistantBlock, toolCallsOf]

theorem mapM_assistantBlock_ok (message : LlmMessage) (content : List ContentBlock) (index : Nat) :
    (∃ out, (content.zipIdx index).mapM (assistantBlock parse message) = .ok out) ↔
      ∀ call ∈ toolCallsOf content, call.Parses parse := by
  induction content generalizing index with
  | nil => simp [toolCallsOf, pure, Except.pure]
  | cons b bs ih =>
      have calls : toolCallsOf (b :: bs) = toolCallsOf [b] ++ toolCallsOf bs := toolCallsOf_append [b] bs
      rw [calls, List.forall_mem_append, ← assistantBlock_ok message b index, ← ih (index + 1),
        List.zipIdx_cons, List.mapM_cons]
      cases assistantBlock parse message (b, index) with
      | error e => simp [bind, Except.bind]
      | ok out =>
          cases (bs.zipIdx (index + 1)).mapM (assistantBlock parse message) with
          | error e => simp [bind, Except.bind]
          | ok outs => simp [bind, Except.bind, pure, Except.pure]

theorem assistantBlocks_ok (message : LlmMessage) :
    (∃ out, assistantBlocks parse message = .ok out) ↔
      ∀ call ∈ toolCallsOf message.content, call.Parses parse := by
  rw [← mapM_assistantBlock_ok message message.content 0, assistantBlocks]
  cases message.content.zipIdx.mapM (assistantBlock parse message) with
  | error e => simp [Except.map]
  | ok out => simp [Except.map]

theorem roleName_user {last : Option MessageRole} : last.map roleName = some "user" ↔ last = some .user := by
  rcases last with _ | _ | _ | _ <;> simp [roleName]

/-- A flush needs a user turn when an update waits, and leaves none waiting. -/
theorem flush_ok (h : s.Stands last pending) :
    (∃ s', flushSystemUpdates s = .ok s') ↔ (pending = true → last = some .user) := by
  unfold flushSystemUpdates
  rw [h.updates, h.role]
  cases pending with
  | false => simp
  | true =>
      by_cases hu : last.map roleName = some "user"
      · simp [roleName_user.mp hu, roleName]
      · simp [hu, mt roleName_user.mpr hu]

theorem flush_updates (h : flushSystemUpdates s = .ok s') : s'.systemUpdates = [] := by
  unfold flushSystemUpdates at h
  split at h
  · next he => cases h; exact List.isEmpty_iff.mp he
  · split at h <;> cases h
    rfl

theorem Assembly.lastRole_add (s : Assembly) (role : String) (content : List Json) :
    (s.add role content).lastRole = some role := by
  unfold Assembly.add
  split
  · split <;> simp [Assembly.lastRole]
  · simp [Assembly.lastRole]

theorem Assembly.systemUpdates_add (s : Assembly) (role : String) (content : List Json) :
    (s.add role content).systemUpdates = s.systemUpdates := by
  unfold Assembly.add
  split
  · split <;> rfl
  · rfl

theorem Assembly.Stands.nonempty (h : s.Stands last pending) : (!s.messages.isEmpty) = last.isSome := by
  have role := h.role
  cases hm : s.messages with
  | nil =>
      simp only [Assembly.lastRole, hm, List.getLast?_nil, Option.map_none] at role
      simp [Option.map_eq_none_iff.mp role.symm]
  | cons m ms =>
      simp only [Assembly.lastRole, hm, List.getLast?_cons, Option.map_some] at role
      obtain ⟨r, hr, _⟩ := Option.map_eq_some_iff.mp role.symm
      simp [hr]

theorem Assembly.Stands.add (h : s.Stands last pending) {role : MessageRole} (spoken : role ≠ .system)
    (content : List Json) : (s.add (roleName role) content).Stands (some role) pending :=
  ⟨s.lastRole_add _ _, by rw [s.systemUpdates_add]; exact h.updates, by simpa using spoken⟩

theorem bind_ok_iff {ε α β : Type} {x : Except ε α} {f : α → Except ε β} :
    (∃ b, (x >>= f) = .ok b) ↔ ∃ a, x = .ok a ∧ ∃ b, f a = .ok b := by
  cases x with
  | error e => simp [bind, Except.bind]
  | ok a => simp [bind, Except.bind]

theorem addMessage_assistant {inHistory : Bool} (h : s.Stands last pending) {message : LlmMessage}
    (role : message.role = .assistant) : (∃ s', addMessage parse inHistory s message = .ok s') ↔
      message.Encodable parse ∧ (pending = true → last = some .user) := by
  have calls : message.Encodable parse ↔ ∃ out, assistantBlocks parse message = .ok out :=
    ⟨fun he => (assistantBlocks_ok message).mpr (he role), fun ho _ => (assistantBlocks_ok message).mp ho⟩
  rw [calls, ← flush_ok h]
  simp only [addMessage, role, bind_ok_iff]
  constructor
  · rintro ⟨s', hs, content, hc, _⟩
    exact ⟨⟨content, hc⟩, s', hs⟩
  · rintro ⟨⟨content, hc⟩, s', hs⟩
    exact ⟨s', hs, content, hc, _, rfl⟩

theorem addMessage_assistant_stands {inHistory : Bool} {message : LlmMessage}
    (role : message.role = .assistant) (hs : addMessage parse inHistory s message = .ok s') :
    s'.Stands (some .assistant) false := by
  simp only [addMessage, role] at hs
  obtain ⟨flushed, hf, hs⟩ := Sessions.except_bind hs
  obtain ⟨content, _, hs⟩ := Sessions.except_bind hs
  cases hs
  exact ⟨flushed.lastRole_add _ _, by rw [flushed.systemUpdates_add, flush_updates hf]; rfl, by simp⟩

theorem assemble_cons {inHistory : Bool} (message : LlmMessage) (rest : List LlmMessage) :
    (∃ s', assemble parse inHistory (message :: rest) s = .ok s') ↔
      ∃ s', addMessage parse inHistory s message = .ok s' ∧ ∃ s'', assemble parse inHistory rest s' = .ok s'' := by
  simp only [assemble, List.foldlM_cons, bind_assoc]
  exact bind_ok_iff

/-- The messages are assembled exactly when each of them can be encoded and no
update is left without its user turn. -/
theorem assemble_ok {inHistory : Bool} {messages : List LlmMessage} (h : s.Stands last pending) :
    (∃ s', assemble parse inHistory messages s = .ok s') ↔
      (∀ m ∈ messages, m.Encodable parse) ∧ InTurn inHistory last pending messages := by
  induction messages generalizing s last pending with
  | nil =>
      simp only [assemble, List.foldlM_nil, InTurn, List.not_mem_nil, false_imp_iff, implies_true, true_and]
      exact flush_ok h
  | cons message rest ih =>
      rw [assemble_cons, List.forall_mem_cons, InTurn]
      cases role : message.role with
      | user =>
          have encodable : message.Encodable parse := fun ha => by rw [role] at ha; cases ha
          simp only [addMessage, role, Except.ok.injEq, exists_eq_left', encodable, true_and]
          exact ih (h.add (by simp) _)
      | assistant =>
          constructor
          · rintro ⟨s', hs, hrest⟩
            obtain ⟨encodable, flushed⟩ := (addMessage_assistant h role).mp ⟨s', hs⟩
            obtain ⟨others, inTurn⟩ := (ih (addMessage_assistant_stands role hs)).mp hrest
            exact ⟨⟨encodable, others⟩, flushed, inTurn⟩
          · rintro ⟨⟨encodable, others⟩, flushed, inTurn⟩
            obtain ⟨s', hs⟩ : ∃ s', addMessage parse inHistory s message = .ok s' :=
              (addMessage_assistant h role).mpr ⟨encodable, flushed⟩
            exact ⟨s', hs, (ih (addMessage_assistant_stands role hs)).mpr ⟨others, inTurn⟩⟩
      | system =>
          have encodable : message.Encodable parse := fun ha => by rw [role] at ha; cases ha
          simp only [addMessage, role, h.nonempty, encodable, true_and]
          by_cases update : (inHistory && last.isSome) = true
          · by_cases text : joinText message = ""
            · simp [update, text]
            · have waits : ∀ m : RequestMessage, ({ s with systemUpdates := s.systemUpdates ++ [m] } :
                  Assembly).Stands last true := fun m => ⟨h.role, by simp, h.spoken⟩
              simp only [update, if_true, String.isEmpty_iff, text, if_false, Except.ok.injEq,
                exists_eq_left', ne_eq, not_false_eq_true, true_and]
              exact ih (waits _)
          · simp only [update, if_false, Except.ok.injEq, exists_eq_left', Bool.false_eq_true]
            exact ih ⟨h.role, h.updates, h.spoken⟩

end

/-! What the builder accepts of a transcript -/

def Builds (parse : String → Option Json) (options : GenerateOptions) (config : CompatConfig)
    (model : CompatModel) : Prop :=
  ∃ request, buildMessagesRequest parse options config model = .ok request

/-- The effort the request would ask for is one the protocol has. -/
def EffortValid (options : GenerateOptions) (model : CompatModel) : Prop :=
  validEffort (if options.reasoningEffort.isEmpty then model.defaultReasoningEffort.getD "high"
    else options.reasoningEffort) = true

instance (options : GenerateOptions) (model : CompatModel) : Decidable (EffortValid options model) :=
  inferInstanceAs (Decidable (_ = _))

section
variable {parse : String → Option Json} {options : GenerateOptions} {config : CompatConfig}
  {model : CompatModel}

theorem requestEffort_ok : (∃ effort, requestEffort options model = .ok effort) ↔ EffortValid options model := by
  unfold requestEffort EffortValid
  split
  · simp only
    split <;> simp_all
  · split <;> simp_all

/-- A request is built exactly when its effort is valid, the calls of its assistant
messages parse, and each system update in its history stands after a user turn. -/
theorem builds_iff : Builds parse options config model ↔ EffortValid options model ∧
    (∀ m ∈ options.messages, m.Encodable parse) ∧ InTurn model.inHistory none false options.messages := by
  rw [← requestEffort_ok, ← assemble_ok assembly_stands]
  simp only [Builds, buildMessagesRequest, bind_ok_iff, Except.ok.injEq, exists_eq', and_true]
  constructor
  · rintro ⟨assembly, ha, effort, he⟩
    exact ⟨⟨effort, he⟩, assembly, ha⟩
  · rintro ⟨⟨effort, he⟩, assembly, ha⟩
    exact ⟨assembly, ha, effort, he⟩

end

/-- The roles of the turns, without the system prompts between them. -/
def spokenRoles (messages : List LlmMessage) : List MessageRole :=
  (messages.map LlmMessage.role).filter (· ≠ .system)

/-- Every assistant turn answers a user turn. -/
def Answering (roles : List MessageRole) : Prop :=
  roles.IsChain fun before after => after = .assistant → before = .user

section
variable {last : Option MessageRole} {pending : Bool} {messages : List LlmMessage}

/-- Without updates in the history nothing waits for a user turn. -/
theorem inTurn_plain : InTurn false last false messages := by
  induction messages generalizing last with
  | nil => simp [InTurn]
  | cons message rest ih =>
      rw [InTurn]
      cases message.role with
      | system => simpa using ih
      | assistant => exact ⟨by simp, ih⟩
      | user => exact ih

/-- Where every assistant turn answers a user turn and the last turn is a user's, no
update is left alone. -/
theorem inTurn_answering (waits : pending = true → last.isSome = true)
    (answering : Answering (last.toList ++ spokenRoles messages))
    (ends : (last.toList ++ spokenRoles messages).getLast? = some .user)
    (texts : ∀ m ∈ messages, m.role = .system → joinText m ≠ "") : InTurn true last pending messages := by
  induction messages generalizing last pending with
  | nil =>
      intro hp
      obtain ⟨r, rfl⟩ := Option.isSome_iff_exists.mp (waits hp)
      simpa [spokenRoles] using ends
  | cons message rest ih =>
      have texts' := fun m hm => texts m (List.mem_cons_of_mem _ hm)
      rw [InTurn]
      cases role : message.role with
      | system =>
          have same : spokenRoles (message :: rest) = spokenRoles rest := by simp [spokenRoles, role]
          rw [same] at answering ends
          simp only [Bool.true_and]
          split
          · next hs => exact ⟨texts message List.mem_cons_self role, ih (fun _ => hs) answering ends texts'⟩
          · exact ih waits answering ends texts'
      | assistant =>
          have next : spokenRoles (message :: rest) = .assistant :: spokenRoles rest := by
            simp [spokenRoles, role]
          rw [next] at answering ends
          refine ⟨fun hp => ?_, ih (by simp) ?_ ?_ texts'⟩
          · obtain ⟨r, rfl⟩ := Option.isSome_iff_exists.mp (waits hp)
            exact congrArg some ((List.isChain_cons_cons.mp answering).1 rfl)
          · exact (List.isChain_append.mp answering).2.1
          · simpa using ends
      | user =>
          have next : spokenRoles (message :: rest) = .user :: spokenRoles rest := by simp [spokenRoles, role]
          rw [next] at answering ends
          refine ih (by simp) ?_ ?_ texts'
          · exact (List.isChain_append.mp answering).2.1
          · simpa using ends

end
end Araya.Llm
