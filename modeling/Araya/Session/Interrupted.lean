import Araya.Llm.Bridge
import Araya.Session.Firehose

/-!
The repair of interrupted turns against the calls it is meant to close. The
repair looks for a call under a member that the block encoder never writes: over
messages of the encoder it adds nothing, so a log is complete after the repair
just when it was before.
-/

namespace Araya.Sessions
open Llm SessionStore

/-! The calls of a log -/

theorem mem_foldl_insert {log : List String} {s : SortedSet String} {c : String} :
    c ∈ log.foldl SortedSet.insert s ↔ c ∈ log ∨ c ∈ s := by
  induction log generalizing s with
  | nil => simp
  | cons a as ih =>
      simp only [List.foldl_cons, ih, SortedSet.mem_insert, List.mem_cons]
      tauto

theorem mem_foldl_erase {log : List String} {s : SortedSet String} {c : String} :
    c ∈ log.foldl SortedSet.erase s ↔ c ∈ s ∧ c ∉ log := by
  induction log generalizing s with
  | nil => simp
  | cons a as ih =>
      simp only [List.foldl_cons, ih, SortedSet.mem_erase, List.mem_cons]
      tauto

theorem mem_openCalls {log : List Event} {c : String} : c ∈ openCalls log ↔
    (∃ ev ∈ log, c ∈ requestedCalls ev) ∧ ∀ ev ∈ log, c ∉ closedCalls ev := by
  rw [openCalls, mem_foldl_erase, mem_foldl_insert]
  simp

theorem closers_mem {time : Int} {seq : Nat} {calls : List String} {ev : Event} :
    ev ∈ closers time seq calls → ∃ seq c, c ∈ calls ∧ ev = closer seq time c := by
  induction calls generalizing seq with
  | nil => intro h; cases h
  | cons c cs ih =>
      intro h
      rcases List.mem_cons.mp h with rfl | h
      · exact ⟨seq, c, List.mem_cons_self, rfl⟩
      · obtain ⟨n, d, hd, rfl⟩ := ih h
        exact ⟨n, d, List.mem_cons_of_mem _ hd, rfl⟩

theorem closer_mem (time : Int) (seq : Nat) {calls : List String} {c : String} (h : c ∈ calls) :
    ∃ n, closer n time c ∈ closers time seq calls := by
  induction calls generalizing seq with
  | nil => cases h
  | cons d ds ih =>
      rcases List.mem_cons.mp h with rfl | h
      · exact ⟨seq, List.mem_cons_self⟩
      · obtain ⟨n, hn⟩ := ih (seq + 1) h
        exact ⟨n, List.mem_cons_of_mem _ hn⟩

theorem closer_calls (seq : Nat) (time : Int) (c : String) :
    requestedCalls (closer seq time c) = [] ∧ closedCalls (closer seq time c) = [c] := by
  simp [requestedCalls, closedCalls, closer, answeredCall, Json.arrayField, Json.stringField]

/-- The repair leaves no call open that it sees. -/
theorem openCalls_repair (now : Int) (log : List Event) :
    openCalls (repairInterruptedTurns now log) = ∅ := by
  refine SortedSet.ext_mem fun c => ?_
  simp only [SortedSet.not_mem_empty, iff_false, mem_openCalls, not_and, not_forall, not_not]
  rintro ⟨ev, hev, hc⟩
  have requested : ∃ ev ∈ log, c ∈ requestedCalls ev := by
    rcases List.mem_append.mp hev with hev | hev
    · exact ⟨ev, hev, hc⟩
    · obtain ⟨seq, d, _, rfl⟩ := closers_mem hev
      rw [(closer_calls seq _ d).1] at hc
      cases hc
  by_cases closed : ∃ ev ∈ log, c ∈ closedCalls ev
  · obtain ⟨ev, hev, hc⟩ := closed
    exact ⟨ev, List.mem_append_left _ hev, hc⟩
  · have waiting : c ∈ openCalls log := by
      refine mem_openCalls.mpr ⟨requested, fun ev hev hc => closed ⟨ev, hev, hc⟩⟩
    obtain ⟨seq, hseq⟩ := closer_mem (lastTime now log) log.length (SortedSet.mem_def.mp waiting)
    exact ⟨_, List.mem_append_right _ hseq, by rw [(closer_calls seq _ c).2]; exact List.mem_singleton_self c⟩

theorem repair_of_closed {log : List Event} (now : Int) (h : openCalls log = ∅) :
    repairInterruptedTurns now log = log := by
  rw [repairInterruptedTurns, h]
  exact List.append_nil log

theorem repair_idempotent (now now' : Int) (log : List Event) :
    repairInterruptedTurns now' (repairInterruptedTurns now log) = repairInterruptedTurns now log :=
  repair_of_closed now' (openCalls_repair now log)

theorem openCalls_openingLog (now : Int) (options : CreateOptions) (seed : List Event) :
    openCalls (openingLog now options seed) = ∅ := by
  unfold openingLog
  simp only
  split
  · have marker : requestedCalls (endSeed now (repairInterruptedTurns now seed)
        options.inheritedEventCount) = [] ∧ closedCalls (endSeed now (repairInterruptedTurns now seed)
        options.inheritedEventCount) = [] := by
      simp [requestedCalls, closedCalls, endSeed]
    rw [← openCalls_repair now seed]
    simp only [openCalls, List.flatMap_append, List.flatMap_cons, List.flatMap_nil, marker,
      List.append_nil]
  · exact openCalls_repair now seed

/-! Messages of the encoder -/

/-- The blocks of an assistant message, as the bridge reads them. -/
def assistantBlocks (ev : Event) : List ContentBlock :=
  if ev.type = "assistant/message" then
    (((ev.data.ifObject.bind fun o => Json.objectField o "message").bind fun msg =>
      Json.find? msg "content").map blocksOfJson).getD []
  else []

def callIds (ev : Event) : List String := (toolCallsOf (assistantBlocks ev)).map (·.id)

/-- Every call of every assistant message has a result. -/
def Answered (log : List Event) : Prop :=
  ∀ ev ∈ log, ∀ c ∈ callIds ev, ∃ result ∈ log, c ∈ closedCalls result

instance (log : List Event) : Decidable (Answered log) :=
  inferInstanceAs (Decidable (∀ ev ∈ log, ∀ c ∈ callIds ev, ∃ result ∈ log, c ∈ closedCalls result))

/-- Each assistant message is one that the loop's encoder wrote, as it stands or
read back from its text. -/
def Written (log : List Event) : Prop :=
  ∀ ev ∈ log, ev.type = "assistant/message" → ∃ id blocks usage replay turn step interrupted,
    ev.data = assistantMessageData id blocks usage replay turn step interrupted ∨
      ev.data = (assistantMessageData id blocks usage replay turn step interrupted).normal

theorem message_written (id : String) (blocks : List ContentBlock) (usage : TokenUsage)
    (replay : Option Json) (turn step : Nat) (interrupted : Bool) :
    (assistantMessageData id blocks usage replay turn step interrupted).ifObject.bind
        (fun o => Json.objectField o "message") =
      some [("id", .str id), ("role", .str "assistant"), ("content", blocksToJson blocks)] := by
  simp [assistantMessageData, Json.objectField]

theorem requestedCall_block (b : ContentBlock) :
    requestedCall (blockToJson b) = none ∧ requestedCall (blockToJson b).normal = none := by
  have unnamed : ∀ o, blockToJson b = .obj o → Json.find? o "tool_call" = none := by
    intro o ho
    cases b with
    | toolResult toolCallId content isError => cases isError <;> cases ho <;> simp
    | _ => cases ho; simp
  obtain ⟨o, ho⟩ : ∃ o, blockToJson b = .obj o := by cases b <;> exact ⟨_, rfl⟩
  have hnone := unnamed o ho
  constructor
  · simp [requestedCall, ho, Json.objectField, hnone]
  · simp [requestedCall, ho, Json.objectField, hnone]

/-- The repair sees no call in a message of the encoder. -/
theorem requestedCalls_written {log : List Event} (h : Written log) {ev : Event} (hev : ev ∈ log) :
    requestedCalls ev = [] := by
  unfold requestedCalls
  split
  · next type =>
      obtain ⟨id, blocks, usage, replay, turn, step, interrupted, data⟩ := h ev hev type
      rcases data with data | data
      · rw [data, message_written]
        simp only [Option.bind_some, Json.arrayField, Json.find?_cons, blocksToJson]
        simp [requestedCall_block]
      · rw [data, Json.ifObject_normal]
        have message := message_written id blocks usage replay turn step interrupted
        obtain ⟨o, ho, hm⟩ := Option.bind_eq_some_iff.mp message
        simp only [ho, Option.map_some, Option.bind_some, Json.objectField_normalMembers, hm,
          Json.arrayField_normalMembers]
        simp only [Json.arrayField, Json.find?_cons, blocksToJson]
        simp [requestedCall_block, Json.normalItems_eq_map]
  · rfl

theorem openCalls_written {log : List Event} (h : Written log) : openCalls log = ∅ := by
  refine SortedSet.ext_mem fun c => ?_
  simp only [SortedSet.not_mem_empty, iff_false, mem_openCalls, not_and]
  rintro ⟨ev, hev, hc⟩
  rw [requestedCalls_written h hev] at hc
  cases hc

/-! What `prepare` makes of a log -/

theorem answered_mark {log : List Event} (mark : Event → Bool) :
    Answered (log.map fun ev => { ev with ignorable := mark ev }) ↔ Answered log := by
  simp only [Answered, List.mem_map, forall_exists_index, and_imp, forall_apply_eq_imp_iff₂,
    exists_exists_and_eq_and]
  exact Iff.rfl

theorem answered_marker {log : List Event} {now : Int} {seed : List Event} {inherited : Nat} :
    Answered (log ++ [endSeed now seed inherited]) ↔ Answered log := by
  have calls : callIds (endSeed now seed inherited) = [] := by
    simp [callIds, assistantBlocks, endSeed, toolCallsOf]
  have closed : closedCalls (endSeed now seed inherited) = [] := by simp [closedCalls, endSeed]
  simp [Answered, or_imp, forall_and, or_and_right, exists_or, calls, closed]

theorem written_mark {log : List Event} (mark : Event → Bool) (h : Written log) :
    Written (log.map fun ev => { ev with ignorable := mark ev }) := by
  intro ev hev
  obtain ⟨a, ha, rfl⟩ := List.mem_map.mp hev
  exact h a ha

section
variable {σ : Type} {st : SessionStore σ} {id : SessionId} {options : CreateOptions} {now : Int}
  {s : Session}

/-- The repair answers no call of the encoder. -/
theorem prepared_answered (prepared : st.prepared id options now = .ok s)
    (written : Written options.seed) : Answered s.log ↔ Answered options.seed := by
  obtain ⟨_, _, log⟩ := prepared_spec prepared
  have unrepaired := repair_of_closed now
    (openCalls_written (written_mark (fun ev => st.ignorable ev.type) written))
  rw [log, openingLog]
  simp only [unrepaired]
  split
  · rw [answered_marker]
    exact answered_mark _
  · exact answered_mark _

theorem repair_complete_iff (prepared : st.prepared id options now = .ok s)
    (written : Written options.seed) : (Answered s.log ↔ Answered options.seed) ∧
      ∀ later, repairInterruptedTurns later s.log = s.log := by
  refine ⟨prepared_answered prepared written, fun later => ?_⟩
  obtain ⟨_, _, log⟩ := prepared_spec prepared
  rw [log]
  exact repair_of_closed later (openCalls_openingLog now options _)

end

/-! A turn cut off in its tools, and one that is not -/

def askingMessage : Event where
  seq := 0
  type := "assistant/message"
  data := assistantMessageData "a0" [.text "looking", .toolCall ⟨"c1", "read", "\x7b\x7d"⟩] {} none 1 1 false

def toolAnswer : Event where
  seq := 1
  type := "tool/result"
  data := toolResultData "r1" "c1" (.arr []) false

theorem askingMessage_written {r : List Event} (h : ∀ ev ∈ r, ev.type ≠ "assistant/message") :
    Written (askingMessage :: r) := by
  intro ev hev type
  rcases List.mem_cons.mp hev with rfl | hev
  · exact ⟨_, _, _, _, _, _, _, .inl rfl⟩
  · exact absurd type (h ev hev)

theorem repair_complete_answered : ∃ s : Session,
    ({} : SessionStore Unit).prepared "s" { seed := [askingMessage, toolAnswer] } 0 = .ok s ∧
      Answered s.log ∧ ∀ later, repairInterruptedTurns later s.log = s.log := by
  have ok : (({} : SessionStore Unit).prepared "s" { seed := [askingMessage, toolAnswer] } 0).isOk =
      true := by decide +kernel
  obtain ⟨s, hs⟩ : ∃ s, ({} : SessionStore Unit).prepared "s"
      { seed := [askingMessage, toolAnswer] } 0 = .ok s := by
    cases hp : ({} : SessionStore Unit).prepared "s" { seed := [askingMessage, toolAnswer] } 0 with
    | ok s => exact ⟨s, rfl⟩
    | error e => rw [hp] at ok; cases ok
  obtain ⟨answered, idempotent⟩ := repair_complete_iff hs
    (askingMessage_written (by simp [toolAnswer]))
  exact ⟨s, hs, answered.mpr (by decide +kernel), idempotent⟩

/-- A turn that is cut off after its assistant message keeps its call open. -/
theorem repair_incomplete : ¬ ∀ (st : SessionStore Unit) (id : SessionId) (options : CreateOptions)
    (now : Int) (s : Session), st.prepared id options now = .ok s → Written options.seed →
      Answered s.log := by
  intro complete
  have ok : (({} : SessionStore Unit).prepared "s" { seed := [askingMessage] } 0).isOk = true := by
    decide +kernel
  cases hp : ({} : SessionStore Unit).prepared "s" { seed := [askingMessage] } 0 with
  | ok s =>
      have written := askingMessage_written (r := []) (by simp)
      have answered := (prepared_answered hp written).mp (complete _ _ _ _ s hp written)
      exact absurd answered (by decide +kernel)
  | error e => rw [hp] at ok; cases ok

end Araya.Sessions
