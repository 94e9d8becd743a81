import Araya.Agent.Prompt
import Araya.Llm.Delivered
import Araya.Llm.Messages

/-!
The replay data of an assistant message, from the stream to the next request. The finish of a
Messages stream carries the signature of each reasoning block, and the commit writes it beside
the message; the message that is read back holds its blocks only.
-/

namespace Araya.Agent
open Llm

/-- The kind of the block that an event starts. -/
def startedKind (event : Json) : Option ContentBlockType :=
  event.ifObject.bind fun o =>
    if getString o "type" = "content_block_start" then
      (Json.objectField o "content_block").bind fun content =>
        if getString content "type" = "text" then some .text
        else if getString content "type" = "thinking" then some .reasoning
        else if getString content "type" = "tool_use" then some .toolCall
        else none
    else none

def stopsMessage (event : Json) : Bool := event.ifObject.any fun o => getString o "type" == "message_stop"

/-- What the sink is given: a stream that was cut ends with a failure. -/
def sunk (t : MessagesTranslator) (chunks : List StreamChunk) (cut : LlmFailure) : List StreamChunk :=
  if t.done then chunks else chunks ++ [finishFrom cut]

/-- The replay data that a call has collected for block `i`. -/
def collected (acc : StepAccumulator) (i : Nat) : Option String := replaySignature { replayState := acc.replay } i

/-- The replay data that block `i` of a request carries. -/
def attached (request : List Json) (i : Nat) : Option String :=
  ((request[i]?).bind Json.ifObject).bind fun o => Json.stringField o "signature"

/-- The blocks that the next request makes of the message that a call commits: the event is read
back as it was appended, or from its text. -/
def Requested (parse : String → Option Json) (acc : StepAccumulator) (request : List Json) : Prop :=
  ∃ (log : Log) (turn step : Nat) (success : Bool) (x : AssistantMessage) (ev : Sessions.Event) (m : Sessions.Message),
    .assistantMessage x ∈ (commitModelOutcome log turn step acc success).events ∧ ev.type = "assistant/message" ∧
      (ev.data = (LoopEvent.assistantMessage x).data ∨ ev.data = (LoopEvent.assistantMessage x).data.normal) ∧
      Sessions.foldBuiltin ev = .append m ∧ assistantBlocks parse (toLlmMessage m) = .ok request

/-! Requests -/

theorem mapM_mem {α β ε : Type} {f : α → Except ε β} {l : List α} {out : List β} (h : l.mapM f = .ok out) :
    ∀ y ∈ out, ∃ x ∈ l, f x = .ok y := by
  induction l generalizing out with
  | nil =>
      cases h
      exact fun _ hy => (by cases hy)
  | cons a l ih =>
      simp only [List.mapM_cons, bind, Except.bind] at h
      split at h
      · cases h
      · next b hb =>
          split at h
          · cases h
          · next bs hbs =>
              cases h
              intro y hy
              rcases List.mem_cons.mp hy with rfl | rest
              · exact ⟨a, List.mem_cons_self, hb⟩
              · obtain ⟨x, hx, made⟩ := ih hbs y rest
                exact ⟨x, List.mem_cons_of_mem a hx, made⟩

/-- A message without replay data gives blocks without a signature. -/
theorem unsigned {parse : String → Option Json} {message : LlmMessage} {request : List Json}
    (bare : message.replayState = none) (h : assistantBlocks parse message = .ok request) :
    ∀ block ∈ request, ∀ o, block.ifObject = some o → Json.stringField o "signature" = none := by
  unfold assistantBlocks at h
  cases made : message.content.zipIdx.mapM (assistantBlock parse message) with
  | error failure =>
      rw [made] at h
      cases h
  | ok lists =>
      rw [made] at h
      cases h
      intro block hb o ho
      obtain ⟨list, hl, hb⟩ := List.mem_flatten.mp hb
      obtain ⟨⟨content, index⟩, -, built⟩ := mapM_mem made list hl
      cases content with
      | text text =>
          cases built
          cases List.mem_singleton.mp hb
          cases ho
          rfl
      | reasoning text =>
          have none : replaySignature message index = none := by rw [replaySignature, bare]; rfl
          rw [assistantBlock, none] at built
          cases built
          cases List.mem_singleton.mp hb
          cases ho
          rfl
      | toolCall call =>
          rw [assistantBlock] at built
          cases input : toolInput parse call with
          | error failure =>
              rw [input] at built
              cases built
          | ok value =>
              rw [input] at built
              cases built
              cases List.mem_singleton.mp hb
              cases ho
              rfl
      | toolResult | image =>
          cases built
          cases hb

theorem attached_none {parse : String → Option Json} {acc : StepAccumulator} {request : List Json}
    (h : Requested parse acc request) (i : Nat) : attached request i = none := by
  obtain ⟨log, turn, step, success, x, ev, m, -, -, -, -, made⟩ := h
  unfold attached
  cases hb : request[i]? with
  | none => rfl
  | some block =>
      cases ho : block.ifObject with
      | none => simp [ho]
      | some o => simpa [ho] using unsigned rfl made block (List.mem_of_getElem? hb) o ho

/-! Streams -/

section
variable {lib : BoostJson} {t t' : MessagesTranslator} {chunks : List StreamChunk} {event : Json}

theorem startedKind_of {o : Json.Members} (object : event.ifObject = some o) (other : getString o "type" ≠ "content_block_start") :
    startedKind event = none := by
  rw [startedKind, object, Option.bind_some, if_neg other]

theorem ofContent_kind {o : Json.Members} {block : MessagesBlock} (made : MessagesBlock.ofContent lib o = .ok block) :
    (if getString o "type" = "text" then some .text
      else if getString o "type" = "thinking" then some .reasoning
      else if getString o "type" = "tool_use" then some ContentBlockType.toolCall
      else none) = some block.kind := by
  simp only [MessagesBlock.ofContent] at made
  split at made
  · next text =>
      cases made
      rw [if_pos text]
  · next notText =>
      rw [if_neg notText]
      split at made
      · next thinking =>
          cases made
          rw [if_pos thinking]
      · next notThinking =>
          rw [if_neg notThinking]
          split at made
          · next tool =>
              cases made
              rw [if_pos tool]
          · cases made

theorem delta_kind {b b' : MessagesBlock} {p : Nat} {value : Json} (done : b.delta p value = .ok (b', chunks)) :
    b'.kind = b.kind := (MessagesTranslator.delta_ok done).2.1

theorem set_kinds {order : List MessagesBlock} {p : Nat} {b b' : MessagesBlock} (hb : order[p]? = some b)
    (kind : b'.kind = b.kind) : (order.set p b').map (·.kind) = order.map (·.kind) := by
  obtain ⟨lt, rfl⟩ := List.getElem?_eq_some_iff.mp hb
  rw [List.map_set, kind]
  refine List.ext_getElem? fun i => ?_
  rw [List.getElem?_set, List.getElem?_map]
  split
  · next at' =>
      subst at'
      simp [lt]
  · rfl

/-- An event adds the block it starts; the stop of the message is what ends a stream. -/
theorem feed_kinds (done : t.feed lib event = .ok (t', chunks)) :
    t'.order.map (·.kind) = t.order.map (·.kind) ++ (startedKind event).toList ∧ t'.done = stopsMessage event := by
  obtain ⟨running, o, object, handled⟩ := MessagesTranslator.feed_ok done
  have stops : stopsMessage event = (getString o "type" == "message_stop") := by rw [stopsMessage, object]; rfl
  have idle : getString o "type" ≠ "content_block_start" → t'.order.map (·.kind) = t.order.map (·.kind) →
      t'.order.map (·.kind) = t.order.map (·.kind) ++ (startedKind event).toList := by
    intro other same
    rw [startedKind_of object other, same]
    exact (List.append_nil _).symm
  rw [stops]
  cases handled with
  | messageStart type done =>
      obtain ⟨order, same, -⟩ := MessagesTranslator.messageStart_ok done
      exact ⟨idle (by simp [type]) (by rw [order]), by simp [same, running, type]⟩
  | blockStart type done =>
      obtain ⟨content, block, given, made, order, same, -⟩ := MessagesTranslator.blockStart_ok done
      refine ⟨?_, by simp [same, running, type]⟩
      rw [startedKind, object, Option.bind_some, if_pos type, given, Option.bind_some, ofContent_kind made, order,
        List.map_append]
      rfl
  | blockDelta index type done =>
      obtain ⟨p, b, b', value, -, hb, -, grown, rfl⟩ := MessagesTranslator.blockDelta_ok done
      exact ⟨idle (by simp [type]) (set_kinds hb (delta_kind grown)), by simp [running, type]⟩
  | blockStop index type _ done =>
      obtain ⟨p, b, -, hb, -, rfl, -⟩ := MessagesTranslator.blockStop_ok done
      exact ⟨idle (by simp [type]) (set_kinds hb rfl), by simp [running, type]⟩
  | messageStop type done =>
      obtain ⟨same, order, -⟩ := MessagesTranslator.messageStop_ok done
      exact ⟨idle (by simp [type]) (by rw [order]), by simp [same, type]⟩
  | idle other unknown same _ =>
      rcases same with rfl | rfl
      · exact ⟨idle other rfl, by simp [running, unknown]⟩
      · obtain ⟨order, same⟩ := MessagesTranslator.messageDelta_same (t := t) o
        exact ⟨idle other (by rw [order]), by simp [same, running, unknown]⟩

/-- The kinds of the blocks are those that the events start, and the stream is complete when one
of them stops the message. -/
theorem stream_kinds {events : List Json} (done : collect (MessagesTranslator.feed lib) events t = .ok (t', chunks)) :
    t'.order.map (·.kind) = t.order.map (·.kind) ++ events.filterMap startedKind ∧
      t'.done = (t.done || events.any stopsMessage) := by
  induction events generalizing t chunks with
  | nil =>
      cases done
      exact ⟨(List.append_nil _).symm, (Bool.or_false _).symm⟩
  | cons event events ih =>
      simp only [collect, bind, Except.bind] at done
      split at done
      · cases done
      · next first one =>
          split at done
          · cases done
          · next rest two =>
              cases done
              obtain ⟨kinds, stop⟩ := feed_kinds one
              obtain ⟨later, ends⟩ := ih two
              refine ⟨?_, by rw [ends, stop, (MessagesTranslator.feed_ok one).1, List.any_cons, Bool.false_or]⟩
              rw [later, kinds, List.append_assoc, List.filterMap_cons]
              cases startedKind event <;> rfl

/-- The finish of a complete stream carries the signatures. -/
theorem stream_replay {events : List Json} {model : String}
    (done : collect (MessagesTranslator.feed lib) events { model } = .ok (t', chunks)) (complete : t'.done = true) :
    (StepAccumulator.accumulate chunks).replay = some t'.replayState ∨
      t'.order = [] ∧ (StepAccumulator.accumulate chunks).replay = none := by
  let Carried (t : MessagesTranslator) (chunks : List StreamChunk) : Prop := t.done = true →
    (StepAccumulator.accumulate chunks).replay = some t.replayState ∨
      t.order = [] ∧ (StepAccumulator.accumulate chunks).replay = none
  have start : Carried { model } [] := fun ended => (by cases ended)
  refine collect_induct (P := Carried) ?_ start done complete
  intro event s s' front chunks _ fed ended
  obtain ⟨running, o, object, handled⟩ := MessagesTranslator.feed_ok fed
  have stops := (feed_kinds fed).2
  rw [ended, stopsMessage, object] at stops
  have type : getString o "type" = "message_stop" := eq_of_beq stops.symm
  cases handled with
  | messageStop _ stopped =>
      obtain ⟨-, order, model, ⟨empty, rfl⟩ | ⟨usage, why, failure, rfl⟩⟩ := MessagesTranslator.messageStop_ok stopped
      · exact .inr ⟨order.trans empty, by rw [StepAccumulator.accumulate_append]; rfl⟩
      · refine .inl ?_
        have same : s'.replayState = s.replayState := by
          rw [MessagesTranslator.replayState, MessagesTranslator.replayState, order, model]
        rw [StepAccumulator.accumulate_append, same]
        rfl
  | idle _ unknown _ _ => exact absurd type unknown
  | messageStart other _ | blockStart other _ | blockDelta _ other _ | blockStop _ other _ _ =>
      rw [type] at other
      exact absurd other (by decide)

theorem replaySignature_state (t : MessagesTranslator) (i : Nat) :
    replaySignature { replayState := some t.replayState } i = (t.order[i]?).bind fun b =>
      if b.kind = .reasoning then some b.signature else none := by
  simp only [replaySignature, MessagesTranslator.replayState, Option.bind_some, Json.ifObject_obj, Json.stringField,
    Json.arrayField, Json.find?_cons]
  cases hb : t.order[i]? with
  | none => simp [hb]
  | some b => simp [hb, MessagesBlock.replay]; split <;> rfl

end

/-- The replay data that a Messages call collects for each block comes back in the request that
follows only where there is none: when the stream was cut before the message stopped, or no
event starts a reasoning block. -/
theorem replay_handed_back {parse : String → Option Json} {lib : BoostJson} {model : String} {events : List Json}
    {t : MessagesTranslator} {chunks : List StreamChunk} {cut : LlmFailure} {request : List Json}
    (streamed : collect (MessagesTranslator.feed lib) events { model } = .ok (t, chunks))
    (requested : Requested parse (StepAccumulator.accumulate (sunk t chunks cut)) request) :
    (∀ i signature, collected (StepAccumulator.accumulate (sunk t chunks cut)) i = some signature →
      attached request i = some signature) ↔
    (events.any stopsMessage = true → ∀ event ∈ events, startedKind event ≠ some .reasoning) := by
  obtain ⟨kinds, ended⟩ := stream_kinds streamed
  have started : (∀ event ∈ events, startedKind event ≠ some .reasoning) ↔ ∀ b ∈ t.order, b.kind ≠ .reasoning := by
    have listed : ContentBlockType.reasoning ∈ t.order.map (·.kind) ↔ ContentBlockType.reasoning ∈ events.filterMap startedKind := by
      rw [kinds]
      rfl
    simp only [List.mem_map, List.mem_filterMap] at listed
    constructor
    · intro none b hb kind
      obtain ⟨event, he, same⟩ := listed.mp ⟨b, hb, kind⟩
      exact none event he same
    · intro none event he same
      obtain ⟨b, hb, kind⟩ := listed.mpr ⟨event, he, same⟩
      exact none b hb kind
  rw [← Bool.false_or (events.any stopsMessage), ← ended, started]
  cases complete : t.done with
  | false =>
      have gone : (StepAccumulator.accumulate (sunk t chunks cut)).replay = none := by
        rw [sunk, complete, if_neg Bool.false_ne_true, StepAccumulator.accumulate_concat]
        rfl
      refine ⟨fun _ ended => (by cases ended), fun _ i signature h => ?_⟩
      rw [collected, gone] at h
      cases h
  | true =>
      rw [sunk, complete, if_pos rfl]
      have replayed := stream_replay streamed complete
      constructor
      · intro back _ b hb kind
        obtain ⟨i, hi⟩ := List.mem_iff_getElem?.mp hb
        rcases replayed with replay | ⟨empty, -⟩
        · have found : collected (StepAccumulator.accumulate chunks) i = some b.signature := by
            rw [collected, replay, replaySignature_state, hi, Option.bind_some, if_pos kind]
          rw [sunk, complete, if_pos rfl] at requested
          have lost := back i b.signature found
          rw [attached_none requested i] at lost
          cases lost
        · rw [empty] at hb
          cases hb
      · intro none i signature h
        rcases replayed with replay | ⟨-, gone⟩
        · rw [collected, replay, replaySignature_state] at h
          obtain ⟨b, hb, signed⟩ := Option.bind_eq_some_iff.mp h
          rw [if_neg (none rfl b (List.mem_of_getElem? hb))] at signed
          cases signed
        · rw [collected, gone] at h
          cases h

/-- One block, and a stream that is complete after it. -/
def oneBlock (content : Json.Members) : List Json :=
  [messageStarts, blockStarts 0 content, .obj [("type", .str "content_block_stop"), ("index", .int 0)],
    .obj [("type", .str "message_delta"), ("delta", .obj [("stop_reason", .str "end_turn")])],
    .obj [("type", .str "message_stop")]]

/-- The call of such a stream, and the request that follows. -/
def oneBlockRequest (content : Json.Members) : Option (StepAccumulator × List Json) :=
  match collect (MessagesTranslator.feed emptyObjects) (oneBlock content) {} with
  | .error _ => none
  | .ok (t, chunks) =>
    let acc := StepAccumulator.accumulate (sunk t chunks emptyResponse)
    match (commitModelOutcome [] 1 1 acc false).events with
    | [.assistantMessage x] =>
      match Sessions.foldBuiltin ((LoopEvent.assistantMessage x).record 0) with
      | .append m => (assistantBlocks (fun _ => none) (toLlmMessage m)).toOption.map (acc, ·)
      | _ => none
    | _ => none

theorem oneBlockRequest_some {content : Json.Members} {acc : StepAccumulator} {request : List Json}
    (h : oneBlockRequest content = some (acc, request)) :
    ∃ t chunks, collect (MessagesTranslator.feed emptyObjects) (oneBlock content) {} = .ok (t, chunks) ∧
      acc = StepAccumulator.accumulate (sunk t chunks emptyResponse) ∧ Requested (fun _ => none) acc request := by
  simp only [oneBlockRequest] at h
  split at h
  · cases h
  · next t chunks streamed =>
      split at h
      · next x committed =>
          split at h
          · next m read =>
              obtain ⟨blocks, made, same⟩ := Option.map_eq_some_iff.mp h
              cases same
              refine ⟨t, chunks, streamed, rfl, [], 1, 1, false, x, _, m, ?_, rfl, .inl rfl, read, ?_⟩
              · rw [committed]
                exact List.mem_singleton.mpr rfl
              · cases result : assistantBlocks (fun _ => none) (toLlmMessage m) with
                | error failure =>
                    rw [result] at made
                    cases made
                | ok out =>
                    rw [result] at made
                    cases made
                    rfl
          · cases h
      · cases h

/-- A stream of text has nothing to replay. -/
theorem replay_handed_back_text : ∃ acc request, Requested (fun _ => none) acc request ∧
    ∀ i signature, collected acc i = some signature → attached request i = some signature := by
  have played : (oneBlockRequest [("type", .str "text"), ("text", .str "hi")]).isSome = true := by decide +kernel
  obtain ⟨⟨acc, request⟩, h⟩ := Option.isSome_iff_exists.mp played
  obtain ⟨t, chunks, streamed, rfl, requested⟩ := oneBlockRequest_some h
  exact ⟨_, request, requested, (replay_handed_back streamed requested).mpr fun _ => by decide +kernel⟩

/-- The signature of a thinking block is collected, and the next request has none. -/
theorem replay_lost : ¬ ∀ parse lib model events t chunks cut request,
    collect (MessagesTranslator.feed lib) events { model } = .ok (t, chunks) →
    Requested parse (StepAccumulator.accumulate (sunk t chunks cut)) request →
    ∀ i signature, collected (StepAccumulator.accumulate (sunk t chunks cut)) i = some signature →
      attached request i = some signature := by
  intro back
  have played : (oneBlockRequest [("type", .str "thinking"), ("thinking", .str "so"), ("signature", .str "sig")]).any
      (fun p => collected p.1 0 == some "sig" && attached p.2 0 == none) = true := by decide +kernel
  obtain ⟨⟨acc, request⟩, h, lost⟩ := (Option.any_eq_true _ _).mp played
  obtain ⟨t, chunks, streamed, rfl, requested⟩ := oneBlockRequest_some h
  simp only [Bool.and_eq_true, beq_iff_eq] at lost
  have found := back _ _ _ _ t chunks _ request streamed requested 0 "sig" lost.1
  rw [lost.2] at found
  cases found

end Araya.Agent
