import Araya.Llm.Delivered

/-!
One streamed request, from the response to the sink. Its pieces go through the parser and the
translator, and what they give is sent piece by piece; a failure is sent as a finish of its own.
The sink gets one finish, at the end, exactly when nothing comes after the finish that the
translator has given.
-/

namespace Araya.Llm

/-- A wire protocol: what an event does, when the stream is done, and its two failures. -/
structure Wire (σ : Type) where
  start : σ
  onEvent : Bytes → σ → Except Thrown (σ × List StreamChunk)
  done : σ → Bool
  failureFor : Nat → Bytes → LlmFailure
  unfinished : LlmFailure

/-- `on_event` of the chat driver; its flag is that of the translator. -/
def chatEvent (lib : BoostJson) (data : Bytes) (t : ChunkTranslator) : Except Thrown (ChunkTranslator × List StreamChunk) :=
  if t.done then .error (malformedResponse "data after [DONE]")
  else if data = ascii "[DONE]" then t.finish
  else
    match lib.parse data with
    | none => .error (malformedResponse "malformed SSE payload")
    | some wire => t.feed lib wire

def chatWire (lib : BoostJson) : Wire ChunkTranslator where
  start := {}
  onEvent := chatEvent lib
  done := (·.done)
  failureFor := failureFor lib
  unfinished := { code := .streamClosed, message := "SSE stream ended without [DONE]" }

/-- `on_event` of the Messages driver. -/
def messagesEvent (lib : BoostJson) (data : Bytes) (t : MessagesTranslator) :
    Except Thrown (MessagesTranslator × List StreamChunk) :=
  if t.done then .error (malformed "data after message_stop")
  else
    match lib.parse data with
    | none => .error (malformed "malformed SSE payload")
    | some event => t.feed lib event

def messagesWire (lib : BoostJson) (model : String) : Wire MessagesTranslator where
  start := { model }
  onEvent := messagesEvent lib
  done := (·.done)
  failureFor := messagesFailureFor lib
  unfinished := { code := .streamClosed, message := "Messages stream ended before message_stop" }

/-- A response: the pieces of its body, and the error that may follow any of them. -/
structure Response where
  status : Nat
  pieces : List Bytes
  failure : Option LlmFailure

def Response.success (r : Response) : Prop := 200 ≤ r.status ∧ r.status < 300

instance (r : Response) : Decidable r.success := inferInstanceAs (Decidable (_ ∧ _))

/-- An exchange may fail before there is a response. -/
inductive Exchange where
  | failed (failure : LlmFailure)
  | answered (r : Response)

structure Driving (σ : Type) where
  parser : SseParser := {}
  translator : σ
  pending : List StreamChunk := []
  sent : List StreamChunk := []

/-- The failure of what was thrown within the exchange. -/
def Thrown.failure : Thrown → LlmFailure
  | .llm failure => failure
  | .system what => { code := .transport, message := "request: " ++ what }

def maxErrorBody : Nat := 1024 * 1024

namespace Wire
variable {σ : Type} (w : Wire σ)

/-- `on_body`: a piece is parsed whole before anything is sent. -/
def onBody (bytes : Bytes) (s : Driving σ) : Except Thrown (Driving σ) :=
  let (parser, events) := s.parser.feed bytes
  match collect (fun e t => w.onEvent e.data t) events s.translator with
  | .error thrown => .error thrown
  | .ok (translator, chunks) => .ok { parser, translator, pending := [], sent := s.sent ++ s.pending ++ chunks }

/-- The pieces, up to one that throws. -/
def drive : List Bytes → Driving σ → Driving σ × Option Thrown
  | [], s => (s, none)
  | piece :: pieces, s =>
    match w.onBody piece s with
    | .error thrown => (s, some thrown)
    | .ok s => drive pieces s

/-- What the sink is given of a response. -/
def respond (r : Response) : List StreamChunk :=
  if r.success then
    let (s, thrown) := w.drive r.pieces { translator := w.start }
    match (thrown.map Thrown.failure).or r.failure with
    | some failure => s.sent ++ [finishFrom failure]
    | none => s.sent ++ if w.done s.translator then s.pending else [finishFrom w.unfinished]
  else
    [finishFrom (r.failure.getD (w.failureFor r.status (r.pieces.flatten.take maxErrorBody)))]

/-- `stream`. -/
def stream : Exchange → List StreamChunk
  | .failed failure => [finishFrom failure]
  | .answered r => w.respond r

/-- Once a piece has completed the stream no later one has an event, and no error follows. -/
structure Quiet (r : Response) : Prop where
  data : ∀ front piece back, r.pieces = front ++ piece :: back →
    ∀ s, w.drive front { translator := w.start } = (s, none) → w.done s.translator = true → (s.parser.feed piece).2 = []
  ending : ∀ s, w.drive r.pieces { translator := w.start } = (s, none) → w.done s.translator = true → r.failure = none

end Wire

/-- One finish, and nothing after it. -/
def Contract (chunks : List StreamChunk) : Prop :=
  ∃ front last, chunks = front ++ [last] ∧ last.isFinish = true ∧ ∀ c ∈ front, c.isFinish = false

/-! Chunks that are no finish -/

def Plain (chunks : List StreamChunk) : Prop := ∀ c ∈ chunks, c.isFinish = false

theorem Plain.append {front back : List StreamChunk} (h : Plain front) (h' : Plain back) : Plain (front ++ back) :=
  fun c hc => (List.mem_append.mp hc).elim (h c) (h' c)

theorem Plain.nil : Plain [] := fun _ hc => (by cases hc)

theorem Plain.singleton {c : StreamChunk} (h : c.isFinish = false) : Plain [c] :=
  fun _ hc => List.mem_singleton.mp hc ▸ h

theorem Plain.finish {front : List StreamChunk} (h : Plain front) {last : StreamChunk} (finish : last.isFinish = true) :
    Contract (front ++ [last]) := ⟨front, last, rfl, finish, h⟩

/-- A second finish breaks the contract. -/
theorem Contract.append {chunks : List StreamChunk} (h : Contract chunks) {last : StreamChunk} : ¬ Contract (chunks ++ [last]) := by
  rintro ⟨front', last', same, -, plain⟩
  obtain ⟨front, finish, rfl, ends, -⟩ := h
  obtain ⟨rfl, -⟩ := List.append_inj' same rfl
  have again := plain finish (by simp)
  rw [ends] at again
  cases again

namespace ChunkTranslator
variable {lib : BoostJson} {t t' : ChunkTranslator} {chunks : List StreamChunk}

theorem ensured_plain : Plain t.ensureReasoning.2.2 ∧ Plain t.ensureText.2.2 ∧ ∀ w, Plain (t.ensureTool w).2.2 := by
  refine ⟨?_, ?_, fun w => ?_⟩
  · unfold ensureReasoning
    split
    · exact .nil
    · exact .singleton rfl
  · unfold ensureText
    split
    · exact .nil
    · exact .singleton rfl
  · unfold ensureTool
    split
    · exact .nil
    · exact .singleton rfl

theorem ensured_done : t.ensureReasoning.1.done = t.done ∧ t.ensureText.1.done = t.done ∧
    ∀ w, (t.ensureTool w).1.done = t.done := by
  refine ⟨?_, ?_, fun w => ?_⟩
  · unfold ensureReasoning
    split <;> rfl
  · unfold ensureText
    split <;> rfl
  · unfold ensureTool
    split <;> rfl

theorem applyText_plain {ensured : ChunkTranslator × Nat × List StreamChunk} {chunk : Nat → String → StreamChunk}
    (plain : Plain ensured.2.2) (done : ensured.1.done = t.done) (other : ∀ p text, (chunk p text).isFinish = false)
    (text : Option String) : (t.applyText ensured chunk text).1.done = t.done ∧ Plain (t.applyText ensured chunk text).2 := by
  cases text with
  | none => exact ⟨rfl, .nil⟩
  | some text =>
      simp only [applyText]
      split
      · exact ⟨rfl, .nil⟩
      · exact ⟨done, plain.append (.singleton (other _ text))⟩

theorem applyToolCall_plain {call : Json} (h : applyToolCall lib call t = .ok (t', chunks)) :
    t'.done = t.done ∧ Plain chunks := by
  simp only [applyToolCall] at h
  split at h
  · cases h
    exact ⟨rfl, .nil⟩
  · simp only [bind, Except.bind] at h
    split at h
    · cases h
    · next w _ =>
        cases h
        exact ⟨ensured_done.2.2 w, (ensured_plain.2.2 w).append (.singleton rfl)⟩

/-- Steps that keep the flag and give no finish, one after the other. -/
theorem collect_plain {α : Type} {f : α → ChunkTranslator → Except Thrown (ChunkTranslator × List StreamChunk)}
    (step : ∀ a s s' chunks, f a s = .ok (s', chunks) → s'.done = s.done ∧ Plain chunks) {as : List α}
    (h : collect f as t = .ok (t', chunks)) : t'.done = t.done ∧ Plain chunks := by
  refine collect_induct (P := fun s chunks => s.done = t.done ∧ Plain chunks) ?_ ⟨rfl, Plain.nil⟩ h
  rintro a s s' front chunks ⟨same, plain⟩ done
  obtain ⟨same', plain'⟩ := step a s s' chunks done
  exact ⟨same'.trans same, plain.append plain'⟩

theorem applyDelta_plain {delta : Json.Members} (h : t.applyDelta lib delta = .ok (t', chunks)) :
    t'.done = t.done ∧ Plain chunks := by
  have reasoned : (t.applyReasoning delta).1.done = t.done ∧ Plain (t.applyReasoning delta).2 :=
    applyText_plain ensured_plain.1 ensured_done.1 (fun _ _ => rfl) _
  have said : ∀ t : ChunkTranslator, (t.applyContent delta).1.done = t.done ∧ Plain (t.applyContent delta).2 :=
    fun t => applyText_plain ensured_plain.2.1 ensured_done.2.1 (fun _ _ => rfl) _
  simp only [applyDelta, bind, Except.bind] at h
  split at h
  · cases h
  · next called =>
      cases h
      obtain ⟨same, plain⟩ := collect_plain (fun _ _ _ _ => applyToolCall_plain) called
      exact ⟨same.trans ((said _).1.trans reasoned.1), (reasoned.2.append (said _).2).append plain⟩

theorem applyChoice_plain {choice : Json} (h : applyChoice lib choice t = .ok (t', chunks)) :
    t'.done = t.done ∧ Plain chunks := by
  have finished : ∀ (t : ChunkTranslator) (reason : Option String), (reason.elim t t.applyFinishReason).done = t.done := by
    intro t reason
    cases reason with
    | none => rfl
    | some reason =>
        simp only [Option.elim_some, applyFinishReason]
        split_ifs <;> rfl
  simp only [applyChoice] at h
  split at h
  · cases h
    exact ⟨rfl, .nil⟩
  · next o _ =>
      cases delta : Json.objectField o "delta" with
      | none =>
          simp only [delta, bind, Except.bind] at h
          cases h
          exact ⟨finished _ _, .nil⟩
      | some delta' =>
          simp only [delta, bind, Except.bind] at h
          split at h
          · cases h
          · next applied =>
              cases h
              obtain ⟨same, plain⟩ := applyDelta_plain applied
              exact ⟨(finished _ _).trans same, plain⟩

theorem feed_plain {wire : Json} (h : feed lib wire t = .ok (t', chunks)) : t'.done = false ∧ Plain chunks := by
  unfold feed at h
  split at h
  · cases h
  · next running =>
      have live : t.done = false := Bool.not_eq_true _ ▸ running
      split at h
      · cases h
      · simp only [bind, Except.bind] at h
        split at h
        · cases h
        · next applied =>
            obtain ⟨same, plain⟩ := collect_plain (fun _ _ _ _ => applyChoice_plain) applied
            split at h
            · cases h
              exact ⟨same.trans live, plain⟩
            · split at h
              · cases h
              · cases h
                exact ⟨same.trans live, plain⟩

theorem finish_contract (h : finish t = .ok (t', chunks)) : t'.done = true ∧ Contract chunks := by
  unfold finish at h
  split at h
  · cases h
  · cases h
    refine ⟨rfl, Plain.finish (Plain.append ?_ ?_) ?_⟩
    · intro c hc
      obtain ⟨e, -, he⟩ := List.mem_filterMap.mp hc
      obtain ⟨_, _, rfl⟩ := Option.map_eq_some_iff.mp he
      rfl
    · intro c hc
      obtain ⟨_, _, rfl⟩ := Option.map_eq_some_iff.mp (Option.mem_toList.mp hc)
      rfl
    · simp only [finishChunk]
      split <;> rfl

end ChunkTranslator

theorem startChunks_plain (block : MessagesBlock) (index : Nat) : Plain (block.startChunks index) := by
  have first : Plain [StreamChunk.blockStart index block.kind] := .singleton rfl
  refine first.append ?_
  cases block.kind with
  | text | reasoning =>
      simp only
      split
      · exact .nil
      · exact .singleton rfl
  | toolCall => exact .singleton rfl
  | toolResult => exact .nil

theorem delta_plain {b b' : MessagesBlock} {p : Nat} {value : Json} {chunks : List StreamChunk}
    (h : b.delta p value = .ok (b', chunks)) : Plain chunks := by
  simp only [MessagesBlock.delta] at h
  split at h
  · cases h
  · split at h
    · cases h
      exact .singleton rfl
    · split at h
      · cases h
        exact .singleton rfl
      · split at h
        · cases h
          exact .nil
        · split at h
          · cases h
            exact .singleton rfl
          · cases h

theorem MessagesTranslator.feed_contract {lib : BoostJson} {t t' : MessagesTranslator} {event : Json}
    {chunks : List StreamChunk} (h : t.feed lib event = .ok (t', chunks)) :
    t'.done = false ∧ Plain chunks ∨ t'.done = true ∧ Contract chunks := by
  obtain ⟨running, o, -, handled⟩ := feed_ok h
  cases handled with
  | messageStart _ done =>
      obtain ⟨-, same, rfl⟩ := messageStart_ok done
      exact .inl ⟨same.trans running, .nil⟩
  | blockStart _ done =>
      obtain ⟨content, block, -, -, -, same, rfl⟩ := blockStart_ok done
      exact .inl ⟨same.trans running, startChunks_plain block _⟩
  | blockDelta _ _ done =>
      obtain ⟨p, b, b', value, -, -, -, grown, rfl⟩ := blockDelta_ok done
      exact .inl ⟨running, delta_plain grown⟩
  | blockStop _ _ _ done =>
      obtain ⟨p, b, -, -, -, rfl, rfl⟩ := blockStop_ok done
      refine .inl ⟨running, fun c hc => ?_⟩
      obtain ⟨_, _, rfl⟩ := Option.map_eq_some_iff.mp (Option.mem_toList.mp hc)
      rfl
  | messageStop _ done =>
      obtain ⟨ended, -, -, ⟨-, rfl⟩ | ⟨usage, why, failure, rfl⟩⟩ := messageStop_ok done
      · exact .inr ⟨ended, Plain.finish .nil rfl⟩
      · exact .inr ⟨ended, (Plain.singleton (c := .usage usage) rfl).finish rfl⟩
  | idle _ _ same none =>
      subst none
      rcases same with rfl | rfl
      · exact .inl ⟨running, .nil⟩
      · exact .inl ⟨(messageDelta_same o).2.trans running, .nil⟩

/-! The driver -/

/-- An event is refused once the stream is done; another one gives no finish, or ends it. -/
structure Wire.Lawful {σ : Type} (w : Wire σ) : Prop where
  start : w.done w.start = false
  ended : ∀ data t, w.done t = true → ∃ thrown, w.onEvent data t = .error thrown
  event : ∀ data t t' chunks, w.onEvent data t = .ok (t', chunks) →
    w.done t' = false ∧ Plain chunks ∨ w.done t' = true ∧ Contract chunks

theorem chatWire_lawful (lib : BoostJson) : (chatWire lib).Lawful where
  start := rfl
  ended := fun data t ended => ⟨_, if_pos ended⟩
  event := by
    intro data t t' chunks h
    simp only [chatWire, chatEvent] at h
    split at h
    · cases h
    · split at h
      · exact .inr (ChunkTranslator.finish_contract h)
      · split at h
        · cases h
        · exact .inl (ChunkTranslator.feed_plain h)

theorem messagesWire_lawful (lib : BoostJson) (model : String) : (messagesWire lib model).Lawful where
  start := rfl
  ended := fun data t ended => ⟨_, if_pos ended⟩
  event := by
    intro data t t' chunks h
    simp only [messagesWire, messagesEvent] at h
    split at h
    · cases h
    · split at h
      · cases h
      · exact MessagesTranslator.feed_contract h

namespace Wire
variable {σ : Type} {w : Wire σ} {s s' : Driving σ}

/-- What a translator has given, by whether it is done. -/
def Given (w : Wire σ) (t : σ) (chunks : List StreamChunk) : Prop :=
  w.done t = false ∧ Plain chunks ∨ w.done t = true ∧ Contract chunks

theorem Lawful.collect (lawful : w.Lawful) {events : List SseEvent} {t t' : σ} {front chunks : List StreamChunk}
    (before : w.Given t front) (h : collect (fun e t => w.onEvent e.data t) events t = .ok (t', chunks)) :
    w.Given t' (front ++ chunks) := by
  refine collect_induct (P := w.Given) ?_ before h
  intro e t t' front chunks before done
  rcases before with ⟨-, plain⟩ | ⟨ended, -⟩
  · rcases lawful.event _ _ _ _ done with ⟨live, plain'⟩ | ⟨ended, front', last, rfl, ends, plain'⟩
    · exact .inl ⟨live, plain.append plain'⟩
    · refine .inr ⟨ended, ?_⟩
      rw [← List.append_assoc]
      exact (plain.append plain').finish ends
  · obtain ⟨thrown, refused⟩ := lawful.ended e.data t ended
    rw [refused] at done
    cases done

structure Sound (w : Wire σ) (s : Driving σ) : Prop where
  pending : s.pending = []
  given : w.Given s.translator s.sent

theorem Lawful.onBody (lawful : w.Lawful) (sound : w.Sound s) {piece : Bytes} (h : w.onBody piece s = .ok s') : w.Sound s' := by
  simp only [Wire.onBody] at h
  split at h
  · cases h
  · next t chunks events =>
      cases h
      refine ⟨rfl, ?_⟩
      rw [sound.pending, List.append_nil]
      exact lawful.collect sound.given events

theorem Lawful.drive (lawful : w.Lawful) (sound : w.Sound s) (pieces : List Bytes) : w.Sound (w.drive pieces s).1 := by
  induction pieces generalizing s with
  | nil => exact sound
  | cons piece pieces ih =>
      rw [Wire.drive]
      split
      · exact sound
      · next s' done => exact ih (lawful.onBody sound done)

theorem drive_append (front back : List Bytes) (s : Driving σ) (h : (w.drive front s).2 = none) :
    w.drive (front ++ back) s = w.drive back (w.drive front s).1 := by
  induction front generalizing s with
  | nil => rfl
  | cons piece front ih =>
      simp only [List.cons_append, Wire.drive] at h ⊢
      cases done : w.onBody piece s with
      | error thrown =>
          rw [done] at h
          cases h
      | ok s' =>
          rw [done] at h
          exact ih s' h

theorem drive_threw {pieces : List Bytes} {thrown : Thrown} (h : w.drive pieces s = (s', some thrown)) :
    ∃ front piece back, pieces = front ++ piece :: back ∧ w.drive front s = (s', none) ∧ w.onBody piece s' = .error thrown := by
  induction pieces generalizing s with
  | nil => cases h
  | cons piece pieces ih =>
      rw [Wire.drive] at h
      cases done : w.onBody piece s with
      | error thrown' =>
          rw [done] at h
          cases h
          exact ⟨[], piece, pieces, rfl, rfl, done⟩
      | ok s₁ =>
          rw [done] at h
          obtain ⟨front, piece', back, rfl, through, refused⟩ := ih h
          refine ⟨piece :: front, piece', back, rfl, ?_, refused⟩
          rw [Wire.drive, done]
          exact through

/-- A piece after the end throws just when it has an event. -/
theorem Lawful.onBody_over (lawful : w.Lawful) (ended : w.done s.translator = true) (piece : Bytes) :
    (∃ thrown, w.onBody piece s = .error thrown) ↔ (s.parser.feed piece).2 ≠ [] := by
  simp only [Wire.onBody]
  cases (s.parser.feed piece).2 with
  | nil => simp [Araya.Llm.collect]
  | cons e events =>
      obtain ⟨thrown, refused⟩ := lawful.ended e.data s.translator ended
      have threw : Araya.Llm.collect (fun e t => w.onEvent e.data t) (e :: events) s.translator = .error thrown := by
        rw [Araya.Llm.collect, refused]
        rfl
      simp [threw]

theorem respond_contract (lawful : w.Lawful) (r : Response) : Contract (w.respond r) ↔ (r.success → w.Quiet r) := by
  by_cases success : r.success
  · have sound := lawful.drive (s := { translator := w.start }) ⟨rfl, .inl ⟨lawful.start, .nil⟩⟩
    rw [respond, if_pos success]
    constructor
    · intro contract _
      constructor
      · intro front piece back split s through ended
        by_contra events
        obtain ⟨thrown, refused⟩ := (lawful.onBody_over ended piece).mpr events
        have given := sound front
        have stopped : w.drive r.pieces { translator := w.start } = (s, some thrown) := by
          rw [split, drive_append _ _ _ (by rw [through]), through, Wire.drive, refused]
        rw [through] at given
        simp only [stopped, Option.map_some, Option.some_or] at contract
        rcases given.given with ⟨live, -⟩ | ⟨-, sent⟩
        · exact absurd (live.symm.trans ended) Bool.false_ne_true
        · exact sent.append contract
      · intro s through ended
        have given := sound r.pieces
        rw [through] at given
        cases ending : r.failure with
        | none => rfl
        | some failure =>
            simp only [through, ending, Option.map_none, Option.none_or] at contract
            rcases given.given with ⟨live, -⟩ | ⟨-, sent⟩
            · exact absurd (live.symm.trans ended) Bool.false_ne_true
            · exact (sent.append contract).elim
    · intro quiet
      have given := sound r.pieces
      cases result : w.drive r.pieces { translator := w.start } with
      | mk s thrown =>
          rw [result] at given
          cases thrown with
          | some thrown =>
              obtain ⟨front, piece, back, split, through, refused⟩ := drive_threw result
              rcases given.given with ⟨-, plain⟩ | ⟨ended, -⟩
              · exact plain.finish rfl
              · have events := (lawful.onBody_over ended piece).mp ⟨thrown, refused⟩
                exact absurd ((quiet success).data front piece back split s through ended) events
          | none =>
              rcases given.given with ⟨live, plain⟩ | ⟨ended, sent⟩
              · cases r.failure with
                | none =>
                    simp only [Option.map_none, Option.none_or, live, Bool.false_eq_true, if_false]
                    exact plain.finish rfl
                | some failure => exact plain.finish rfl
              · have pending : s.pending = [] := given.pending
                rw [(quiet success).ending s result ended]
                simp only [Option.map_none, Option.none_or, ended, if_true, pending, List.append_nil]
                exact sent
  · rw [respond, if_neg success]
    exact ⟨fun _ yes => absurd yes success, fun _ => Plain.nil.finish rfl⟩

/-- The sink gets one finish, at the end, whatever the exchange, exactly when the response is
none of the 2xx or nothing comes after a complete stream: no event in a later piece, no error. -/
theorem stream_contract (lib : BoostJson) (model : String) (x : Exchange) :
    (Contract ((chatWire lib).stream x) ↔ ∀ r, x = .answered r → r.success → (chatWire lib).Quiet r) ∧
    (Contract ((messagesWire lib model).stream x) ↔
      ∀ r, x = .answered r → r.success → (messagesWire lib model).Quiet r) := by
  cases x with
  | failed failure =>
      exact ⟨⟨fun _ _ h => (by cases h), fun _ => Plain.nil.finish rfl⟩, ⟨fun _ _ h => (by cases h), fun _ => Plain.nil.finish rfl⟩⟩
  | answered r =>
      constructor
      · rw [stream, respond_contract (chatWire_lawful lib) r]
        exact ⟨fun quiet _ same => (by cases same; exact quiet), fun quiet => quiet r rfl⟩
      · rw [stream, respond_contract (messagesWire_lawful lib model) r]
        exact ⟨fun quiet _ same => (by cases same; exact quiet), fun quiet => quiet r rfl⟩

/-- The end of a chat stream, then a connection that is lost. -/
def lostAfterDone : Response where
  status := 200
  pieces := [ascii "data: [DONE]\n\n"]
  failure := some { code := .transport, message := "request: connection closed" }

/-- The finish has been sent, and the lost connection is sent as another one. -/
theorem stream_finishes_twice : ¬ ∀ lib x, Contract ((chatWire lib).stream x) := by
  intro contract
  have twice : ((chatWire emptyObjects).stream (.answered lostAfterDone)).map (·.isFinish) = [true, true] := by decide +kernel
  obtain ⟨front, last, same, -, plain⟩ := contract emptyObjects (.answered lostAfterDone)
  rw [same, List.map_append] at twice
  obtain ⟨first, -⟩ := List.append_inj' (show _ = [true] ++ [true] from twice) rfl
  obtain ⟨c, hc, finish⟩ := List.mem_map.mp (first ▸ List.mem_singleton.mpr rfl : true ∈ front.map (·.isFinish))
  rw [plain c hc] at finish
  cases finish

end Wire
end Araya.Llm
