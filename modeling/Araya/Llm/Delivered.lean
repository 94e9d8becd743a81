import Araya.Llm.MessagesTranslator
import Araya.Util.Machine

/-!
The accumulator beside the translators. At every cut of a stream the blocks rebuilt from the
chunks are the blocks that the chat translator holds. The Messages translator may also close its
blocks out of order, and a tool block may start with an input that no chunk carries; while it
does neither, the rebuilt blocks are its own as well.
-/

namespace Araya.Llm
open StepAccumulator (accumulate)

/-- A payload of a chat stream. -/
inductive ChatEvent where
  | data (wire : Json)
  | done

def ChunkTranslator.event (lib : BoostJson) (event : ChatEvent) (t : ChunkTranslator) :
    Except Thrown (ChunkTranslator × List StreamChunk) :=
  match event with
  | .data wire => t.feed lib wire
  | .done => t.finish

/-- A translator and the chunks it has delivered; an event that it refuses ends the stream. -/
def translation {σ ι : Type} (feed : ι → σ → Except Thrown (σ × List StreamChunk)) (start : σ → Prop) :
    System (σ × List StreamChunk) ι where
  start s := start s.1 ∧ s.2 = []
  step s event s' := ∃ chunks, feed event s.1 = .ok (s'.1, chunks) ∧ s'.2 = s.2 ++ chunks

def chatStream (lib : BoostJson) : System (ChunkTranslator × List StreamChunk) ChatEvent :=
  translation (ChunkTranslator.event lib) (· = {})

def messagesStream (lib : BoostJson) : System (MessagesTranslator × List StreamChunk) Json :=
  translation (MessagesTranslator.feed lib) fun t => ∃ model, t = { model }

theorem collect_induct {α σ : Type} {f : α → σ → Except Thrown (σ × List StreamChunk)}
    {P : σ → List StreamChunk → Prop}
    (step : ∀ a s s' front chunks, P s front → f a s = .ok (s', chunks) → P s' (front ++ chunks))
    {as : List α} {s s' : σ} {front chunks : List StreamChunk} (before : P s front)
    (h : collect f as s = .ok (s', chunks)) : P s' (front ++ chunks) := by
  induction as generalizing s front chunks with
  | nil =>
      cases h
      rwa [List.append_nil]
  | cons a as ih =>
      simp only [collect, bind, Except.bind] at h
      split at h
      · cases h
      · next first one =>
          split at h
          · cases h
          · next rest two =>
              cases h
              rw [← List.append_assoc]
              exact ih (step a s _ front _ before one) two

namespace StepAccumulator
variable {acc : StepAccumulator}

theorem accumulate_append (front back : List StreamChunk) :
    accumulate (front ++ back) = back.foldl push (accumulate front) := List.foldl_append

theorem accumulate_concat (front : List StreamChunk) (chunk : StreamChunk) :
    accumulate (front ++ [chunk]) = (accumulate front).push chunk := by
  rw [accumulate_append]
  rfl

theorem find?_start {index : Nat} (kind : ContentBlockType) (fresh : acc.opened.find? index = none) (i : Nat) :
    (acc.push (.blockStart index kind)).opened.find? i = if i = index then some { kind } else acc.opened.find? i := by
  have absent : acc.opened.contains index = false := by rw [SortedMap.contains, fresh]; rfl
  rw [push, absent, if_neg Bool.false_ne_true, SortedMap.find?_insert]

theorem find?_edit (index : Nat) (f : OpenBlock → OpenBlock) (i : Nat) :
    (acc.edit index f).opened.find? i = if i = index then some (f ((acc.opened.find? index).getD {}))
      else acc.opened.find? i := SortedMap.find?_insert ..

theorem find?_start_edit {index : Nat} (kind : ContentBlockType) (fresh : acc.opened.find? index = none)
    (f : OpenBlock → OpenBlock) (i : Nat) : ((acc.push (.blockStart index kind)).edit index f).opened.find? i =
      if i = index then some (f { kind }) else acc.opened.find? i := by
  rw [find?_edit, find?_start kind fresh, find?_start kind fresh, if_pos rfl]
  split <;> rfl

theorem closed_start (acc : StepAccumulator) (index : Nat) (kind : ContentBlockType) : (acc.push (.blockStart index kind)).closed = acc.closed := by
  rw [push]
  split <;> rfl

theorem foldl_blockEnd (ends : List (Nat × ContentBlock)) (acc : StepAccumulator) :
    ((ends.map fun e => .blockEnd e.1 e.2).foldl push acc).closed = acc.closed ++ ends.map Prod.snd ∧
      ∀ i, ((ends.map fun e => .blockEnd e.1 e.2).foldl push acc).opened.find? i =
        if i ∈ ends.map Prod.fst then none else acc.opened.find? i := by
  induction ends generalizing acc with
  | nil => exact ⟨(List.append_nil _).symm, fun i => rfl⟩
  | cons e ends ih =>
      obtain ⟨closed, opened⟩ := ih (acc.push (.blockEnd e.1 e.2))
      simp only [List.map_cons, List.foldl_cons]
      refine ⟨?_, fun i => ?_⟩
      · rw [closed, push, List.append_assoc, List.singleton_append]
      · rw [opened, push, SortedMap.find?_erase]
        simp only [List.mem_cons]
        split_ifs <;> simp_all

/-- What is delivered, when the open blocks are those of a list at their positions. -/
theorem delivered_of_positions {γ : Type} {l : List γ} {f : γ → Option OpenBlock}
    (opened : ∀ i, acc.opened.find? i = l[i]?.bind f) :
    acc.deliveredBlocks = acc.closed ++ l.filterMap fun b => (f b).bind OpenBlock.delivered := by
  rw [deliveredBlocks, ← List.filterMap_filterMap, ← SortedMap.values_of_positions opened, List.filterMap_map]
  rfl

end StepAccumulator

/-! Chat completions -/

def ChunkBlock.toOpen (b : ChunkBlock) : OpenBlock where
  kind := b.kind
  text := b.text
  callId := b.callId
  name := b.name

theorem ChunkBlock.delivered_toOpen (b : ChunkBlock) : b.toOpen.delivered = b.close := rfl

theorem acceptIdentity_kept (current : String) (incoming : Option Json) :
    (if (acceptIdentity current incoming).isEmpty then current else acceptIdentity current incoming) =
      acceptIdentity current incoming := by
  unfold acceptIdentity
  cases incoming.bind Json.ifString with
  | none => exact ite_self _
  | some identity =>
      cases empty : identity.isEmpty with
      | true => simp only [empty, if_true, ite_self]
      | false => simp [empty]

/-- A delta that carries the block's identity and a fragment. -/
theorem ChunkBlock.toOpen_addCall (b : ChunkBlock) (tool : b.kind = .toolCall) (id name : Option Json) (fragment : String) :
    (b.addCall id name fragment).toOpen =
      b.toOpen.addCall (b.addCall id name fragment).callId (b.addCall id name fragment).name fragment := by
  simp only [toOpen, addCall, OpenBlock.addCall, acceptIdentity_kept, tool]

namespace ChunkTranslator
variable {lib : BoostJson} {t t' : ChunkTranslator} {front chunks : List StreamChunk}

/-- The open blocks of the accumulator are the translator's, at their indices. -/
structure Agrees (t : ChunkTranslator) (chunks : List StreamChunk) : Prop where
  running : t.done = false
  reasoning : ∀ p ∈ t.reasoning, p < t.order.length
  text : ∀ p ∈ t.text, p < t.order.length
  tools : ∀ w p, t.toolPosition.find? w = some p → ∃ b, t.order[p]? = some b ∧ b.kind = .toolCall
  closed : (accumulate chunks).closed = []
  opened : ∀ i, (accumulate chunks).opened.find? i = t.order[i]?.map ChunkBlock.toOpen

theorem Agrees.start : ({} : ChunkTranslator).Agrees [] := by
  constructor <;> simp [accumulate]

theorem Agrees.delivered (h : t.Agrees chunks) : (accumulate chunks).deliveredBlocks = t.blocks := by
  have opened : ∀ i, (accumulate chunks).opened.find? i = t.order[i]?.bind fun b => some b.toOpen := by
    intro i
    rw [h.opened]
    cases t.order[i]? <;> rfl
  rw [StepAccumulator.delivered_of_positions opened, h.closed]
  rfl

theorem Agrees.openBlock (h : t.Agrees front) (kind : ContentBlockType) :
    (t.openBlock kind).Agrees (front ++ [.blockStart t.order.length kind]) := by
  have longer : t.order.length ≤ (t.order ++ [({ kind } : ChunkBlock)]).length := by simp
  constructor
  · exact h.running
  · exact fun p hp => Nat.lt_of_lt_of_le (h.reasoning p hp) longer
  · exact fun p hp => Nat.lt_of_lt_of_le (h.text p hp) longer
  · intro w p hp
    obtain ⟨b, hb, tool⟩ := h.tools w p hp
    exact ⟨b, List.getElem?_append_left (List.getElem?_eq_some_iff.mp hb).1 ▸ hb, tool⟩
  · rw [StepAccumulator.accumulate_concat, StepAccumulator.closed_start, h.closed]
  · intro i
    have fresh : (accumulate front).opened.find? t.order.length = none := by simp [h.opened]
    rw [StepAccumulator.accumulate_concat, StepAccumulator.find?_start _ fresh, h.opened]
    simp only [ChunkTranslator.openBlock, List.getElem?_append, List.getElem?_singleton]
    split
    · next same => simp [same, ChunkBlock.toOpen]
    · next other =>
        split
        · rfl
        · next beyond =>
            rw [List.getElem?_eq_none (Nat.not_lt.mp beyond), if_neg (by omega)]

/-- One block grows on both sides. -/
theorem Agrees.edit (h : t.Agrees front) {p : Nat} {b : ChunkBlock} (hb : t.order[p]? = some b) {chunk : StreamChunk}
    {f : OpenBlock → OpenBlock} {g : ChunkBlock → ChunkBlock}
    (pushed : ∀ acc : StepAccumulator, acc.push chunk = acc.edit p f)
    (same : f b.toOpen = (g b).toOpen) (kind : (g b).kind = b.kind) : (t.edit p g).Agrees (front ++ [chunk]) := by
  have long : (t.order.modify p g).length = t.order.length := List.length_modify ..
  constructor
  · exact h.running
  · exact fun p hp => long ▸ h.reasoning p hp
  · exact fun p hp => long ▸ h.text p hp
  · intro w q hq
    obtain ⟨c, hc, tool⟩ := h.tools w q hq
    by_cases at' : p = q
    · subst at'
      cases hb.symm.trans hc
      exact ⟨g b, by simp [ChunkTranslator.edit, hb], kind.trans tool⟩
    · exact ⟨c, by simp [ChunkTranslator.edit, at', hc], tool⟩
  · rw [StepAccumulator.accumulate_concat, pushed]
    exact h.closed
  · intro i
    rw [StepAccumulator.accumulate_concat, pushed, StepAccumulator.find?_edit, h.opened, h.opened]
    split
    · next at' => simp [at', ChunkTranslator.edit, hb, same]
    · next other => simp [ChunkTranslator.edit, Ne.symm other]

theorem Agrees.ensureReasoning (h : t.Agrees front) : (t.ensureReasoning).1.Agrees (front ++ t.ensureReasoning.2.2) ∧
    t.ensureReasoning.2.1 < t.ensureReasoning.1.order.length := by
  simp only [ChunkTranslator.ensureReasoning]
  split
  · next p hp =>
      rw [List.append_nil]
      exact ⟨h, h.reasoning p hp⟩
  · have opened := h.openBlock .reasoning
    refine ⟨⟨opened.running, fun p hp => ?_, opened.text, opened.tools, opened.closed, opened.opened⟩, ?_⟩
    · cases hp
      simp [ChunkTranslator.openBlock]
    · simp [ChunkTranslator.openBlock]

theorem Agrees.ensureText (h : t.Agrees front) : (t.ensureText).1.Agrees (front ++ t.ensureText.2.2) ∧
    t.ensureText.2.1 < t.ensureText.1.order.length := by
  simp only [ChunkTranslator.ensureText]
  split
  · next p hp =>
      rw [List.append_nil]
      exact ⟨h, h.text p hp⟩
  · have opened := h.openBlock .text
    refine ⟨⟨opened.running, opened.reasoning, fun p hp => ?_, opened.tools, opened.closed, opened.opened⟩, ?_⟩
    · cases hp
      simp [ChunkTranslator.openBlock]
    · simp [ChunkTranslator.openBlock]

theorem Agrees.ensureTool (h : t.Agrees front) (w : Nat) : (t.ensureTool w).1.Agrees (front ++ (t.ensureTool w).2.2) ∧
    ∃ b, (t.ensureTool w).1.order[(t.ensureTool w).2.1]? = some b ∧ b.kind = .toolCall := by
  simp only [ChunkTranslator.ensureTool]
  split
  · next p hp =>
      rw [List.append_nil]
      exact ⟨h, h.tools w p hp⟩
  · have opened := h.openBlock .toolCall
    have last : (t.order ++ [({ kind := .toolCall } : ChunkBlock)])[t.order.length]? = some { kind := .toolCall } := by simp
    refine ⟨⟨opened.running, opened.reasoning, opened.text, fun v p hp => ?_, opened.closed, opened.opened⟩, ?_⟩
    · simp only [SortedMap.find?_insert] at hp
      split at hp
      · cases hp
        exact ⟨_, last, rfl⟩
      · exact opened.tools v p hp
    · exact ⟨_, last, rfl⟩

theorem Agrees.applyText (h : t.Agrees front) {ensured : ChunkTranslator × Nat × List StreamChunk}
    (chunk : Nat → String → StreamChunk) (ready : ensured.1.Agrees (front ++ ensured.2.2) ∧ ensured.2.1 < ensured.1.order.length)
    (pushed : ∀ p text, ∀ acc : StepAccumulator, acc.push (chunk p text) = acc.edit p (·.addText text))
    (text : Option String) :
    (t.applyText ensured chunk text).1.Agrees (front ++ (t.applyText ensured chunk text).2) := by
  cases text with
  | none =>
      rw [ChunkTranslator.applyText, List.append_nil]
      exact h
  | some text =>
      simp only [ChunkTranslator.applyText]
      split
      · rw [List.append_nil]
        exact h
      · rw [← List.append_assoc]
        exact ready.1.edit (List.getElem?_eq_getElem ready.2) (pushed _ text) rfl rfl

theorem Agrees.applyToolCall (h : t.Agrees front) {call : Json}
    (done : applyToolCall lib call t = .ok (t', chunks)) : t'.Agrees (front ++ chunks) := by
  simp only [ChunkTranslator.applyToolCall] at done
  split at done
  · cases done
    rw [List.append_nil]
    exact h
  · next o _ =>
      simp only [bind, Except.bind] at done
      split at done
      · cases done
      · next w _ =>
          cases done
          obtain ⟨ready, b, hb, tool⟩ := h.ensureTool w
          rw [← List.append_assoc]
          refine ready.edit hb (f := fun open' => open'.addCall _ _ _) (fun _ => rfl) ?_ ?_
          · simp only [hb, Option.getD_some]
            exact (b.toOpen_addCall tool ..).symm
          · simp only [hb, Option.getD_some]
            rfl

theorem Agrees.applyDelta (h : t.Agrees front) {delta : Json.Members}
    (done : t.applyDelta lib delta = .ok (t', chunks)) : t'.Agrees (front ++ chunks) := by
  have reasoned : (t.applyReasoning delta).1.Agrees (front ++ (t.applyReasoning delta).2) :=
    h.applyText .reasoningDelta h.ensureReasoning (fun _ _ _ => rfl) _
  have said := reasoned.applyText .textDelta reasoned.ensureText (fun _ _ _ => rfl) (Json.stringField delta "content")
  simp only [ChunkTranslator.applyDelta, bind, Except.bind] at done
  split at done
  · cases done
  · next called =>
      cases done
      have calls := collect_induct (P := Agrees) (fun _ _ _ _ _ before done => before.applyToolCall done) said called
      rw [List.append_assoc, List.append_assoc] at calls
      rw [List.append_assoc]
      exact calls

theorem Agrees.applyFinishReason (h : t.Agrees front) (reason : String) : (t.applyFinishReason reason).Agrees front := by
  simp only [ChunkTranslator.applyFinishReason]
  split_ifs <;> exact ⟨h.running, h.reasoning, h.text, h.tools, h.closed, h.opened⟩

theorem Agrees.applyChoice (h : t.Agrees front) {choice : Json}
    (done : applyChoice lib choice t = .ok (t', chunks)) : t'.Agrees (front ++ chunks) := by
  have finished : ∀ {t : ChunkTranslator} {l : List StreamChunk} (reason : Option String), t.Agrees l →
      (reason.elim t t.applyFinishReason).Agrees l := by
    intro t l reason h
    cases reason with
    | none => exact h
    | some reason => exact h.applyFinishReason reason
  simp only [ChunkTranslator.applyChoice] at done
  split at done
  · cases done
    rw [List.append_nil]
    exact h
  · next o _ =>
      cases delta : Json.objectField o "delta" with
      | none =>
          simp only [delta, bind, Except.bind] at done
          cases done
          rw [List.append_nil]
          exact finished _ h
      | some delta' =>
          simp only [delta, bind, Except.bind] at done
          split at done
          · cases done
          · next applied =>
              cases done
              exact finished _ (h.applyDelta applied)

theorem Agrees.feed (h : t.Agrees front) {wire : Json} (done : feed lib wire t = .ok (t', chunks)) :
    t'.Agrees (front ++ chunks) := by
  simp only [ChunkTranslator.feed, h.running, Bool.false_eq_true, if_false] at done
  split at done
  · cases done
  · next o _ =>
      simp only [bind, Except.bind] at done
      split at done
      · cases done
      · next applied =>
          have agrees := collect_induct (P := Agrees) (fun _ _ _ _ _ before done => before.applyChoice done) h applied
          split at done
          · cases done
            exact agrees
          · split at done
            · cases done
            · cases done
              exact ⟨agrees.running, agrees.reasoning, agrees.text, agrees.tools, agrees.closed, agrees.opened⟩

theorem push_finishChunk (acc : StepAccumulator) : (acc.push t.finishChunk).deliveredBlocks = acc.deliveredBlocks := by
  simp only [finishChunk]
  split <;> rfl

theorem finish_delivered (h : t.Agrees front) (done : finish t = .ok (t', chunks)) :
    (accumulate (front ++ chunks)).deliveredBlocks = t'.blocks := by
  simp only [ChunkTranslator.finish, h.running, Bool.false_eq_true, if_false] at done
  cases done
  let ends := t.order.zipIdx.filterMap fun e => e.1.close.map fun block => (e.2, block)
  have listed : t.order.zipIdx.filterMap (fun e => e.1.close.map (StreamChunk.blockEnd e.2)) =
      ends.map fun e => .blockEnd e.1 e.2 := by
    rw [List.map_filterMap]
    refine List.filterMap_congr fun e _ => ?_
    rw [Option.map_map]
    rfl
  have used : ∀ acc : StepAccumulator, ((t.pendingUsage.map StreamChunk.usage).toList.foldl
      StepAccumulator.push acc).deliveredBlocks = acc.deliveredBlocks := by
    intro acc
    cases t.pendingUsage <;> rfl
  obtain ⟨closed, opened⟩ := StepAccumulator.foldl_blockEnd ends (accumulate front)
  rw [listed, StepAccumulator.accumulate_append, List.foldl_append, List.foldl_cons, List.foldl_nil, push_finishChunk,
    List.foldl_append, used]
  have left : ∀ i, (((ends.map fun e => .blockEnd e.1 e.2).foldl StepAccumulator.push (accumulate front)).opened.find? i) =
      t.order[i]?.bind fun b => if b.close.isSome then none else some b.toOpen := by
    intro i
    have ended : i ∈ ends.map Prod.fst ↔ ∃ b, t.order[i]? = some b ∧ b.close.isSome = true := by
      simp only [ends, List.mem_map, List.mem_filterMap, Option.map_eq_some_iff, Option.isSome_iff_exists]
      constructor
      · rintro ⟨_, ⟨⟨b, index⟩, hb, block, hc, rfl⟩, rfl⟩
        exact ⟨b, List.mem_zipIdx_iff_getElem?.mp hb, block, hc⟩
      · rintro ⟨b, hb, block, hc⟩
        exact ⟨(i, block), ⟨(b, i), List.mem_zipIdx_iff_getElem?.mpr hb, block, hc, rfl⟩, rfl⟩
    rw [opened, h.opened]
    cases hb : t.order[i]? with
    | none => exact ite_self _
    | some b =>
        have closes : i ∈ ends.map Prod.fst ↔ b.close.isSome = true := by simp [ended, hb]
        simp only [closes, Option.map_some, Option.bind_some]
  rw [StepAccumulator.delivered_of_positions left, closed, h.closed, List.nil_append]
  have none : (t.order.filterMap fun b => (if b.close.isSome then none else some b.toOpen).bind OpenBlock.delivered) = [] := by
    refine List.filterMap_eq_nil_iff.mpr fun b _ => ?_
    split
    · rfl
    · next dropped => exact Option.not_isSome_iff_eq_none.mp dropped
  have positions : ends.map Prod.snd = t.order.filterMap (·.close) := by
    conv_rhs => rw [← List.zipIdx_map_fst 0 t.order, List.filterMap_map]
    rw [List.map_filterMap]
    exact List.filterMap_congr fun e _ => (by simp [Function.comp_def])
  rw [none, List.append_nil, positions]
  rfl

theorem event_over (ended : t.done = true) {event : ChatEvent} (done : t.event lib event = .ok (t', chunks)) : False := by
  cases event with
  | data wire =>
      rw [ChunkTranslator.event, ChunkTranslator.feed, if_pos ended] at done
      cases done
  | done =>
      rw [ChunkTranslator.event, finish, if_pos ended] at done
      cases done

theorem finish_done (running : t.done = false) (done : finish t = .ok (t', chunks)) : t'.done = true := by
  simp only [finish, running, Bool.false_eq_true, if_false] at done
  cases done
  rfl

/-- At every cut of a chat stream the rebuilt blocks are the translator's. -/
theorem chat_delivered {s : ChunkTranslator × List StreamChunk}
    (reached : (chatStream lib).Reached (fun _ _ => True) s) : (accumulate s.2).deliveredBlocks = s.1.blocks := by
  have stage : s.1.Agrees s.2 ∨ s.1.done = true ∧ (accumulate s.2).deliveredBlocks = s.1.blocks := by
    refine reached.invariant (I := fun s => s.1.Agrees s.2 ∨ s.1.done = true ∧ (accumulate s.2).deliveredBlocks = s.1.blocks)
      ?_ ?_
    · rintro ⟨t, chunks⟩ ⟨rfl, rfl⟩
      exact .inl .start
    · rintro ⟨t, front⟩ event ⟨t', _⟩ _ before ⟨chunks, done, rfl⟩ -
      rcases before with agrees | ⟨ended, -⟩
      · cases event with
        | data wire => exact .inl (agrees.feed done)
        | done => exact .inr ⟨finish_done agrees.running done, finish_delivered agrees done⟩
      · exact (event_over ended done).elim
  exact stage.elim Agrees.delivered And.right

end ChunkTranslator
/-! Messages -/

/-- No tool block starts with an input, and a block stops after those that started before it. -/
def Orderly (t : MessagesTranslator) (event : Json) : Prop := ∀ o, event.ifObject = some o →
  (getString o "type" = "content_block_start" → ∀ block, Json.objectField o "content_block" = some block →
    getString block "type" = "tool_use" → Json.objectField block "input" = none) ∧
  (getString o "type" = "content_block_stop" → ∀ index, blockIndex o = .ok index →
    ∀ p, t.wireIndex.find? (index.getD 0) = some p → ∀ b ∈ t.order.take p, b.closed = true)

namespace MessagesBlock

def toOpen (b : MessagesBlock) : OpenBlock :=
  if b.kind = .toolCall then { kind := .toolCall, text := b.json, callId := b.callId, name := b.name }
  else { kind := b.kind, text := b.text }

theorem delivered_toOpen {b : MessagesBlock} (bare : b.kind = .toolCall → b.text = "") :
    b.toOpen.delivered = b.content := by
  cases kind : b.kind with
  | toolCall => simp [OpenBlock.delivered, content, toOpen, kind, bare kind]
  | _ => simp [OpenBlock.delivered, content, toOpen, kind]

/-- The blocks that are closed, then those that are not. -/
theorem filterMap_content {order : List MessagesBlock}
    (first : (order.map (·.closed)).Pairwise fun a b => b = true → a = true) :
    (order.filter (·.closed)).filterMap (·.content) ++
      order.filterMap (fun b => if b.closed then none else b.content) = order.filterMap (·.content) := by
  induction order with
  | nil => rfl
  | cons b rest ih =>
      obtain ⟨head, tail⟩ := List.pairwise_cons.mp first
      cases closed : b.closed with
      | true =>
          rw [List.filter_cons_of_pos closed]
          simp only [List.filterMap_cons, closed, if_true]
          cases b.content with
          | none => exact ih tail
          | some block => exact congrArg (block :: ·) (ih tail)
      | false =>
          have none : ∀ c ∈ b :: rest, c.closed = false := by
            intro c hc
            rcases List.mem_cons.mp hc with rfl | later
            · exact closed
            · cases open' : c.closed with
              | false => rfl
              | true => exact (head true (List.mem_map.mpr ⟨c, later, open'⟩) rfl).symm.trans closed
          rw [List.filter_eq_nil_iff.mpr fun c hc => (by rw [none c hc]; exact Bool.false_ne_true)]
          exact List.filterMap_congr fun c hc => (by simp [none c hc])

end MessagesBlock

namespace MessagesTranslator
variable {lib : BoostJson} {t t' : MessagesTranslator} {front chunks : List StreamChunk}

structure Agrees (t : MessagesTranslator) (chunks : List StreamChunk) : Prop where
  bare : ∀ b ∈ t.order, b.closed = false → b.kind = .toolCall → b.text = ""
  kinds : ∀ b ∈ t.order, b.kind ≠ .toolResult
  first : (t.order.map (·.closed)).Pairwise fun a b => b = true → a = true
  closed : (accumulate chunks).closed = (t.order.filter (·.closed)).filterMap (·.content)
  opened : ∀ i, (accumulate chunks).opened.find? i = t.order[i]?.bind fun b => if b.closed then none else some b.toOpen

theorem Agrees.delivered (h : t.Agrees chunks) : (accumulate chunks).deliveredBlocks = t.blocks := by
  rw [StepAccumulator.delivered_of_positions h.opened, h.closed, blocks, ← MessagesBlock.filterMap_content h.first]
  refine congrArg (_ ++ ·) (List.filterMap_congr fun b hb => ?_)
  cases closed : b.closed with
  | true => rfl
  | false => exact MessagesBlock.delivered_toOpen (h.bare b hb closed)

theorem Agrees.same (h : t.Agrees front) (order : t'.order = t.order)
    (closed : (accumulate (front ++ chunks)).closed = (accumulate front).closed)
    (opened : (accumulate (front ++ chunks)).opened = (accumulate front).opened) : t'.Agrees (front ++ chunks) := by
  constructor
  · rw [order]; exact h.bare
  · rw [order]; exact h.kinds
  · rw [order]; exact h.first
  · rw [closed, order]; exact h.closed
  · rw [opened, order]; exact h.opened

theorem split_at {l : List MessagesBlock} {p : Nat} {b : MessagesBlock} (hb : l[p]? = some b) :
    l = l.take p ++ b :: l.drop (p + 1) ∧ ∀ b', l.set p b' = l.take p ++ b' :: l.drop (p + 1) := by
  obtain ⟨lt, rfl⟩ := List.getElem?_eq_some_iff.mp hb
  refine ⟨?_, fun b' => ?_⟩
  · rw [List.getElem_cons_drop, List.take_append_drop]
  · rw [List.set_eq_take_append_cons_drop, if_pos lt]

/-- An open block grows on both sides. -/
theorem Agrees.grow (h : t.Agrees front) {p : Nat} {b b' : MessagesBlock} (hb : t.order[p]? = some b)
    (live : b.closed = false) (live' : b'.closed = false) (kind : b'.kind = b.kind)
    (text : b'.kind = .toolCall → b'.text = b.text)
    (closed : (accumulate (front ++ chunks)).closed = (accumulate front).closed)
    (opened : ∀ i, (accumulate (front ++ chunks)).opened.find? i =
      if i = p then some b'.toOpen else (accumulate front).opened.find? i) :
    ({ t with order := t.order.set p b' } : MessagesTranslator).Agrees (front ++ chunks) := by
  have mem := List.mem_of_getElem? hb
  have old : ∀ c ∈ t.order.set p b', c = b' ∨ c ∈ t.order := fun c hc => (List.mem_or_eq_of_mem_set hc).symm
  obtain ⟨before, after⟩ := split_at hb
  constructor
  · intro c hc open' tool
    rcases old c hc with rfl | old
    · exact (text tool).trans (h.bare b mem live (kind ▸ tool))
    · exact h.bare c old open' tool
  · intro c hc
    rcases old c hc with rfl | old
    · exact kind ▸ h.kinds b mem
    · exact h.kinds c old
  · have first := h.first
    rw [before] at first
    rw [after]
    simpa only [List.map_append, List.map_cons, live, live'] using first
  · rw [closed, h.closed, after]
    conv_lhs => rw [before]
    simp only [List.filter_append, List.filter_cons, live, live', Bool.false_eq_true, if_false]
  · intro i
    rw [opened, h.opened, List.getElem?_set]
    split
    · next at' =>
        subst at'
        simp [(List.getElem?_eq_some_iff.mp hb).1, live']
    · next other => rw [if_neg (Ne.symm other)]

/-- A block stops, those before it being closed. -/
theorem Agrees.stop (h : t.Agrees front) {p : Nat} {b : MessagesBlock} {block : ContentBlock}
    (hb : t.order[p]? = some b) (live : b.closed = false) (content : b.content = some block)
    (earlier : ∀ c ∈ t.order.take p, c.closed = true) :
    ({ t with order := t.order.set p { b with closed := true } } : MessagesTranslator).Agrees
      (front ++ [.blockEnd p block]) := by
  have mem := List.mem_of_getElem? hb
  have old : ∀ c ∈ t.order.set p { b with closed := true }, c = { b with closed := true } ∨ c ∈ t.order :=
    fun c hc => (List.mem_or_eq_of_mem_set hc).symm
  obtain ⟨before, after⟩ := split_at hb
  have first := h.first
  rw [before, List.map_append, List.map_cons] at first
  obtain ⟨-, tail, -⟩ := List.pairwise_append.mp first
  obtain ⟨head, rest⟩ := List.pairwise_cons.mp tail
  have later : (t.order.drop (p + 1)).filter (·.closed) = [] := by
    refine List.filter_eq_nil_iff.mpr fun c hc closed => ?_
    have mine := head c.closed (List.mem_map_of_mem hc) closed
    rw [live] at mine
    cases mine
  constructor
  · intro c hc open' tool
    rcases old c hc with rfl | old
    · cases open'
    · exact h.bare c old open' tool
  · intro c hc
    rcases old c hc with rfl | old
    · exact h.kinds b mem
    · exact h.kinds c old
  · rw [after, List.map_append, List.map_cons]
    refine List.pairwise_append.mpr ⟨?_, List.pairwise_cons.mpr ⟨fun _ _ _ => rfl, rest⟩, ?_⟩
    · exact (List.pairwise_append.mp first).1
    · intro a ha _ _ _
      obtain ⟨c, hc, rfl⟩ := List.mem_map.mp ha
      exact earlier c hc
  · rw [StepAccumulator.accumulate_concat, StepAccumulator.push, h.closed, after]
    conv_lhs => rw [before]
    have content' : ({ b with closed := true } : MessagesBlock).content = some block := content
    simp only [List.filter_append, List.filter_cons, live, Bool.false_eq_true, if_false, if_true, later, List.append_nil,
      List.filterMap_append, List.filterMap_cons, content', List.filterMap_nil]
  · intro i
    rw [StepAccumulator.accumulate_concat, StepAccumulator.push, SortedMap.find?_erase, h.opened, List.getElem?_set]
    split
    · next at' =>
        subst at'
        simp [(List.getElem?_eq_some_iff.mp hb).1]
    · next other => rw [if_neg (Ne.symm other)]

theorem startChunks_built {acc : StepAccumulator} {block : MessagesBlock} {index : Nat}
    (fresh : acc.opened.find? index = none) (empty : block.json = "") (kind : block.kind ≠ .toolResult) :
    ((block.startChunks index).foldl StepAccumulator.push acc).closed = acc.closed ∧
      ∀ i, ((block.startChunks index).foldl StepAccumulator.push acc).opened.find? i =
        if i = index then some block.toOpen else acc.opened.find? i := by
  have closed := StepAccumulator.closed_start acc index block.kind
  have start := StepAccumulator.find?_start block.kind fresh
  have grown := StepAccumulator.find?_start_edit block.kind fresh
  simp only [MessagesBlock.startChunks, List.foldl_cons]
  cases same : block.kind with
  | text | reasoning =>
      rw [same] at closed start grown
      cases bare : block.text.isEmpty with
      | true =>
          have built : block.toOpen = { kind := block.kind } := by
            simp [MessagesBlock.toOpen, same, String.isEmpty_iff.mp bare]
          simp only [if_true, List.foldl_nil]
          exact ⟨closed, fun i => by rw [start, built, same]⟩
      | false =>
          have built : block.toOpen = OpenBlock.addText { kind := block.kind } block.text := by
            simp [MessagesBlock.toOpen, same, OpenBlock.addText]
          simp only [Bool.false_eq_true, if_false, List.foldl_cons, List.foldl_nil]
          exact ⟨closed, fun i => by rw [built, same]; exact grown (·.addText block.text) i⟩
  | toolCall =>
      rw [same] at closed grown
      have built : block.toOpen = OpenBlock.addCall { kind := .toolCall } block.callId block.name "" := by
        simp [MessagesBlock.toOpen, same, OpenBlock.addCall, empty]
      simp only [List.foldl_cons, List.foldl_nil]
      exact ⟨closed, fun i => by rw [built]; exact grown (·.addCall block.callId block.name "") i⟩
  | toolResult => exact absurd same kind

/-- A block starts, and its chunks build it. -/
theorem Agrees.begin (h : t.Agrees front) {block : MessagesBlock} (order : t'.order = t.order ++ [block])
    (live : block.closed = false) (bare : block.kind = .toolCall → block.text = "") (kind : block.kind ≠ .toolResult)
    (empty : block.json = "") : t'.Agrees (front ++ block.startChunks t.order.length) := by
  have fresh : (accumulate front).opened.find? t.order.length = none := by simp [h.opened]
  have built : (accumulate (front ++ block.startChunks t.order.length)).closed = (accumulate front).closed ∧
      ∀ i, (accumulate (front ++ block.startChunks t.order.length)).opened.find? i =
        if i = t.order.length then some block.toOpen else (accumulate front).opened.find? i := by
    rw [StepAccumulator.accumulate_append]
    exact startChunks_built fresh empty kind
  obtain ⟨closed, opened⟩ := built
  constructor <;> rw [order]
  · intro c hc open' tool
    rcases List.mem_append.mp hc with old | new
    · exact h.bare c old open' tool
    · cases List.mem_singleton.mp new
      exact bare tool
  · intro c hc
    rcases List.mem_append.mp hc with old | new
    · exact h.kinds c old
    · cases List.mem_singleton.mp new
      exact kind
  · rw [List.map_append]
    refine List.pairwise_append.mpr ⟨h.first, List.pairwise_singleton .., ?_⟩
    intro _ _ b hb closed
    cases List.mem_singleton.mp hb
    exact absurd (live.symm.trans closed) Bool.false_ne_true
  · rw [closed, h.closed, List.filter_append, List.filter_cons_of_neg (by rw [live]; exact Bool.false_ne_true)]
    rw [List.filter_nil, List.append_nil]
  · intro i
    rw [opened, h.opened, List.getElem?_append]
    split
    · next at' => simp [at', live]
    · next other =>
        split
        · rfl
        · next beyond =>
            have far : i - t.order.length ≠ 0 := by omega
            rw [List.getElem?_eq_none (Nat.not_lt.mp beyond), List.getElem?_singleton, if_neg far]

theorem ofContent_ok {o : Json.Members} {block : MessagesBlock} (done : MessagesBlock.ofContent lib o = .ok block) :
    block.closed = false ∧ block.kind ≠ .toolResult ∧ block.json = "" ∧
      (block.kind = .toolCall → getString o "type" = "tool_use" ∧
        block.text = ((Json.objectField o "input").map lib.serialize).getD "") := by
  simp only [MessagesBlock.ofContent] at done
  split at done
  · cases done
    simp
  · split at done
    · cases done
      simp
    · split at done
      · next tool =>
          cases done
          simp [tool]
      · cases done

theorem find?_edit_at {acc : StepAccumulator} {p : Nat} {b : OpenBlock} (found : acc.opened.find? p = some b)
    (f : OpenBlock → OpenBlock) (i : Nat) :
    (acc.edit p f).opened.find? i = if i = p then some (f b) else acc.opened.find? i := by
  rw [StepAccumulator.find?_edit, found]
  rfl

/-- A delta, on both sides. -/
theorem delta_ok {b b' : MessagesBlock} {p : Nat} {value : Json} (done : b.delta p value = .ok (b', chunks)) :
    b'.closed = b.closed ∧ b'.kind = b.kind ∧ (b'.kind = .toolCall → b'.text = b.text) ∧
      ∀ acc : StepAccumulator, acc.opened.find? p = some b.toOpen →
        (chunks.foldl StepAccumulator.push acc).closed = acc.closed ∧
          ∀ i, (chunks.foldl StepAccumulator.push acc).opened.find? i =
            if i = p then some b'.toOpen else acc.opened.find? i := by
  simp only [MessagesBlock.delta] at done
  split at done
  · cases done
  · split at done
    · next text =>
        cases done
        refine ⟨rfl, rfl, fun tool => (by cases text.2.symm.trans tool), fun acc found => ⟨rfl, fun i => ?_⟩⟩
        refine (find?_edit_at found (·.addText _) i).trans ?_
        simp [MessagesBlock.toOpen, text.2, OpenBlock.addText]
    · split at done
      · next thinking =>
          cases done
          refine ⟨rfl, rfl, fun tool => (by cases thinking.2.symm.trans tool), fun acc found => ⟨rfl, fun i => ?_⟩⟩
          refine (find?_edit_at found (·.addText _) i).trans ?_
          simp [MessagesBlock.toOpen, thinking.2, OpenBlock.addText]
      · split at done
        · next signed =>
            cases done
            refine ⟨rfl, rfl, fun _ => rfl, fun acc found => ⟨rfl, fun i => ?_⟩⟩
            simp only [List.foldl_nil]
            split
            · next at' => rw [at', found]; rfl
            · rfl
        · split at done
          · next input =>
              cases done
              refine ⟨rfl, rfl, fun _ => rfl, fun acc found => ⟨rfl, fun i => ?_⟩⟩
              refine (find?_edit_at found (·.addCall _ _ _) i).trans ?_
              simp [MessagesBlock.toOpen, input.2, OpenBlock.addCall]
          · cases done

theorem Agrees.blockDelta (h : t.Agrees front) {o : Json.Members} {index : Nat}
    (done : t.blockDelta o index = .ok (t', chunks)) : t'.Agrees (front ++ chunks) := by
  obtain ⟨p, b, b', value, -, hb, live, grown, rfl⟩ := blockDelta_ok done
  obtain ⟨closed, kind, text, both⟩ := delta_ok grown
  have here : (accumulate front).opened.find? p = some b.toOpen := by
    rw [h.opened, hb]
    simp [live]
  obtain ⟨same, opened⟩ := both (accumulate front) here
  rw [← StepAccumulator.accumulate_append] at same opened
  exact h.grow hb live (closed.trans live) kind text same opened

theorem Agrees.blockStop (h : t.Agrees front) {index : Nat}
    (orderly : ∀ p, t.wireIndex.find? index = some p → ∀ b ∈ t.order.take p, b.closed = true)
    (done : t.blockStop index = .ok (t', chunks)) : t'.Agrees (front ++ chunks) := by
  obtain ⟨p, b, wire, hb, live, rfl, rfl⟩ := blockStop_ok done
  have spoken := h.kinds b (List.mem_of_getElem? hb)
  obtain ⟨block, content⟩ : ∃ block, b.content = some block := by
    unfold MessagesBlock.content
    cases kind : b.kind with
    | toolResult => exact absurd kind spoken
    | _ => exact ⟨_, rfl⟩
  rw [content]
  exact h.stop hb live content (orderly p wire)

theorem Agrees.blockStart (h : t.Agrees front) {o : Json.Members}
    (orderly : ∀ block, Json.objectField o "content_block" = some block →
      getString block "type" = "tool_use" → Json.objectField block "input" = none)
    (done : t.blockStart lib o = .ok (t', chunks)) : t'.Agrees (front ++ chunks) := by
  obtain ⟨content, block, given, made, order, -, rfl⟩ := blockStart_ok done
  obtain ⟨live, kind, empty, tool⟩ := ofContent_ok made
  refine h.begin order live (fun isTool => ?_) kind empty
  rw [(tool isTool).2, orderly content given (tool isTool).1]
  rfl

theorem Agrees.messageStop (h : t.Agrees front) (done : t.messageStop = .ok (t', chunks)) : t'.Agrees (front ++ chunks) := by
  obtain ⟨-, order, -, ⟨-, rfl⟩ | ⟨usage, why, failure, rfl⟩⟩ := messageStop_ok done
  · exact h.same order (by rw [StepAccumulator.accumulate_append]; rfl) (by rw [StepAccumulator.accumulate_append]; rfl)
  · exact h.same order (by rw [StepAccumulator.accumulate_append]; rfl) (by rw [StepAccumulator.accumulate_append]; rfl)

theorem Agrees.feed (h : t.Agrees front) {event : Json} (orderly : Orderly t event)
    (done : feed lib event t = .ok (t', chunks)) : t'.Agrees (front ++ chunks) := by
  have idle : ∀ {t' : MessagesTranslator} {chunks}, t'.order = t.order → chunks = [] → t'.Agrees (front ++ chunks) := by
    rintro t' _ same rfl
    exact h.same same (by rw [List.append_nil]) (by rw [List.append_nil])
  obtain ⟨-, o, object, handled⟩ := feed_ok done
  obtain ⟨start, stop⟩ := orderly o object
  cases handled with
  | messageStart _ done => exact idle (messageStart_ok done).1 (messageStart_ok done).2.2
  | blockStart type done => exact h.blockStart (start type) done
  | blockDelta index _ done => exact h.blockDelta done
  | blockStop index type found done => exact h.blockStop (stop type index found) done
  | messageStop _ done => exact h.messageStop done
  | idle _ _ same none =>
      rcases same with rfl | rfl
      · exact idle rfl none
      · exact idle (messageDelta_same o).1 none

theorem Agrees.start (model : String) : ({ model } : MessagesTranslator).Agrees [] := by
  constructor <;> simp [accumulate]

/-- At every cut of a Messages stream that stays in order the rebuilt blocks are the translator's. -/
theorem messages_delivered {s : MessagesTranslator × List StreamChunk}
    (reached : (messagesStream lib).Reached (fun s event => Orderly s.1 event) s) :
    (accumulate s.2).deliveredBlocks = s.1.blocks := by
  have agrees : s.1.Agrees s.2 := by
    refine reached.invariant (I := fun s => s.1.Agrees s.2) ?_ ?_
    · rintro ⟨t, chunks⟩ ⟨⟨model, rfl⟩, rfl⟩
      exact .start model
    · rintro ⟨t, front⟩ event ⟨t', _⟩ _ before ⟨chunks, done, rfl⟩ orderly
      exact before.feed orderly done
  exact agrees.delivered

end MessagesTranslator

/-- At every cut of a stream the rebuilt blocks are those the translator holds: always for chat
completions, and for Messages while no tool block starts with an input and each block stops
after those that started before it. -/
theorem delivered_agrees (lib : BoostJson) :
    (∀ s, (chatStream lib).Reached (fun _ _ => True) s → (accumulate s.2).deliveredBlocks = s.1.blocks) ∧
    (∀ s, (messagesStream lib).Reached (fun s event => Orderly s.1 event) s →
      (accumulate s.2).deliveredBlocks = s.1.blocks) :=
  ⟨fun _ reached => ChunkTranslator.chat_delivered reached, fun _ reached => MessagesTranslator.messages_delivered reached⟩

def MessagesTranslator.next (lib : BoostJson) (s : MessagesTranslator × List StreamChunk) (event : Json) :
    Option (MessagesTranslator × List StreamChunk) :=
  match s.1.feed lib event with
  | .ok (t, chunks) => some (t, s.2 ++ chunks)
  | .error _ => none

theorem MessagesTranslator.next_step {lib : BoostJson} {s s' : MessagesTranslator × List StreamChunk} {event : Json}
    (h : MessagesTranslator.next lib s event = some s') : (messagesStream lib).step s event s' := by
  unfold next at h
  split at h
  · next done =>
      cases h
      exact ⟨_, done, rfl⟩
  · cases h

/-- `Orderly`, computed. -/
def orderly? (t : MessagesTranslator) (event : Json) : Bool :=
  event.ifObject.all fun o =>
    (getString o "type" != "content_block_start" || (Json.objectField o "content_block").all fun block =>
      getString block "type" != "tool_use" || (Json.objectField block "input").isNone) &&
    (getString o "type" != "content_block_stop" || match blockIndex o with
      | .ok index => (t.wireIndex.find? (index.getD 0)).all fun p => (t.order.take p).all (·.closed)
      | .error _ => true)

theorem orderly_of_check {t : MessagesTranslator} {event : Json} (h : orderly? t event = true) : Orderly t event := by
  intro o ho
  rw [orderly?, ho, Option.all_some] at h
  obtain ⟨start, stop⟩ := Bool.and_eq_true_iff.mp h
  refine ⟨fun type block hb tool => ?_, fun type index hi p hp => ?_⟩
  · simpa [type, hb, tool] using start
  · simpa [type, hi, hp] using stop

/-- A library that serializes an empty object as it is written. -/
def emptyObjects : BoostJson where
  parse _ := none
  serialize _ := "\x7b\x7d"
  toInt n := n.ifInt.elim (.error "not a number") .ok
  toUint n := n.optUint.elim (.error "not a number") .ok
  noMember := "out of range"

def messageStarts : Json := .obj [("type", .str "message_start")]

def blockStarts (index : Int) (content : Json.Members) : Json :=
  .obj [("type", .str "content_block_start"), ("index", .int index), ("content_block", .obj content)]

def toolStarts (index : Int) (input : Json.Members) : Json :=
  blockStarts index ([("type", .str "tool_use"), ("id", .str "c1"), ("name", .str "read")] ++ input)

/-- A text and a tool call without an input, cut while both are open. -/
theorem delivered_agrees_open : ∃ s : MessagesTranslator × List StreamChunk, s.1.blocks.length = 2 ∧
    (accumulate s.2).deliveredBlocks = s.1.blocks := by
  have played : (System.follow (MessagesTranslator.next emptyObjects) (fun s event => orderly? s.1 event) ({}, [])
      [messageStarts, blockStarts 0 [("type", .str "text"), ("text", .str "hi")], toolStarts 1 []]).any
      (·.1.blocks.length == 2) = true := by decide +kernel
  obtain ⟨s, hs, two⟩ := (Option.any_eq_true _ _).mp played
  have reached := System.follow_reached (S := messagesStream emptyObjects) (P := fun s event => Orderly s.1 event)
    (fun _ _ _ => MessagesTranslator.next_step) (fun _ _ => orderly_of_check) hs (.start ⟨⟨"", rfl⟩, rfl⟩)
  exact ⟨s, eq_of_beq two, (delivered_agrees emptyObjects).2 s reached⟩

/-- A tool block starts with an empty input, and the stream is cut: no chunk has carried it. -/
theorem delivered_drops : ¬ ∀ lib s, (messagesStream lib).Reached (fun _ _ => True) s →
    (accumulate s.2).deliveredBlocks = s.1.blocks := by
  intro agrees
  have played : (System.follow (MessagesTranslator.next emptyObjects) (fun _ _ => true) ({}, [])
      [messageStarts, toolStarts 0 [("input", .obj [])]]).any
      (fun s => toolCallsOf (accumulate s.2).deliveredBlocks != toolCallsOf s.1.blocks) = true := by decide +kernel
  obtain ⟨s, hs, differ⟩ := (Option.any_eq_true _ _).mp played
  have reached := System.follow_reached (S := messagesStream emptyObjects) (P := fun _ _ => True)
    (fun _ _ _ => MessagesTranslator.next_step) (fun _ _ _ => trivial) hs (.start ⟨⟨"", rfl⟩, rfl⟩)
  rw [agrees emptyObjects s reached] at differ
  simp at differ

end Araya.Llm
