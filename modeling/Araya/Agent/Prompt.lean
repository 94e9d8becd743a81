import Araya.Agent.Loop
import Araya.Llm.Messages
import Mathlib.Data.List.InsertIdx
import Mathlib.Data.List.Nodup
import Mathlib.Data.List.Perm.Basic

/-!
The surface of a loop's log, and how the loop writes its system prompt to it:
the first prompt is appended, a later one is appended after the history or takes
the place of the nodes before it. Either way the conversation between the system
nodes stays as it was.
-/

namespace Araya.Agent

open Sessions (Surface Message)

/-- The event as the session records it; its number is its place in the log. -/
def LoopEvent.record (e : LoopEvent) (seq : Nat) : Sessions.Event := { seq, type := e.type, data := e.data }

def applyEvent (s : Surface) (e : LoopEvent × Nat) : Surface :=
  s.apply e.2 (Sessions.foldBuiltin (e.1.record e.2))

/-- `session.surface()`, with no projection registered. -/
def surfaceOf (log : Log) : Surface := log.zipIdx.foldl applyEvent {}

/-- The messages of `build_generate`. -/
def transcript (log : Log) : List Llm.LlmMessage := (surfaceOf log).messages.map Llm.toLlmMessage

theorem surfaceOf_concat (log : Log) (e : LoopEvent) :
    surfaceOf (log ++ [e]) = applyEvent (surfaceOf log) (e, log.length) := by
  simp [surfaceOf, List.zipIdx_append]

theorem surfaceOf_append (log events : Log) :
    surfaceOf (log ++ events) = (events.zipIdx log.length).foldl applyEvent (surfaceOf log) := by
  simp [surfaceOf, List.zipIdx_append]

/-! `commit_system_prompt` -/

def messageText (m : Message) : String := String.join ((m.content.ifArray.getD []).map Llm.innerText)

/-- The surviving agent-loop system nodes in surface order. -/
def promptNodes (s : Surface) : List (Nat × String) :=
  (s.messages.zip s.sourceSeqs).filterMap fun n =>
    if n.1.role = .system ∧ n.1.sourcePlugin = some "agent-loop" then some (n.2, messageText n.1) else none

/-- `append_prompt`, as the event number `seq`. -/
def appendPrompt (seq : Nat) (text : String) : LoopEvent :=
  .other "system/message" (Llm.systemMessageData ("s" ++ toString seq) "agent-loop" text)

def systemPayload (seq : Nat) (text : String) : Json :=
  .obj [("id", .str ("s" ++ toString seq)), ("role", .str "system"), ("content", Llm.textContent text),
    ("source", .obj [("kind", .str "plugin"), ("plugin", .str "agent-loop")])]

def rewriteNode (target : Nat) (payload : Option Json) : LoopEvent :=
  .other "surface/replace" (.obj ([("start_seq", .int target), ("end_seq", .int (target + 1))] ++
    (payload.map fun p => ("message", p)).toList))

/-- What `commit_system_prompt` appends, to the end of the log. -/
def commitSystemPrompt (log : Log) (rendered : String) (inHistory startsSeries : Bool) : List LoopEvent :=
  match promptNodes (surfaceOf log) with
  | [] => if rendered.isEmpty then [] else [appendPrompt log.length rendered]
  | first :: others =>
    if !inHistory || startsSeries || rendered.isEmpty then
      (others.map fun n => rewriteNode n.1 none) ++
        if rendered.isEmpty then [rewriteNode first.1 none]
        else if first.2 ≠ rendered then
          [rewriteNode first.1 (some (systemPayload (log.length + others.length) rendered))]
        else []
    else if ((first :: others).getLastD first).2 ≠ rendered then [appendPrompt log.length rendered]
    else []

/-! The conversation -/

def spoken (s : Surface) : List Message := s.messages.filter (·.role ≠ .system)

/-- Each node has its own number, and the log is past all of them. -/
structure Numbered (s : Surface) (next : Nat) : Prop where
  even : s.messages.length = s.sourceSeqs.length
  own : s.sourceSeqs.Nodup
  past : ∀ q ∈ s.sourceSeqs, q < next

/-- Every node of number `q` is a system prompt. -/
def SystemNode (s : Surface) (q : Nat) : Prop := ∀ n ∈ s.messages.zip s.sourceSeqs, n.2 = q → n.1.role = .system

/-- Only system prompts differ, and those that are new say something. -/
structure Prompted (s s' : Surface) : Prop where
  spoken : spoken s' = spoken s
  texts : ∀ m ∈ s'.messages, m.role = .system → m ∈ s.messages ∨ Llm.joinText (Llm.toLlmMessage m) ≠ ""

theorem Prompted.refl (s : Surface) : Prompted s s := ⟨rfl, fun _ hm _ => .inl hm⟩

theorem Prompted.trans {s s' s'' : Surface} (h : Prompted s s') (h' : Prompted s' s'') : Prompted s s'' := by
  refine ⟨h'.spoken.trans h.spoken, fun m hm hr => ?_⟩
  exact (h'.texts m hm hr).elim (fun hold => h.texts m hold hr) .inr

/-! A rewrite of the surface -/

theorem outside_eq_filter (start stop : Nat) (nodes : List (Message × Nat)) (write : Nat) :
    (Surface.outside start stop nodes write).1 = nodes.filter fun n => ¬ (start ≤ n.2 ∧ n.2 < stop) := by
  induction nodes generalizing write with
  | nil => rfl
  | cons n ns ih =>
      rw [Surface.outside, List.filter_cons]
      by_cases h : start ≤ n.2 ∧ n.2 < stop
      · simp only [h, and_self, if_true, not_true, decide_false, Bool.false_eq_true, if_false]
        exact ih write
      · simp only [h, if_false, not_false_eq_true, decide_true, if_true, List.cons.injEq, true_and]
        exact ih (write + 1)

theorem filter_insertIdx {α : Type} {p : α → Bool} {x : α} (hx : p x = false) (l : List α) (k : Nat) :
    (l.insertIdx k x).filter p = l.filter p := by
  induction l generalizing k with
  | nil => cases k <;> simp [hx]
  | cons a l ih => cases k <;> simp [List.filter_cons, hx, ih]

theorem nodup_insertIdx {α : Type} {l : List α} {x : α} (h : l.Nodup) (hx : x ∉ l) (k : Nat) :
    (l.insertIdx k x).Nodup := by
  by_cases hk : k ≤ l.length
  · exact (List.perm_insertIdx x l hk).nodup_iff.mpr (List.nodup_cons.mpr ⟨hx, h⟩)
  · rw [List.insertIdx_of_length_lt (Nat.lt_of_not_le hk)]
    exact h

theorem zip_fst_snd (nodes : List (Message × Nat)) : (nodes.map Prod.fst).zip (nodes.map Prod.snd) = nodes := by
  rw [List.zip_map', List.map_id'']
  exact fun _ => rfl

section
variable {s s' : Surface} {next target : Nat}

theorem Numbered.messages (h : Numbered s next) : s.messages = (s.messages.zip s.sourceSeqs).map Prod.fst :=
  (List.map_fst_zip h.even.le).symm

theorem Numbered.seqs (h : Numbered s next) : s.sourceSeqs = (s.messages.zip s.sourceSeqs).map Prod.snd :=
  (List.map_snd_zip h.even.ge).symm

theorem Numbered.later (h : Numbered s next) : Numbered s (next + 1) :=
  ⟨h.even, h.own, fun q hq => Nat.lt_succ_of_lt (h.past q hq)⟩

theorem Numbered.push (h : Numbered s next) (m : Message) : Numbered (s.push next m) (next + 1) := by
  refine ⟨by simp [Surface.push, h.even], ?_, ?_⟩
  · refine List.nodup_append.mpr ⟨h.own, by simp, fun a ha b hb => ?_⟩
    rw [List.mem_singleton.mp hb]
    exact (h.past a ha).ne
  · intro q hq
    rcases List.mem_append.mp hq with hold | hnew
    · exact Nat.lt_succ_of_lt (h.past q hold)
    · rw [List.mem_singleton.mp hnew]
      exact Nat.lt_succ_self next

/-- The nodes after a rewrite: those outside its span, and its message. -/
theorem replace_nodes (s : Surface) (start stop seq : Nat) (msg : Option Message) :
    ∃ k, (s.replace start stop seq msg).messages.zip (s.replace start stop seq msg).sourceSeqs =
      match msg with
      | none => (s.messages.zip s.sourceSeqs).filter fun n => ¬ (start ≤ n.2 ∧ n.2 < stop)
      | some m => ((s.messages.zip s.sourceSeqs).filter fun n => ¬ (start ≤ n.2 ∧ n.2 < stop)).insertIdx k
          (m, seq) := by
  have rest := outside_eq_filter start stop (s.messages.zip s.sourceSeqs) 0
  cases msg with
  | none => exact ⟨0, by simp only [Surface.replace, zip_fst_snd, rest]⟩
  | some m => exact ⟨_, by simp only [Surface.replace, zip_fst_snd, rest]; rfl⟩

theorem mem_replace {start stop seq : Nat} {msg : Option Message} {n : Message × Nat}
    (h : n ∈ (s.replace start stop seq msg).messages.zip (s.replace start stop seq msg).sourceSeqs) :
    n ∈ s.messages.zip s.sourceSeqs ∨ ∃ m, msg = some m ∧ n = (m, seq) := by
  obtain ⟨k, hk⟩ := replace_nodes s start stop seq msg
  rw [hk] at h
  cases msg with
  | none => exact .inl (List.mem_of_mem_filter h)
  | some m =>
      rcases List.eq_or_mem_of_mem_insertIdx h with rfl | hold
      · exact .inr ⟨m, rfl, rfl⟩
      · exact .inl (List.mem_of_mem_filter hold)

theorem Numbered.replace (h : Numbered s next) (start stop : Nat) (msg : Option Message) :
    Numbered (s.replace start stop next msg) (next + 1) := by
  have past : ∀ n ∈ s.messages.zip s.sourceSeqs, n.2 < next := by
    intro n hn
    exact h.past n.2 (by rw [h.seqs]; exact List.mem_map_of_mem hn)
  obtain ⟨k, hk⟩ := replace_nodes s start stop next msg
  have even : (s.replace start stop next msg).messages.length =
      (s.replace start stop next msg).sourceSeqs.length := by simp [Surface.replace]
  have seqs := (List.map_snd_zip even.ge).symm
  refine ⟨even, ?_, ?_⟩
  · rw [seqs, hk]
    have kept : (((s.messages.zip s.sourceSeqs).filter fun n => ¬ (start ≤ n.2 ∧ n.2 < stop)).map
        Prod.snd).Nodup := by
      refine List.Nodup.sublist (List.Sublist.map _ List.filter_sublist) ?_
      rw [← h.seqs]
      exact h.own
    cases msg with
    | none => exact kept
    | some m =>
        rw [List.map_insertIdx]
        refine nodup_insertIdx kept (fun hmem => ?_) k
        obtain ⟨n, hn, hq⟩ := List.mem_map.mp hmem
        exact (past n (List.mem_of_mem_filter hn)).ne hq
  · intro q hq
    rw [seqs] at hq
    obtain ⟨n, hn, rfl⟩ := List.mem_map.mp hq
    rcases mem_replace hn with hold | ⟨m, _, rfl⟩
    · exact Nat.lt_succ_of_lt (past n hold)
    · exact Nat.lt_succ_self next

theorem spoken_of_zip (even : s.messages.length = s.sourceSeqs.length) :
    spoken s = ((s.messages.zip s.sourceSeqs).filter (·.1.role ≠ .system)).map Prod.fst := by
  conv_lhs => rw [spoken, ← List.map_fst_zip even.le, List.filter_map]
  rfl

/-- A rewrite of a system node by a system prompt, or by nothing. -/
theorem Prompted.replace (h : Numbered s next) (node : SystemNode s target) {msg : Option Message}
    (system : ∀ m, msg = some m → m.role = .system ∧ Llm.joinText (Llm.toLlmMessage m) ≠ "") :
    Prompted s (s.replace target (target + 1) next msg) := by
  have even := (h.replace target (target + 1) msg).even
  constructor
  · rw [spoken_of_zip even, spoken_of_zip h.even]
    refine congrArg _ ?_
    have kept : ((s.messages.zip s.sourceSeqs).filter fun n => ¬ (target ≤ n.2 ∧ n.2 < target + 1)).filter
        (·.1.role ≠ .system) = (s.messages.zip s.sourceSeqs).filter (·.1.role ≠ .system) := by
      rw [List.filter_filter]
      refine List.filter_congr fun n hn => ?_
      have own := node n hn
      by_cases hr : n.1.role = .system
      · simp [hr]
      · have other : ¬ (target ≤ n.2 ∧ n.2 < target + 1) := fun hb => hr (own (by omega))
        exact congrArg _ (decide_eq_true other) |>.trans (Bool.and_true _)
    obtain ⟨k, hk⟩ := replace_nodes s target (target + 1) next msg
    rw [hk]
    cases msg with
    | none => exact kept
    | some m => exact (filter_insertIdx (by simp [(system m rfl).1]) _ k).trans kept
  · intro m hm _
    rw [(h.replace target (target + 1) msg).messages] at hm
    obtain ⟨n, hn, rfl⟩ := List.mem_map.mp hm
    rcases mem_replace hn with hold | ⟨m, rfl, rfl⟩
    · exact .inl (List.of_mem_zip hold).1
    · exact .inr (system m rfl).2

theorem SystemNode.replace (h : SystemNode s target) {start stop seq : Nat} {msg : Option Message}
    (system : ∀ m, msg = some m → m.role = .system) : SystemNode (s.replace start stop seq msg) target := by
  intro n hn hq
  rcases mem_replace hn with hold | ⟨m, rfl, rfl⟩
  · exact h n hold hq
  · exact system m rfl

end

/-! The writes of the prompt -/

/-- An event that the prompt writes to a surface whose log has `next` events. -/
inductive PromptWrite (s : Surface) (next : Nat) : LoopEvent → Prop
  | append {text : String} : text ≠ "" → PromptWrite s next (appendPrompt next text)
  | drop {target : Nat} : SystemNode s target → target < next → PromptWrite s next (rewriteNode target none)
  | rewrite {target : Nat} {text : String} : SystemNode s target → target < next → text ≠ "" →
      PromptWrite s next (rewriteNode target (some (systemPayload next text)))

theorem joinText_textContent {role : Sessions.MessageRole} {id text : String} {call plugin : Option String}
    {source : Option Json} : Llm.joinText (Llm.toLlmMessage
      { role, id, content := Llm.textContent text, toolCallId := call, sourcePlugin := plugin, source }) =
      text := by
  simp [Llm.joinText, Llm.toLlmMessage, Llm.textContent, Llm.blocksOfJson, Llm.blockOfJson, Llm.getString,
    Json.stringField, Llm.blockText, String.join]

theorem toSeq_of_lt {n : Nat} (h : n < 2 ^ 63) : Sessions.toSeq n = n := by
  simp only [Sessions.toSeq]
  omega

section
variable {s : Surface} {next : Nat} {e : LoopEvent}

theorem applyEvent_appendPrompt (s : Surface) (size next : Nat) (text : String) :
    applyEvent s (appendPrompt size text, next) = s.push next {
      role := .system, id := "s" ++ toString size, content := Llm.textContent text
      sourcePlugin := some "agent-loop"
      source := some (.obj [("kind", .str "plugin"), ("plugin", .str "agent-loop")]) } := by
  simp [applyEvent, appendPrompt, LoopEvent.record, LoopEvent.type, LoopEvent.data, Sessions.foldBuiltin,
    Sessions.messageObject, Llm.systemMessageData, Json.objectField, Json.stringField,
    Sessions.plainMessage, Sessions.appendPlan, Surface.apply, Sessions.sourcePlugin]

theorem applyEvent_rewriteNode (s : Surface) {target next : Nat} (small : target + 1 < 2 ^ 63)
    (payload : Option Json) :
    applyEvent s (rewriteNode target payload, next) = s.replace target (target + 1) next
      (payload.bind fun p => p.ifObject.bind fun msg => (Json.stringField msg "role").bind fun role =>
        (Sessions.parseRole role).bind fun parsed =>
          Sessions.plainMessage parsed msg none (Sessions.sourcePlugin msg)) := by
  have start := toSeq_of_lt (n := target) (by omega)
  have stop := toSeq_of_lt small
  rw [Nat.cast_add, Nat.cast_one] at stop
  cases payload with
  | none =>
      simp [applyEvent, rewriteNode, LoopEvent.record, LoopEvent.type, LoopEvent.data, Sessions.foldBuiltin,
        Sessions.foldReplace, Json.intField, Sessions.replacement, Json.objectField, Surface.apply, start, stop]
  | some p =>
      simp [applyEvent, rewriteNode, LoopEvent.record, LoopEvent.type, LoopEvent.data, Sessions.foldBuiltin,
        Sessions.foldReplace, Json.intField, Sessions.replacement, Json.objectField, Surface.apply, start, stop]

theorem rewritten_payload (seq : Nat) (text : String) : (Json.ifObject (systemPayload seq text)).bind (fun msg =>
    (Json.stringField msg "role").bind fun role => (Sessions.parseRole role).bind fun parsed =>
      Sessions.plainMessage parsed msg none (Sessions.sourcePlugin msg)) = some {
        role := .system, id := "s" ++ toString seq, content := Llm.textContent text
        sourcePlugin := some "agent-loop"
        source := some (.obj [("kind", .str "plugin"), ("plugin", .str "agent-loop")]) } := by
  simp [systemPayload, Json.stringField, Sessions.parseRole, Sessions.plainMessage, Sessions.sourcePlugin,
    Json.objectField]

/-- What a write of the prompt does to the surface. -/
theorem PromptWrite.applied (h : PromptWrite s next e) (small : next < 2 ^ 63) :
    (∃ m, applyEvent s (e, next) = s.push next m ∧ m.role = .system ∧
      Llm.joinText (Llm.toLlmMessage m) ≠ "") ∨
    ∃ target msg, SystemNode s target ∧ applyEvent s (e, next) = s.replace target (target + 1) next msg ∧
      ∀ m, msg = some m → m.role = .system ∧ Llm.joinText (Llm.toLlmMessage m) ≠ "" := by
  cases h with
  | append text =>
      refine .inl ⟨_, applyEvent_appendPrompt s next next _, rfl, ?_⟩
      rw [joinText_textContent]
      exact text
  | drop node past => exact .inr ⟨_, _, node, applyEvent_rewriteNode s (by omega) none, by simp⟩
  | rewrite node past text =>
      refine .inr ⟨_, _, node, applyEvent_rewriteNode s (by omega) _, fun m hm => ?_⟩
      rw [Option.bind_some, rewritten_payload] at hm
      cases hm
      refine ⟨rfl, ?_⟩
      rw [joinText_textContent]
      exact text

theorem spoken_push_system {m : Message} (h : m.role = .system) : spoken (s.push next m) = spoken s := by
  simp [spoken, Surface.push, h]

theorem Prompted.push {m : Message} (system : m.role = .system)
    (text : Llm.joinText (Llm.toLlmMessage m) ≠ "") : Prompted s (s.push next m) := by
  refine ⟨spoken_push_system system, fun m' hm _ => ?_⟩
  rcases List.mem_append.mp hm with hold | hnew
  · exact .inl hold
  · rw [List.mem_singleton.mp hnew]
    exact .inr text

theorem SystemNode.push (num : Numbered s next) {m : Message} (system : m.role = .system) {q : Nat}
    (h : SystemNode s q) : SystemNode (s.push next m) q := by
  intro n hn hq
  rw [Surface.push, List.zip_append num.even] at hn
  rcases List.mem_append.mp hn with hold | hnew
  · exact h n hold hq
  · rw [List.mem_singleton.mp hnew]
    exact system

theorem PromptWrite.prompted (h : PromptWrite s next e) (num : Numbered s next) (small : next < 2 ^ 63) :
    Prompted s (applyEvent s (e, next)) := by
  rcases h.applied small with ⟨m, he, system, text⟩ | ⟨target, msg, node, he, system⟩
  · rw [he]
    exact .push system text
  · rw [he]
    exact .replace num node system

theorem PromptWrite.numbered (h : PromptWrite s next e) (num : Numbered s next) (small : next < 2 ^ 63) :
    Numbered (applyEvent s (e, next)) (next + 1) := by
  rcases h.applied small with ⟨m, he, _⟩ | ⟨target, msg, _, he, _⟩
  · rw [he]
    exact num.push m
  · rw [he]
    exact num.replace target (target + 1) msg

theorem PromptWrite.systemNode (h : PromptWrite s next e) (num : Numbered s next) (small : next < 2 ^ 63)
    {q : Nat} (node : SystemNode s q) : SystemNode (applyEvent s (e, next)) q := by
  rcases h.applied small with ⟨m, he, system, _⟩ | ⟨target, msg, _, he, system⟩
  · rw [he]
    exact node.push num system
  · rw [he]
    exact node.replace fun m hm => (system m hm).1

end

/-- The events are written one after the other. -/
def PromptWrites (s : Surface) (next : Nat) : List LoopEvent → Prop
  | [] => True
  | e :: es => PromptWrite s next e ∧ PromptWrites (applyEvent s (e, next)) (next + 1) es

section
variable {s : Surface} {next : Nat} {events : List LoopEvent}

theorem PromptWrites.take (h : PromptWrites s next events) {written : List LoopEvent} (pre : written <+: events) :
    PromptWrites s next written := by
  induction events generalizing s next written with
  | nil => rw [List.prefix_nil.mp pre]; trivial
  | cons e es ih =>
      cases written with
      | nil => trivial
      | cons w ws =>
          obtain ⟨rfl, others⟩ := List.cons_prefix_cons.mp pre
          exact ⟨h.1, ih h.2 others⟩

theorem PromptWrites.prompted (h : PromptWrites s next events) (num : Numbered s next)
    (small : next + events.length ≤ 2 ^ 63) :
    Prompted s ((events.zipIdx next).foldl applyEvent s) ∧
      Numbered ((events.zipIdx next).foldl applyEvent s) (next + events.length) := by
  induction events generalizing s next with
  | nil => exact ⟨.refl s, num⟩
  | cons e es ih =>
      rw [List.length_cons] at small
      obtain ⟨prompted, numbered⟩ := ih h.2 (h.1.numbered num (by omega)) (by omega)
      refine ⟨(h.1.prompted num (by omega)).trans prompted, ?_⟩
      rw [List.length_cons, show next + (es.length + 1) = next + 1 + es.length by omega]
      exact numbered

/-- The removal of system nodes, and then what is written over the rest. -/
theorem promptWrites_drops {targets : List Nat} (num : Numbered s next)
    (nodes : ∀ t ∈ targets, SystemNode s t ∧ t < next) {q : Nat} (node : SystemNode s q) (past : q < next)
    (rest : ∀ s', SystemNode s' q → PromptWrites s' (next + targets.length) events) {written : List LoopEvent}
    (pre : written <+: (targets.map fun t => rewriteNode t none) ++ events)
    (small : next + written.length ≤ 2 ^ 63) : PromptWrites s next written := by
  induction targets generalizing s next written with
  | nil => exact (rest s node).take pre
  | cons t ts ih =>
      rw [List.length_cons] at rest
      cases written with
      | nil => trivial
      | cons w ws =>
          obtain ⟨rfl, others⟩ := List.cons_prefix_cons.mp pre
          rw [List.length_cons] at small
          obtain ⟨own, nodes⟩ := List.forall_mem_cons.mp nodes
          have drop : PromptWrite s next (rewriteNode t none) := .drop own.1 own.2
          refine ⟨drop, ih (drop.numbered num (by omega)) (fun u hu => ?_) ?_ (by omega) ?_ others (by omega)⟩
          · exact ⟨drop.systemNode num (by omega) (nodes u hu).1, Nat.lt_succ_of_lt (nodes u hu).2⟩
          · exact drop.systemNode num (by omega) node
          · intro s' hs'
            rw [show next + 1 + ts.length = next + (ts.length + 1) by omega]
            exact rest s' hs'

theorem promptNodes_system (num : Numbered s next) {n : Nat × String} (h : n ∈ promptNodes s) :
    SystemNode s n.1 ∧ n.1 < next := by
  obtain ⟨node, hnode, hn⟩ := List.mem_filterMap.mp h
  split at hn
  · next system =>
      cases hn
      refine ⟨fun other hother same => ?_, num.past _ (List.of_mem_zip hnode).2⟩
      have nodup : ((s.messages.zip s.sourceSeqs).map Prod.snd).Nodup := by
        rw [← num.seqs]
        exact num.own
      rw [List.inj_on_of_nodup_map nodup hother hnode same]
      exact system.1
  · cases hn

end

/-- Every event of `commit_system_prompt` is a write of the prompt, also where an
append cuts it short. -/
theorem commitSystemPrompt_writes {log : Log} (num : Numbered (surfaceOf log) log.length) {rendered : String}
    {inHistory startsSeries : Bool} {written : List LoopEvent}
    (pre : written <+: commitSystemPrompt log rendered inHistory startsSeries)
    (small : log.length + written.length ≤ 2 ^ 63) : PromptWrites (surfaceOf log) log.length written := by
  have nodes : ∀ n ∈ promptNodes (surfaceOf log), SystemNode (surfaceOf log) n.1 ∧ n.1 < log.length :=
    fun n hn => promptNodes_system num hn
  unfold commitSystemPrompt at pre
  cases hp : promptNodes (surfaceOf log) with
  | nil =>
      refine PromptWrites.take ?_ pre
      simp only [hp]
      split
      · trivial
      · next text => exact ⟨.append (by simpa using text), trivial⟩
  | cons first others =>
      rw [hp] at nodes pre
      obtain ⟨head, tail⟩ := List.forall_mem_cons.mp nodes
      simp only at pre
      split at pre
      · next whole =>
          have drops : others.map (fun n => rewriteNode n.1 none) =
              (others.map Prod.fst).map fun t => rewriteNode t none := by rw [List.map_map]; rfl
          rw [drops] at pre
          refine promptWrites_drops num ?_ head.1 head.2 (fun s' hs' => ?_) pre small
          · intro t ht
            obtain ⟨n, hn, rfl⟩ := List.mem_map.mp ht
            exact tail n hn
          · rw [List.length_map]
            have past : first.1 < log.length + others.length := Nat.lt_add_right _ head.2
            split
            · exact ⟨.drop hs' past, trivial⟩
            · next text =>
                split
                · exact ⟨.rewrite hs' past (by simpa using text), trivial⟩
                · trivial
      · next text =>
          have text : rendered ≠ "" := by rintro rfl; simp at text
          refine PromptWrites.take ?_ pre
          split
          · exact ⟨.append text, trivial⟩
          · trivial

end Araya.Agent
