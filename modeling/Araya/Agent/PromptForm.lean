import Araya.Session.Compaction

/-!
What a commit of the system prompt leaves on the surface. Either one node of the loop is left, where the first one was,
or the last one holds the text; the other nodes stay, and the same commit again writes nothing.
-/

namespace Araya.Agent

open Sessions (Surface Message)

/-- A system message that names the loop as its plugin. -/
def owned (n : Message × Nat) : Bool := n.1.role = .system ∧ n.1.sourcePlugin = some "agent-loop"

/-- `commit_system_prompt`: what it appends to a session whose log has `size` events. -/
def promptEvents (s : Surface) (size : Nat) (rendered : String) (inHistory startsSeries : Bool) : List LoopEvent :=
  match promptNodes s with
  | [] => if rendered.isEmpty then [] else [appendPrompt size rendered]
  | first :: others =>
    if !inHistory || startsSeries || rendered.isEmpty then
      (others.map fun n => rewriteNode n.1 none) ++
        if rendered.isEmpty then [rewriteNode first.1 none]
        else if first.2 ≠ rendered then [rewriteNode first.1 (some (systemPayload (size + others.length) rendered))]
        else []
    else if ((first :: others).getLastD first).2 ≠ rendered then [appendPrompt size rendered]
    else []

theorem commitSystemPrompt_eq (log : Log) (rendered : String) (inHistory startsSeries : Bool) :
    commitSystemPrompt log rendered inHistory startsSeries =
      promptEvents (surfaceOf log) log.length rendered inHistory startsSeries := rfl

/-- The surface afterwards; the events are numbered on from `next`. -/
def promptSurface (s : Surface) (size next : Nat) (rendered : String) (inHistory startsSeries : Bool) : Surface :=
  ((promptEvents s size rendered inHistory startsSeries).zipIdx next).foldl applyEvent s

/-- At most one node of the loop is left, where the first one was, and it holds the text. -/
def Normalized (rendered : String) (nodes nodes' : List (Message × Nat)) : Prop :=
  ∃ head : List (Message × Nat), nodes' = nodes.takeWhile (!owned ·) ++ head ++ (nodes.dropWhile (!owned ·)).filter (!owned ·) ∧
    head.length = (if rendered = "" then 0 else 1) ∧ ∀ n ∈ head, owned n = true ∧ messageText n.1 = rendered

/-- The nodes stay, at most one of the loop follows, and the last one of the loop holds the text. -/
def Continued (rendered : String) (nodes nodes' : List (Message × Nat)) : Prop :=
  ∃ tail : List (Message × Nat), nodes' = nodes ++ tail ∧ tail.length ≤ 1 ∧ (∀ n ∈ tail, owned n = true) ∧
    (nodes'.filter owned).getLast?.map (messageText ·.1) = some rendered

theorem promptNodes_eq (s : Surface) : promptNodes s = (s.nodes.filter owned).map fun n => (n.2, messageText n.1) := by
  unfold promptNodes Surface.nodes
  induction s.messages.zip s.sourceSeqs with
  | nil => rfl
  | cons n ns ih =>
      rw [List.filterMap_cons, List.filter_cons, ih]
      by_cases h : n.1.role = .system ∧ n.1.sourcePlugin = some "agent-loop"
      · simp [owned, h]
      · simp [owned, h]

theorem messageText_textContent {m : Message} {text : String} (content : m.content = Llm.textContent text) :
    messageText m = text := by
  simp [messageText, content, Llm.textContent, Llm.innerText, Json.ifArray, Json.ifObject, Json.stringField, Llm.getString, String.join]

/-! The nodes that a write leaves -/

section
variable {s : Surface} {next q : Nat}

theorem beside_one (q : Nat) (n : Message × Nat) : Surface.beside q (q + 1) n = (n.2 != q) := by
  rw [Surface.beside, Bool.eq_iff_iff, decide_eq_true_iff, bne_iff_ne]
  omega

/-- The splice of one node in the middle. -/
theorem spliced_one {front back : List (Message × Nat)} {first : Message × Nat} (replacement : List (Message × Nat))
    (nodup : ((front ++ first :: back).map Prod.snd).Nodup) :
    Surface.spliced first.2 (first.2 + 1) replacement (front ++ first :: back) = front ++ replacement ++ back := by
  have others : ∀ n ∈ front ++ back, Surface.beside first.2 (first.2 + 1) n = true := by
    intro n member
    rw [beside_one, bne_iff_ne]
    intro same
    have perm : (front ++ first :: back).Perm (first :: (front ++ back)) := List.perm_middle
    have apart := List.nodup_cons.mp ((perm.map Prod.snd).nodup_iff.mp nodup)
    exact apart.1 (same ▸ List.mem_map_of_mem member)
  have own : Surface.beside first.2 (first.2 + 1) first = false := by rw [beside_one, bne_self_eq_false]
  have before : ∀ n ∈ front, Surface.beside first.2 (first.2 + 1) n = true := fun n member => others n (List.mem_append_left _ member)
  have after : ∀ n ∈ back, Surface.beside first.2 (first.2 + 1) n = true := fun n member => others n (List.mem_append_right _ member)
  unfold Surface.spliced
  rw [List.takeWhile_append_of_pos before, List.dropWhile_append_of_pos before]
  simp [own, List.filter_eq_self.mpr after]

theorem applyEvent_built (built : s.Built next) (e : LoopEvent) : (applyEvent s (e, next)).Built (next + 1) := built.apply _

theorem drop_spliced (past : q < next) (room : next < 2 ^ 63) :
    (applyEvent s (rewriteNode q none, next)).nodes = Surface.spliced q (q + 1) [] s.nodes := by
  rw [applyEvent_rewriteNode s (by omega) none, Surface.nodes_replace]
  rfl

theorem drop_nodes (past : q < next) (room : next < 2 ^ 63) :
    (applyEvent s (rewriteNode q none, next)).nodes = s.nodes.filter (·.2 != q) := by
  rw [drop_spliced past room, Surface.spliced_nil]
  exact List.filter_congr fun n _ => beside_one q n

theorem rewrite_nodes {front back : List (Message × Nat)} {first : Message × Nat} (built : s.Built next)
    (split : s.nodes = front ++ first :: back) (room : next < 2 ^ 63) (seq : Nat) (text : String) :
    ∃ n, owned n = true ∧ messageText n.1 = text ∧
      (applyEvent s (rewriteNode first.2 (some (systemPayload seq text)), next)).nodes = front ++ [n] ++ back := by
  have num := built.numbered
  have there : first ∈ s.nodes := by simp [split]
  have past : first.2 < next := num.past _ (List.of_mem_zip there).2
  have nodup : (s.nodes.map Prod.snd).Nodup := by
    rw [Surface.nodes_sourceSeqs num.even]
    exact num.own
  rw [applyEvent_rewriteNode s (by omega), Option.bind_some, rewritten_payload, Surface.nodes_replace, split]
  rw [split] at nodup
  refine ⟨_, ?_, ?_, spliced_one [_] nodup⟩
  · rfl
  · exact messageText_textContent rfl

theorem append_nodes (even : s.Even) (size next : Nat) (text : String) :
    ∃ n, owned n = true ∧ messageText n.1 = text ∧ (applyEvent s (appendPrompt size text, next)).nodes = s.nodes ++ [n] := by
  rw [applyEvent_appendPrompt]
  refine ⟨_, ?_, ?_, List.zip_append even⟩
  · rfl
  · exact messageText_textContent rfl

/-- The removal of nodes one after the other. -/
theorem drops_nodes {targets : List Nat} (built : s.Built next) (past : ∀ q ∈ targets, q < next)
    (room : next + targets.length ≤ 2 ^ 63) :
    (((targets.map fun q => rewriteNode q none).zipIdx next).foldl applyEvent s).Built (next + targets.length) ∧
      (((targets.map fun q => rewriteNode q none).zipIdx next).foldl applyEvent s).nodes =
        s.nodes.filter fun n => !targets.contains n.2 := by
  induction targets generalizing s next with
  | nil => exact ⟨built, by simp⟩
  | cons q qs ih =>
      obtain ⟨own, others⟩ := List.forall_mem_cons.mp past
      rw [List.length_cons] at room
      obtain ⟨after, nodes⟩ := ih (applyEvent_built built (rewriteNode q none)) (fun r member => Nat.lt_succ_of_lt (others r member))
        (by omega)
      rw [List.map_cons, List.zipIdx_cons, List.foldl_cons, List.length_cons]
      refine ⟨by rwa [show next + (qs.length + 1) = next + 1 + qs.length by omega], nodes.trans ?_⟩
      rw [drop_nodes own (by omega), List.filter_filter]
      refine List.filter_congr fun n _ => ?_
      rw [List.contains_cons, Bool.not_or, Bool.and_comm]
      rfl

end

/-! The whole commit -/

/-- The first node of the loop, and the nodes around it. -/
theorem owned_split {nodes others : List (Message × Nat)} {first : Message × Nat} (h : nodes.filter owned = first :: others) :
    ∃ front back, nodes = front ++ first :: back ∧ (∀ n ∈ front, owned n = false) ∧ owned first = true ∧
      back.filter owned = others := by
  obtain ⟨front, back, split, before, own, after⟩ := List.filter_eq_cons_iff.mp h
  exact ⟨front, back, split, fun n member => Bool.eq_false_iff.mpr (before n member), own, after⟩

section
variable {s : Surface} {next : Nat} {front back : List (Message × Nat)} {first : Message × Nat}

/-- Without the other nodes of the loop. -/
theorem filter_others (nodup : ((front ++ first :: back).map Prod.snd).Nodup) (before : ∀ n ∈ front, owned n = false) :
    (front ++ first :: back).filter (fun n => !((back.filter owned).map Prod.snd).contains n.2) =
      front ++ first :: back.filter (!owned ·) := by
  have listed : ∀ n ∈ front ++ first :: back,
      ((back.filter owned).map Prod.snd).contains n.2 = true ↔ n ∈ back.filter owned := by
    intro n there
    rw [List.contains_iff_mem]
    constructor
    · intro number
      obtain ⟨m, member, same⟩ := List.mem_map.mp number
      have later : m ∈ front ++ first :: back :=
        List.mem_append_right _ (List.mem_cons_of_mem _ (List.mem_of_mem_filter member))
      exact List.inj_on_of_nodup_map nodup later there same ▸ member
    · exact fun member => List.mem_map_of_mem member
  have apart : first ∉ back := by
    rw [List.map_append] at nodup
    intro again
    exact (List.nodup_cons.mp (List.nodup_append.mp nodup).2.1).1 (List.mem_map_of_mem again)
  have keeps : ∀ n ∈ front ++ first :: back, n ∉ back.filter owned →
      (!((back.filter owned).map Prod.snd).contains n.2) = true := by
    intro n there other
    rw [Bool.not_eq_true', Bool.eq_false_iff]
    exact fun contained => other ((listed n there).mp contained)
  have prior : ∀ n ∈ front, (!((back.filter owned).map Prod.snd).contains n.2) = true := by
    refine fun n member => keeps n (List.mem_append_left _ member) fun taken => ?_
    have mine := (List.mem_filter.mp taken).2
    rw [before n member] at mine
    cases mine
  have kept := keeps first (by simp) fun taken => apart (List.mem_of_mem_filter taken)
  rw [List.filter_append, List.filter_eq_self.mpr prior, List.filter_cons, if_pos kept]
  refine congrArg _ (congrArg _ (List.filter_congr fun n member => ?_))
  have there : n ∈ front ++ first :: back := List.mem_append_right _ (List.mem_cons_of_mem _ member)
  rw [Bool.eq_iff_iff, Bool.not_eq_true', Bool.not_eq_true', Bool.eq_false_iff, Bool.eq_false_iff, not_iff_not, listed n there]
  exact ⟨fun taken => (List.mem_filter.mp taken).2, fun owned => List.mem_filter.mpr ⟨member, owned⟩⟩

theorem normalized_split {head : List (Message × Nat)} {rendered : String} (before : ∀ n ∈ front, owned n = false)
    (own : owned first = true) (length : head.length = if rendered = "" then 0 else 1)
    (holds : ∀ n ∈ head, owned n = true ∧ messageText n.1 = rendered) :
    Normalized rendered (front ++ first :: back) (front ++ head ++ back.filter (!owned ·)) := by
  have foreign : ∀ n ∈ front, (!owned n) = true := fun n member => by rw [before n member, Bool.not_false]
  refine ⟨head, ?_, length, holds⟩
  rw [List.takeWhile_append_of_pos foreign, List.dropWhile_append_of_pos foreign]
  simp [own]

theorem normalized_none {nodes head : List (Message × Nat)} {rendered : String} (none : nodes.filter owned = [])
    (length : head.length = if rendered = "" then 0 else 1)
    (holds : ∀ n ∈ head, owned n = true ∧ messageText n.1 = rendered) : Normalized rendered nodes (nodes ++ head) := by
  have foreign : ∀ n ∈ nodes, (!owned n) = true := fun n member => by
    rw [Bool.not_eq_true', Bool.eq_false_iff]
    exact List.filter_eq_nil_iff.mp none n member
  refine ⟨head, ?_, length, holds⟩
  rw [List.takeWhile_eq_self_iff.mpr foreign, List.dropWhile_eq_nil_iff.mpr foreign, List.filter_nil, List.append_nil]

/-- The nodes of the loop in the normal form. -/
theorem Normalized.owned_nodes {nodes nodes' : List (Message × Nat)} {rendered : String} (h : Normalized rendered nodes nodes') :
    ∃ head : List (Message × Nat), nodes'.filter owned = head ∧ head.length = (if rendered = "" then 0 else 1) ∧
      ∀ n ∈ head, messageText n.1 = rendered := by
  obtain ⟨head, rfl, length, holds⟩ := h
  refine ⟨head, ?_, length, fun n member => (holds n member).2⟩
  have front : (nodes.takeWhile (!owned ·)).filter owned = [] := List.filter_eq_nil_iff.mpr fun n member mine => by
    have foreign := List.mem_takeWhile_imp member
    rw [mine] at foreign
    cases foreign
  have back : ((nodes.dropWhile (!owned ·)).filter (!owned ·)).filter owned = [] :=
    List.filter_eq_nil_iff.mpr fun n member mine => by
      have foreign := (List.mem_filter.mp member).2
      rw [mine] at foreign
      cases foreign
  rw [List.filter_append, List.filter_append, front, back, List.append_nil, List.nil_append,
    List.filter_eq_self.mpr fun n member => (holds n member).1]

end

/-- The commit brings the nodes of the loop to one. -/
def normalizes (rendered : String) (inHistory startsSeries : Bool) : Bool := !inHistory || startsSeries || rendered.isEmpty

section
variable {s : Surface} {size : Nat} {rendered : String} {inHistory startsSeries : Bool}

theorem promptEvents_none (none : s.nodes.filter owned = []) : promptEvents s size rendered inHistory startsSeries =
    if rendered = "" then [] else [appendPrompt size rendered] := by
  unfold promptEvents
  rw [promptNodes_eq, none]
  simp

theorem promptEvents_normalizes {first : Message × Nat} {others : List (Message × Nat)}
    (found : s.nodes.filter owned = first :: others) (normal : normalizes rendered inHistory startsSeries = true) :
    promptEvents s size rendered inHistory startsSeries =
      ((others.map Prod.snd).map fun q => rewriteNode q none) ++
        if rendered = "" then [rewriteNode first.2 none]
        else if messageText first.1 ≠ rendered then
          [rewriteNode first.2 (some (systemPayload (size + others.length) rendered))]
        else [] := by
  unfold promptEvents
  rw [promptNodes_eq, found, List.map_cons]
  dsimp only
  rw [show (!inHistory || startsSeries || rendered.isEmpty) = true from normal, if_pos rfl]
  simp

theorem promptEvents_continues {first : Message × Nat} {others : List (Message × Nat)}
    (found : s.nodes.filter owned = first :: others) (continues : normalizes rendered inHistory startsSeries = false) :
    promptEvents s size rendered inHistory startsSeries =
      if messageText ((first :: others).getLast (List.cons_ne_nil _ _)).1 ≠ rendered then [appendPrompt size rendered]
      else [] := by
  unfold promptEvents
  rw [promptNodes_eq, found, List.map_cons]
  dsimp only
  rw [show (!inHistory || startsSeries || rendered.isEmpty) = false from continues, if_neg Bool.false_ne_true]
  rw [← List.map_cons (f := fun n : Message × Nat => (n.2, messageText n.1)), List.getLastD_eq_getLast?, List.getLast?_map,
    List.getLast?_eq_some_getLast (List.cons_ne_nil _ _)]
  rfl

end

section
variable {s : Surface} {next : Nat} {rendered : String} {inHistory startsSeries : Bool}

theorem commit_normalizes (built : s.Built next) (size : Nat) (room : next + (promptNodes s).length ≤ 2 ^ 63)
    (normal : normalizes rendered inHistory startsSeries = true) :
    Normalized rendered s.nodes (promptSurface s size next rendered inHistory startsSeries).nodes := by
  have num := built.numbered
  rw [promptNodes_eq, List.length_map] at room
  unfold promptSurface
  cases found : s.nodes.filter owned with
  | nil =>
      rw [promptEvents_none found]
      by_cases empty : rendered = ""
      · rw [if_pos empty]
        have length : ([] : List (Message × Nat)).length = if rendered = "" then 0 else 1 := by rw [if_pos empty, List.length_nil]
        have kept := normalized_none found length nofun
        rwa [List.append_nil] at kept
      · rw [if_neg empty]
        obtain ⟨n, own, text, nodes⟩ := append_nodes num.even size next rendered
        show Normalized _ _ (applyEvent s (appendPrompt size rendered, next)).nodes
        rw [nodes]
        refine normalized_none found (by rw [if_neg empty]; rfl) fun m member => ?_
        rw [List.mem_singleton.mp member]
        exact ⟨own, text⟩
  | cons first others =>
      rw [found, List.length_cons] at room
      rw [promptEvents_normalizes found normal]
      obtain ⟨front, back, split, before, own, rfl⟩ := owned_split found
      have nodup : (s.nodes.map Prod.snd).Nodup := by
        rw [Surface.nodes_sourceSeqs num.even]
        exact num.own
      have past : ∀ n ∈ s.nodes, n.2 < next := fun n member => num.past _ (List.of_mem_zip member).2
      rw [split] at nodup past
      have targets : ∀ q ∈ (back.filter owned).map Prod.snd, q < next := by
        intro q member
        obtain ⟨n, mine, rfl⟩ := List.mem_map.mp member
        exact past n (List.mem_append_right _ (List.mem_cons_of_mem _ (List.mem_of_mem_filter mine)))
      obtain ⟨after, dropped⟩ := drops_nodes built targets (by rw [List.length_map]; omega)
      rw [split, filter_others nodup before] at dropped
      rw [List.zipIdx_append, List.foldl_append, List.length_map, split]
      generalize (List.zipIdx _ next).foldl applyEvent s = s₁ at after dropped ⊢
      rw [List.length_map] at after ⊢
      have nodup₁ : (s₁.nodes.map Prod.snd).Nodup := by
        rw [Surface.nodes_sourceSeqs after.numbered.even]
        exact after.numbered.own
      rw [dropped] at nodup₁
      by_cases empty : rendered = ""
      · rw [if_pos empty]
        have gone := drop_spliced (s := s₁) (Nat.lt_add_right (back.filter owned).length (past first (by simp))) (by omega)
        rw [dropped, spliced_one [] nodup₁] at gone
        show Normalized _ _ (applyEvent s₁ (rewriteNode first.2 none, next + (back.filter owned).length)).nodes
        rw [gone]
        exact normalized_split before own (by rw [if_pos empty, List.length_nil]) nofun
      · rw [if_neg empty]
        by_cases same : messageText first.1 = rendered
        · rw [if_neg (not_not.mpr same)]
          show Normalized _ _ s₁.nodes
          rw [dropped, List.append_cons front first (back.filter (!owned ·))]
          have length : [first].length = if rendered = "" then 0 else 1 := by rw [if_neg empty, List.length_singleton]
          refine normalized_split before own length fun n member => ?_
          rw [List.mem_singleton.mp member]
          exact ⟨own, same⟩
        · rw [if_pos same]
          obtain ⟨n, mine, text, nodes⟩ := rewrite_nodes after dropped (by omega) (size + (back.filter owned).length) rendered
          rw [List.zipIdx_singleton, List.foldl_cons, List.foldl_nil, nodes]
          refine normalized_split before own (by rw [if_neg empty, List.length_singleton]) fun m member => ?_
          rw [List.mem_singleton.mp member]
          exact ⟨mine, text⟩

/-- The last node of the loop that a list ends on. -/
theorem owned_last {nodes : List (Message × Nat)} {n : Message × Nat} (own : owned n = true) :
    ((nodes ++ [n]).filter owned).getLast? = some n := by
  rw [List.filter_append, List.filter_cons, if_pos own, List.filter_nil, List.getLast?_concat]

theorem commit_continues (built : s.Built next) (size : Nat) (continues : normalizes rendered inHistory startsSeries = false) :
    Continued rendered s.nodes (promptSurface s size next rendered inHistory startsSeries).nodes := by
  have even := built.numbered.even
  have text : rendered ≠ "" := by
    rintro rfl
    simp [normalizes] at continues
  have appends : Continued rendered s.nodes (applyEvent s (appendPrompt size rendered, next)).nodes := by
    obtain ⟨n, own, text, nodes⟩ := append_nodes even size next rendered
    rw [nodes]
    refine ⟨[n], rfl, Nat.le_refl 1, fun m member => List.mem_singleton.mp member ▸ own, ?_⟩
    rw [owned_last own, Option.map_some, text]
  unfold promptSurface
  cases found : s.nodes.filter owned with
  | nil =>
      rw [promptEvents_none found, if_neg text]
      exact appends
  | cons first others =>
      rw [promptEvents_continues found continues]
      by_cases last : messageText ((first :: others).getLast (List.cons_ne_nil _ _)).1 = rendered
      · rw [if_neg (not_not.mpr last)]
        refine ⟨[], (List.append_nil _).symm, Nat.zero_le 1, nofun, ?_⟩
        show (s.nodes.filter owned).getLast?.map _ = _
        rw [found, List.getLast?_eq_some_getLast (List.cons_ne_nil _ _), Option.map_some, last]
      · rw [if_pos last]
        exact appends

/-! The same commit again -/

theorem promptEvents_normal {nodes : List (Message × Nat)} (normal : Normalized rendered nodes s.nodes) (size : Nat) :
    promptEvents s size rendered inHistory startsSeries = [] := by
  obtain ⟨head, mine, length, holds⟩ := normal.owned_nodes
  by_cases empty : rendered = ""
  · rw [if_pos empty, List.length_eq_zero_iff] at length
    rw [promptEvents_none (mine.trans length), if_pos empty]
  · rw [if_neg empty] at length
    obtain ⟨n, rfl⟩ := List.length_eq_one_iff.mp length
    have text := holds n List.mem_cons_self
    cases normal : normalizes rendered inHistory startsSeries with
    | true =>
        rw [promptEvents_normalizes mine normal, if_neg empty, if_neg (not_not.mpr text)]
        rfl
    | false =>
        rw [promptEvents_continues mine normal]
        exact if_neg (not_not.mpr text)

theorem promptEvents_continued {nodes : List (Message × Nat)} (continued : Continued rendered nodes s.nodes) (size : Nat)
    (continues : normalizes rendered inHistory startsSeries = false) :
    promptEvents s size rendered inHistory startsSeries = [] := by
  obtain ⟨-, -, -, -, last⟩ := continued
  cases found : s.nodes.filter owned with
  | nil =>
      rw [found] at last
      cases last
  | cons first others =>
      rw [found, List.getLast?_eq_some_getLast (List.cons_ne_nil _ _), Option.map_some, Option.some.injEq] at last
      rw [promptEvents_continues found continues, if_neg (not_not.mpr last)]

/-! The events are accepted -/

theorem appendPrompt_valid (size seq : Nat) (text : String) : ((appendPrompt size text).record seq).Valid := by
  simp [Sessions.Event.Valid, Sessions.validateEvent, appendPrompt, LoopEvent.record, LoopEvent.type, LoopEvent.data,
    Llm.systemMessageData, Sessions.isBuiltinSurfaceType, Sessions.checkedMessage, Sessions.need, Json.ifObject, Json.objectField,
    Json.find?, Sessions.requireId, Sessions.requireContent, Json.stringField, Json.arrayField, Sessions.nonEmpty_some,
    Sessions.ensure, Llm.textContent, Sessions.validateSystem, Sessions.except_ok_bind]

theorem rewriteNode_valid {q seq : Nat} (past : q < seq) (size : Nat) (text : Option String) :
    ((rewriteNode q (text.map (systemPayload size))).record seq).Valid := by
  have span : (q : Int) + 1 ≤ seq := by omega
  cases text with
  | none =>
      simp [Sessions.Event.Valid, Sessions.validateEvent, rewriteNode, LoopEvent.record, LoopEvent.type, LoopEvent.data,
        Sessions.isBuiltinSurfaceType, Sessions.validateReplace, Sessions.need, Json.ifObject, Json.intField,
        Json.find?, Sessions.ensure, Sessions.except_ok_bind, span]
  | some t =>
      simp [Sessions.Event.Valid, Sessions.validateEvent, rewriteNode, LoopEvent.record, LoopEvent.type, LoopEvent.data,
        Sessions.isBuiltinSurfaceType, Sessions.validateReplace, Sessions.need, Json.ifObject, Json.intField,
        Json.find?, Sessions.ensure, Sessions.except_ok_bind, span, Sessions.validateReplacement, systemPayload, Sessions.requireId,
        Sessions.requireContent, Json.stringField, Json.arrayField, Sessions.nonEmpty_some, Llm.textContent,
        Sessions.parseRole]

/-- What a commit appends: a prompt, or the rewrite of a node that is there. -/
theorem promptEvents_cases (built : s.Built next) {size : Nat} {e : LoopEvent}
    (member : e ∈ promptEvents s size rendered inHistory startsSeries) : (∃ n text, e = appendPrompt n text) ∨
      ∃ q n, ∃ text : Option String, q < next ∧ e = rewriteNode q (text.map (systemPayload n)) := by
  have past : ∀ n ∈ s.nodes.filter owned, n.2 < next := fun n mine =>
    built.numbered.past _ (List.of_mem_zip (List.mem_of_mem_filter mine)).2
  cases found : s.nodes.filter owned with
  | nil =>
      rw [promptEvents_none found] at member
      split at member
      · cases member
      · exact .inl ⟨_, _, List.mem_singleton.mp member⟩
  | cons first others =>
      rw [found] at past
      obtain ⟨head, tail⟩ := List.forall_mem_cons.mp past
      cases normal : normalizes rendered inHistory startsSeries with
      | true =>
          rw [promptEvents_normalizes found normal] at member
          rcases List.mem_append.mp member with dropped | rest
          · obtain ⟨q, target, rfl⟩ := List.mem_map.mp dropped
            obtain ⟨n, mine, rfl⟩ := List.mem_map.mp target
            exact .inr ⟨n.2, 0, none, tail n mine, rfl⟩
          · split at rest
            · exact .inr ⟨first.2, 0, none, head, List.mem_singleton.mp rest⟩
            · split at rest
              · exact .inr ⟨first.2, _, some rendered, head, List.mem_singleton.mp rest⟩
              · cases rest
      | false =>
          rw [promptEvents_continues found normal] at member
          split at member
          · exact .inl ⟨_, _, List.mem_singleton.mp member⟩
          · cases member

theorem promptEvents_valid (built : s.Built next) (size : Nat) :
    ∀ e ∈ (promptEvents s size rendered inHistory startsSeries).zipIdx next, (e.1.record e.2).Valid := by
  intro e member
  have later : next ≤ e.2 := List.le_snd_of_mem_zipIdx member
  rcases promptEvents_cases built (List.fst_mem_of_mem_zipIdx member) with ⟨n, text, same⟩ | ⟨q, n, text, past, same⟩
  · rw [same]
    exact appendPrompt_valid n e.2 text
  · rw [same]
    exact rewriteNode_valid (Nat.lt_of_lt_of_le past later) n text

end

/-- The prompt is committed to any surface that events build, where the next numbers are in the range of the int64
coordinates that a replacement carries. Its events are accepted; they leave one node of the loop in
the place of the first, or a last one with the text after all the nodes; and the same commit again writes nothing. -/
theorem commitSystemPrompt_settles (s : Surface) (next size : Nat) (built : s.Built next) (rendered : String)
    (inHistory startsSeries : Bool) (room : next + (promptNodes s).length ≤ 2 ^ 63) :
    (∀ e ∈ (promptEvents s size rendered inHistory startsSeries).zipIdx next, (e.1.record e.2).Valid) ∧
    (normalizes rendered inHistory startsSeries = true →
      Normalized rendered s.nodes (promptSurface s size next rendered inHistory startsSeries).nodes) ∧
    (normalizes rendered inHistory startsSeries = false →
      Continued rendered s.nodes (promptSurface s size next rendered inHistory startsSeries).nodes) ∧
    ∀ size', promptEvents (promptSurface s size next rendered inHistory startsSeries) size' rendered inHistory startsSeries = [] := by
  refine ⟨promptEvents_valid built size, commit_normalizes built size room, commit_continues built size, fun size' => ?_⟩
  cases normal : normalizes rendered inHistory startsSeries with
  | true => exact promptEvents_normal (commit_normalizes built size room normal) size'
  | false => exact promptEvents_continued (commit_continues built size normal) size' normal

/-- A message before, between and after two prompts. -/
def interleaved : Surface :=
  let said (id : String) : Message := { id, content := .arr [] }
  let prompt (id : String) : Message := { role := .system, id, content := Llm.textContent id, sourcePlugin := some "agent-loop" }
  ((((({} : Surface).push 0 (said "m0")).push 1 (prompt "s1")).push 2 (said "m2")).push 3 (prompt "s3")).push 4 (said "m4")

theorem interleaved_built : interleaved.Built 5 := .push _ (.push _ (.push _ (.push _ (.push _ .empty))))

theorem commitSystemPrompt_settles_interleaved :
    Normalized "new" interleaved.nodes (promptSurface interleaved 5 5 "new" false false).nodes ∧
    Continued "new" interleaved.nodes (promptSurface interleaved 5 5 "new" true false).nodes := by
  have room : 5 + (promptNodes interleaved).length ≤ 2 ^ 63 := by
    rw [promptNodes_eq, List.length_map]
    exact (Nat.add_le_add_left (List.length_filter_le _ _) 5).trans (by decide)
  have incapable := commitSystemPrompt_settles interleaved 5 5 interleaved_built "new" false false room
  have capable := commitSystemPrompt_settles interleaved 5 5 interleaved_built "new" true false room
  exact ⟨incapable.2.1 rfl, capable.2.2.1 (by decide)⟩

end Araya.Agent
