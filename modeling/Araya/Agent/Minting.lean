import Araya.Agent.Posts

/-!
The ids of the messages made for a session are its own as long as the log has grown since the last one of the same
letter was made. The filter of the inbox then drops none of them for another.
-/

namespace Araya.Agent

/-! What a step adds to the inbox -/

/-- The log grows, and what the inbox gains is among the new messages. -/
structure World.Adds (w w' : World) (new : List Json) : Prop where
  accepted : w'.accepted = w.accepted ++ new
  pending : ∀ x ∈ (inboxOf w'.log).ids, x ∈ (inboxOf w.log).ids ∨ x ∈ messageIds new
  log : w.log <+: w'.log

namespace World.Adds
variable {w w' w'' : World} {new : List Json}

theorem of_same (accepted : w'.accepted = w.accepted) (log : w'.log = w.log) : w.Adds w' [] where
  accepted := accepted.trans (List.append_nil _).symm
  pending _ member := .inl (log ▸ member)
  log := log ▸ List.prefix_refl _

theorem trans_same (h : w.Adds w' new) (accepted : w''.accepted = w'.accepted) (log : w''.log = w'.log) : w.Adds w'' new where
  accepted := accepted.trans h.accepted
  pending x member := h.pending x (log ▸ member)
  log := log ▸ h.log

theorem same_trans (accepted : w'.accepted = w.accepted) (log : w'.log = w.log) (h : w'.Adds w'' new) : w.Adds w'' new where
  accepted := accepted ▸ h.accepted
  pending x member := log ▸ h.pending x member
  log := log ▸ h.log

theorem kick (h : w.Adds w' new) (i : Nat) : w.Adds (w'.kick i) new := by
  rcases w'.kick_cases i with same | ⟨a, -, -, same⟩ <;> rw [same]
  · exact h
  · exact h.trans_same rfl rfl

theorem enqueue (w : World) (target : InboxTarget) (message : Json) : w.Adds (w.enqueue target message) [message] where
  accepted := rfl
  pending x member := by
    have solid := InboxState.ne_of_mem_ids member
    have counted := count_enqueue w target message solid
    have some := List.count_pos_iff.mpr member
    by_cases own : inboxMessageId message = x
    · refine .inr ?_
      rw [messageIds_cons, own, if_neg solid]
      exact List.mem_cons_self
    · rw [if_neg fun h => own h.1] at counted
      exact .inl (List.count_pos_iff.mp (by omega))
  log := List.prefix_append _ _

theorem discard (w : World) (target : InboxTarget) : w.Adds (w.discard target) [] where
  accepted := (List.append_nil _).symm
  pending x member := by
    generalize hm : makeInboxSplice (inboxOf w.log) target 0 ((inboxOf w.log).queue target).length [] true = m
    have removed := count_inboxOf_removed hm.symm x
    have some : 0 < (inboxOf (w.log ++ m.events)).ids.count x := by
      unfold World.discard at member
      rw [hm] at member
      exact List.count_pos_iff.mpr member
    exact .inl (List.count_pos_iff.mp (by omega))
  log := List.prefix_append _ _

theorem none_trans (h : w.Adds w' []) (h' : w'.Adds w'' []) : w.Adds w'' [] where
  accepted := by rw [h'.accepted, h.accepted, List.append_nil, List.append_nil]
  pending x member := (h'.pending x member).elim (h.pending x) .inr
  log := h.log.trans h'.log

theorem wakeWith (w : World) (i : Nat) (target : InboxTarget) (message : Json) (options : DriveOptions) (refused : Bool) :
    w.Adds (w.wakeWith i target message options refused) (if refused then [] else [message]) := by
  cases refused with
  | true => exact .of_same rfl rfl
  | false =>
      have awaited : ((w.updateAgent i (·.mergeExec options)).await message).accepted = w.accepted ∧
          ((w.updateAgent i (·.mergeExec options)).await message).log = w.log := by
        unfold World.await
        dsimp only
        split <;> exact ⟨rfl, rfl⟩
      exact (same_trans awaited.1 awaited.2 (enqueue _ target message)).kick i

theorem run (w : World) (i : Nat) (options : DriveOptions) (input : String) (refused : Bool) :
    w.Adds (w.run i options input refused) (if !input.isEmpty && (w.agents[i]?).any (·.running) && !refused
      then [w.runInput input] else []) := by
  have merged : w.Adds (w.updateAgent i (·.mergeExec options)) [] := .of_same rfl rfl
  have running : (((w.updateAgent i (·.mergeExec options)).agents[i]?).any (·.running)) = (w.agents[i]?).any (·.running) := by
    show (((w.agents.modify i (·.mergeExec options))[i]?).any (·.running)) = _
    rw [List.getElem?_modify]
    cases w.agents[i]? with
    | none => rfl
    | some a => simp [AgentState.mergeExec]
  unfold World.run
  dsimp only
  cases empty : input.isEmpty with
  | true => exact merged.kick i
  | false =>
      rw [running]
      cases (w.agents[i]?).any (·.running) with
      | true =>
          cases refused with
          | true => exact merged
          | false => exact (same_trans rfl rfl (enqueue _ .nextTurn (w.runInput input))).trans_same rfl rfl
      | false =>
          have seeded : w.Adds ((w.updateAgent i (·.mergeExec options)).updateAgent i
              ({ · with seed := some ((w.updateAgent i (·.mergeExec options)).runInput input) })) [] := merged.trans_same rfl rfl
          exact seeded.kick i

theorem cancel {i : Nat} {keepInbox : Bool} {refused : Option InboxTarget} (h : w.cancel i keepInbox refused = some w') :
    w.Adds w' [] := by
  rcases of_call_cancel h with rfl | rfl | rfl | rfl
  · exact .of_same rfl rfl
  · exact discard w .nextStep
  · exact .of_same rfl rfl
  · exact ((discard w .nextStep).none_trans (discard _ .nextTurn)).trans_same rfl rfl

theorem route {message : Json} {refused : Bool} (r : Route) (h : w.call (r.call message refused) = some w') :
    w.Adds w' (if refused then [] else [message]) := by
  cases r with
  | inject =>
      obtain ⟨i, -, rfl⟩ := Option.map_eq_some_iff.mp h
      cases refused with
      | true => exact .of_same rfl rfl
      | false => exact enqueue w .nextStep message
  | steer options | followup options =>
      obtain ⟨i, -, rfl⟩ := Option.map_eq_some_iff.mp h
      exact wakeWith w i _ message options refused

theorem create (h : w.call .create = some w') : w.Adds w' [] := by
  unfold World.call at h
  dsimp only at h
  split at h <;> cases h <;> exact .of_same rfl rfl

theorem call {c : Call} (h : w.call c = some w') : ∃ new, w.Adds w' new := by
  cases c with
  | create => exact ⟨[], create h⟩
  | createFailed =>
      cases h
      exact ⟨[], .of_same rfl rfl⟩
  | run options input refused =>
      obtain ⟨i, -, rfl⟩ := Option.map_eq_some_iff.mp h
      exact ⟨_, run w i options input refused⟩
  | followup message options refused => exact ⟨_, route (.followup options) h⟩
  | steer message options refused => exact ⟨_, route (.steer options) h⟩
  | inject message refused => exact ⟨_, route .inject h⟩
  | cancel keepInbox refused =>
      unfold World.call at h
      dsimp only at h
      split at h
      case h_1 =>
        cases h
        exact ⟨[], .of_same rfl rfl⟩
      case h_2 =>
        have cancelled := cancel h
        exact ⟨[], cancelled.accepted, cancelled.pending, cancelled.log⟩
  | dispose | shutdown =>
      unfold World.call at h
      dsimp only at h
      split at h <;> cases h <;> exact ⟨[], .of_same rfl rfl⟩
  | requestStop token =>
      cases h
      exact ⟨[], .of_same rfl rfl⟩
  | append event =>
      unfold World.call at h
      dsimp only at h
      split at h
      case isTrue foreign =>
        cases h
        have same : inboxOf (w.log ++ [event]) = inboxOf w.log := by
          rw [inboxOf_concat]
          exact foldInbox_of_type fun type => foreign (type ▸ (by decide))
        exact ⟨[], (List.append_nil _).symm, fun _ member => .inl (same ▸ member), List.prefix_append _ _⟩
      case isFalse => cases h

theorem advance {i : Nat} {o : Outcome} (h : w.advance i o = some w') : w.Adds w' [] := by
  obtain ⟨d, a, m, -, -, moved, made⟩ := advance_cases h
  have applied : w.Adds (w.apply i d m) [] := by
    refine ⟨(List.append_nil _).symm, fun x member => .inl ?_, List.prefix_append _ _⟩
    have ids := moved_ids moved x
    have some : 0 < (inboxOf (w.log ++ m.events)).ids.count x := List.count_pos_iff.mpr member
    exact List.count_pos_iff.mp (by omega)
  rcases made with rfl | ⟨-, rfl⟩
  · exact applied
  · unfold World.rewake
    split
    · exact applied.kick _
    · exact applied

end World.Adds

theorem World.next_adds {w w' : World} {act : Act} (h : w.next act = some w') : ∃ new, w.Adds w' new := by
  cases act with
  | call call => exact World.Adds.call h
  | advance i o => exact ⟨[], World.Adds.advance h⟩

/-! What is made and where it waits -/

theorem Minted.id_injective {m n : Minted} (h : m.id = n.id) : m = n := by
  obtain ⟨letter, length⟩ := m
  obtain ⟨letter', length'⟩ := n
  have chars := congrArg String.toList h
  simp only [Minted.id, String.toList_append] at chars
  have digits {k k' : Nat} (same : (toString k).toList = (toString k').toList) : k = k' :=
    decimal_injective (String.toList_inj.mp same)
  cases letter <;> cases letter' <;>
    simp only [Letter.text, String.reduceToList, List.cons_append, List.nil_append, List.cons.injEq] at chars
  case u.u => rw [digits chars.2]
  case c.c => rw [digits chars.2]
  case u.c => exact absurd chars.1 (by decide)
  case c.u => exact absurd chars.1 (by decide)

/-- The ids that a waiting caller has made. -/
def Waiting.ids : Waiting → List String
  | .run _ _ => []
  | .post own _ _ => [own.id]

def Posts.held (c : Posts) : List String := c.waiting.flatMap Waiting.ids

/-- What holds as long as no id was made twice. -/
structure Posts.Sound (c : Posts) : Prop where
  bounded : ∀ m ∈ c.minted, m.length ≤ c.world.log.length
  distinct : (c.minted.map Minted.id).Nodup
  apart : (c.queued ++ c.held).Nodup
  known : ∀ id ∈ c.queued ++ c.held, id ∈ c.minted.map Minted.id
  labelled : ∀ own message route, Waiting.post own message route ∈ c.waiting → inboxMessageId message = own.id
  pending : ∀ x ∈ (inboxOf c.world.log).ids, x ∈ c.queued ∨ x ∈ messageIds c.foreign
  dropped : ∀ x ∈ c.dropped, x ∈ messageIds c.foreign

/-- A message that may enter its queue: made, and neither queued nor waiting. -/
structure Posts.Ready (c : Posts) (own : Minted) : Prop where
  made : own.id ∈ c.minted.map Minted.id
  unqueued : own.id ∉ c.queued
  unheld : own.id ∉ c.held

/-- The log has grown since the last message of the same letter was made. -/
def Spaced (c : Posts) (op : PostOp) : Prop :=
  ∀ letter ∈ c.letterOf op, ∀ m ∈ c.minted, m.letter = letter → m.length < c.world.log.length

/-- No two messages made have the same id, and none is dropped for another. -/
def Distinct (c : Posts) : Prop :=
  (c.minted.map Minted.id).Nodup ∧ ∀ id ∈ c.dropped, id ∈ messageIds c.foreign

instance (c : Posts) (op : PostOp) : Decidable (Spaced c op) :=
  inferInstanceAs (Decidable (∀ letter ∈ c.letterOf op, ∀ m ∈ c.minted, m.letter = letter → m.length < c.world.log.length))

theorem Posts.mint_fresh {c : Posts} {letter : Letter}
    (spaced : ∀ m ∈ c.minted, m.letter = letter → m.length < c.world.log.length) :
    (c.mint letter).id ∉ c.minted.map Minted.id := by
  intro member
  obtain ⟨m, before, same⟩ := List.mem_map.mp member
  obtain rfl := Minted.id_injective same
  exact Nat.lt_irrefl _ (spaced _ before rfl)

namespace Posts.Sound
variable {c c' : Posts} {own : Minted}

theorem move {world : World} {new : List Json} (inv : c.Sound) (adds : c.world.Adds world new)
    (accounted : ∀ x ∈ messageIds new, x ∈ c.queued ∨ x ∈ messageIds c.foreign) : Sound { c with world } where
  bounded m member := (inv.bounded m member).trans adds.log.length_le
  distinct := inv.distinct
  apart := inv.apart
  known := inv.known
  labelled := inv.labelled
  pending x member := (adds.pending x member).elim (inv.pending x) (accounted x)
  dropped := inv.dropped

theorem call {call : Call} {new : List Json} (inv : c.Sound) (h : c.call call = some c')
    (adds : ∀ world, c.world.call call = some world → c.world.Adds world new)
    (accounted : ∀ x ∈ messageIds new, x ∈ c.queued ∨ x ∈ messageIds c.foreign) : Sound c' := by
  obtain ⟨world, made, rfl⟩ := Option.map_eq_some_iff.mp h
  exact inv.move (adds world made) accounted

theorem count (inv : c.Sound) (ready : c.Ready own) : Sound (c.count own.id) where
  bounded := inv.bounded
  distinct := inv.distinct
  apart := List.nodup_cons.mpr ⟨fun member => (List.mem_append.mp member).elim ready.unqueued ready.unheld, inv.apart⟩
  known id member := (List.mem_cons.mp member).elim (· ▸ ready.made) (inv.known id)
  labelled := inv.labelled
  pending x member := (inv.pending x member).imp_left (List.mem_cons_of_mem _)
  dropped x member := by
    unfold Posts.count at member
    dsimp only at member
    split at member
    case isTrue there =>
      rcases List.mem_cons.mp member with rfl | before
      · exact (inv.pending _ there).resolve_left ready.unqueued
      · exact inv.dropped x before
    case isFalse => exact inv.dropped x member

theorem record (inv : c.Sound) {letter : Letter}
    (spaced : ∀ m ∈ c.minted, m.letter = letter → m.length < c.world.log.length) :
    Sound (c.record (c.mint letter)) ∧ (c.record (c.mint letter)).Ready (c.mint letter) := by
  have new := mint_fresh spaced
  refine ⟨⟨?_, List.nodup_cons.mpr ⟨new, inv.distinct⟩, inv.apart, ?_, inv.labelled, inv.pending, inv.dropped⟩, ?_⟩
  · intro m member
    rcases List.mem_cons.mp member with rfl | before
    · exact Nat.le_refl _
    · exact inv.bounded m before
  · exact fun id member => List.mem_cons_of_mem _ (inv.known id member)
  · exact ⟨List.mem_cons_self, fun member => new (inv.known _ (List.mem_append_left _ member)),
      fun member => new (inv.known _ (List.mem_append_right _ member))⟩

theorem deliver {message : Json} {route : Route} {refused : Bool} (inv : c.Sound) (ready : c.Ready own)
    (label : inboxMessageId message = own.id) (h : c.deliver own message route refused = some c') : Sound c' := by
  unfold Posts.deliver at h
  cases refused with
  | true => exact inv.call h (fun _ => World.Adds.route route) fun _ member => absurd member List.not_mem_nil
  | false =>
      refine (inv.count ready).call h (fun _ => World.Adds.route route) fun x member => .inl ?_
      simp only [messageIds, Bool.false_eq_true, if_false, List.map_cons, List.map_nil] at member
      rw [List.mem_singleton.mp (List.mem_of_mem_filter member), label]
      exact List.mem_cons_self

theorem wait {waiting : Waiting} (inv : c.Sound) (ready : ∀ own message route, waiting = .post own message route →
    c.Ready own ∧ inboxMessageId message = own.id) (h : c.wait waiting = some c') : Sound c' := by
  have held : Posts.held { c with waiting := c.waiting ++ [waiting] } = c.held ++ waiting.ids := by
    simp [Posts.held]
  have joined : Sound { c with waiting := c.waiting ++ [waiting] } := by
    refine ⟨inv.bounded, inv.distinct, ?_, ?_, ?_, inv.pending, inv.dropped⟩
    · rw [held]
      cases waiting with
      | run options input => simpa [Waiting.ids] using inv.apart
      | post own message route =>
          obtain ⟨⟨-, unqueued, unheld⟩, -⟩ := ready own message route rfl
          rw [← List.append_assoc]
          exact List.nodup_append.mpr ⟨inv.apart, List.pairwise_singleton _ _, fun a before b new same =>
            (List.mem_append.mp before).elim (fun h => unqueued (List.mem_singleton.mp new ▸ same ▸ h))
              (fun h => unheld (List.mem_singleton.mp new ▸ same ▸ h))⟩
    · intro id member
      rw [held, ← List.append_assoc] at member
      rcases List.mem_append.mp member with before | new
      · exact inv.known id before
      · cases waiting with
        | run options input => exact absurd new List.not_mem_nil
        | post own message route => exact List.mem_singleton.mp new ▸ (ready own message route rfl).1.made
    · intro own message route member
      rcases List.mem_append.mp member with before | new
      · exact inv.labelled own message route before
      · exact (ready own message route (List.mem_singleton.mp new).symm).2
  exact joined.call h (fun _ made => World.Adds.create made) fun _ member => absurd member List.not_mem_nil

/-- A caller comes back from `ensure` with what it holds. -/
theorem resume {k : Nat} {caller : Waiting} (inv : c.Sound) (h : c.waiting[k]? = some caller) :
    Sound { c with waiting := c.waiting.eraseIdx k } ∧ ∀ own message route, caller = .post own message route →
      Posts.Ready { c with waiting := c.waiting.eraseIdx k } own ∧ inboxMessageId message = own.id := by
  obtain ⟨bound, rfl⟩ := List.getElem?_eq_some_iff.mp h
  have held : c.held.Perm (c.waiting[k].ids ++ Posts.held { c with waiting := c.waiting.eraseIdx k }) :=
    (List.getElem_cons_eraseIdx_perm bound).symm.flatMap_right Waiting.ids
  have apart : (c.queued ++ (c.waiting[k].ids ++ Posts.held { c with waiting := c.waiting.eraseIdx k })).Nodup :=
    (held.append_left c.queued).nodup_iff.mp inv.apart
  obtain ⟨queued, rest, across⟩ := List.nodup_append.mp apart
  obtain ⟨-, left, within⟩ := List.nodup_append.mp rest
  refine ⟨⟨inv.bounded, inv.distinct, ?_, ?_, ?_, inv.pending, inv.dropped⟩, ?_⟩
  · exact List.nodup_append.mpr ⟨queued, left, fun a ha b hb => across a ha b (List.mem_append_right _ hb)⟩
  · intro id member
    refine inv.known id (List.mem_append.mpr ((List.mem_append.mp member).imp_right fun h => ?_))
    exact held.mem_iff.mpr (List.mem_append_right _ h)
  · exact fun own message route member => inv.labelled own message route (List.mem_of_mem_eraseIdx member)
  · intro own message route same
    have ids : own.id ∈ c.waiting[k].ids := by
      rw [same]
      exact List.mem_cons_self
    have member : own.id ∈ c.held := held.mem_iff.mpr (List.mem_append_left _ ids)
    refine ⟨⟨inv.known _ (List.mem_append_right _ member), fun h => ?_, fun h => ?_⟩, ?_⟩
    · exact across _ h _ (List.mem_append_left _ ids) rfl
    · exact within _ ids _ h rfl
    · exact inv.labelled own message route (same ▸ List.getElem_mem bound)

theorem runInput {options : DriveOptions} {input : String} {refused : Bool} (inv : c.Sound)
    (spaced : input.isEmpty = false → ∀ m ∈ c.minted, m.letter = .u → m.length < c.world.log.length)
    (h : c.runInput options input refused = some c') : Sound c' := by
  have adds (world : World) (made : c.world.call (.run options input refused) = some world) : c.world.Adds world
      (if !input.isEmpty && c.running && !refused then [c.world.runInput input] else []) := by
    obtain ⟨i, current, rfl⟩ := Option.map_eq_some_iff.mp made
    have running : c.running = (c.world.agents[i]?).any (·.running) := by
      rw [Posts.running, current]
      rfl
    rw [running]
    exact World.Adds.run c.world i options input refused
  unfold Posts.runInput at h
  split at h
  case isTrue empty =>
    rw [empty] at adds
    exact inv.call h adds fun _ member => absurd member List.not_mem_nil
  case isFalse solid =>
    obtain ⟨recorded, ready⟩ := inv.record (spaced (eq_false_of_ne_true solid))
    rw [eq_false_of_ne_true solid] at adds
    dsimp only at h
    split at h
    case isTrue queues =>
      refine (recorded.count ready).call h adds fun x member => .inl ?_
      rw [Bool.not_false, Bool.true_and, if_pos queues] at member
      rw [List.mem_singleton.mp (List.mem_of_mem_filter member)]
      exact List.mem_cons_self
    case isFalse seeds =>
      refine recorded.call h adds fun x member => ?_
      rw [Bool.not_false, Bool.true_and, if_neg seeds] at member
      exact absurd member List.not_mem_nil

theorem post {letter : Letter} {message : String → Json} {route : Route} {refused : Bool} (inv : c.Sound)
    (spaced : ∀ m ∈ c.minted, m.letter = letter → m.length < c.world.log.length)
    (label : ∀ id, inboxMessageId (message id) = id) (h : c.post letter message route refused = some c') : Sound c' := by
  obtain ⟨recorded, ready⟩ := inv.record spaced
  unfold Posts.post at h
  dsimp only at h
  split at h
  case h_1 => exact recorded.deliver ready (label _) h
  case h_2 =>
    refine recorded.wait (fun own message' route' same => ?_) h
    cases same
    exact ⟨ready, label _⟩

theorem others {act : Act} (inv : c.Sound) (h : c.others act = some c') : Sound c' := by
  obtain ⟨world, made, rfl⟩ := Option.map_eq_some_iff.mp h
  obtain ⟨new, adds⟩ := World.next_adds made
  have gained : world.accepted.drop c.world.accepted.length = new := by
    rw [adds.accepted]
    exact List.drop_left
  rw [gained]
  refine ⟨fun m member => (inv.bounded m member).trans adds.log.length_le, inv.distinct, inv.apart, inv.known, inv.labelled, ?_, ?_⟩
  · intro x member
    rw [messageIds_append]
    rcases adds.pending x member with before | now
    · exact (inv.pending x before).imp_right (List.mem_append_left _)
    · exact .inr (List.mem_append_right _ now)
  · intro x member
    rw [messageIds_append]
    exact List.mem_append_left _ (inv.dropped x member)

end Posts.Sound

theorem inboxMessageId_textMessage (text : String) (source : Option Json) (id : String) :
    inboxMessageId (textMessage text source id) = id := rfl

theorem Posts.Sound.next {c c' : Posts} {op : PostOp} (inv : c.Sound) (spaced : Spaced c op) (h : c.next op = some c') :
    c'.Sound := by
  cases op with
  | run options input refused =>
      unfold Posts.next at h
      dsimp only at h
      split at h
      case h_1 i current =>
        refine inv.runInput (fun solid => spaced .u ?_) h
        simp [Posts.letterOf, current, solid]
      case h_2 => exact inv.wait (fun _ _ _ same => by cases same) h
  | sendMessage text options refused => exact inv.post (spaced .u rfl) (inboxMessageId_textMessage _ _) h
  | deliverSettlement text refused | notice jobId text refused =>
      exact inv.post (spaced .c rfl) (inboxMessageId_textMessage _ _) h
  | created k refused =>
      unfold Posts.next at h
      dsimp only at h
      split at h
      case h_1 => cases h
      case h_2 caller there =>
        obtain ⟨resumed, held⟩ := inv.resume there
        split at h
        case h_1 =>
          cases h
          exact resumed
        case h_2 i current =>
          split at h
          case h_1 options input =>
            refine resumed.runInput (fun solid => spaced .u ?_) h
            simp [Posts.letterOf, there, current, solid]
          case h_2 own message route =>
            obtain ⟨ready, label⟩ := held own message route rfl
            exact resumed.deliver ready label h
  | notCreated k =>
      unfold Posts.next at h
      dsimp only at h
      split at h
      case h_1 => cases h
      case h_2 caller there =>
        have adds (world : World) (made : c.world.call .createFailed = some world) : c.world.Adds world [] := by
          cases made
          exact .of_same rfl rfl
        exact (inv.resume there).1.call h adds fun _ member => absurd member List.not_mem_nil
  | other act =>
      have made : c.others act = some c' := by
        unfold Posts.next at h
        dsimp only at h
        split at h
        · split at h
          · exact h
          · cases h
        · exact h
      exact inv.others made

theorem Posts.Sound.start {c : Posts} (h : postSystem.start c) : c.Sound := by
  obtain ⟨log, success, rfl⟩ := h
  refine ⟨nofun, List.nodup_nil, List.nodup_nil, nofun, nofun, fun x member => .inr ?_, nofun⟩
  simp only [World.fresh, messageIds_append]
  rcases List.mem_append.mp member with turn | step
  · exact List.mem_append_left _ (List.mem_append_right _ turn)
  · exact List.mem_append_right _ step

/-- A step that makes a message records it. -/
theorem Posts.next_minted {c c' : Posts} {op : PostOp} {letter : Letter} (makes : c.letterOf op = some letter)
    (h : c.next op = some c') : c'.minted = c.mint letter :: c.minted := by
  have called {d d' : Posts} {call : Call} (made : d.call call = some d') : d'.minted = d.minted := by
    obtain ⟨world, -, rfl⟩ := Option.map_eq_some_iff.mp made
    rfl
  have posted {message : String → Json} {route : Route} {refused : Bool}
      (made : c.post letter message route refused = some c') : c'.minted = c.mint letter :: c.minted := by
    unfold Posts.post at made
    dsimp only at made
    split at made
    · refine (called made).trans ?_
      split <;> rfl
    · exact called made
  have ran {d : Posts} {options : DriveOptions} {input : String} {refused : Bool} (solid : input.isEmpty = false)
      (made : d.runInput options input refused = some c') : c'.minted = d.mint .u :: d.minted := by
    unfold Posts.runInput at made
    rw [solid, if_neg Bool.false_ne_true] at made
    refine (called made).trans ?_
    split <;> rfl
  cases op with
  | run options input refused =>
      simp only [Posts.letterOf, Bool.and_eq_true, Bool.not_eq_true', Option.ite_none_right_eq_some] at makes
      obtain ⟨⟨there, solid⟩, same⟩ := makes
      obtain ⟨i, current⟩ := Option.isSome_iff_exists.mp there
      cases same
      unfold Posts.next at h
      rw [current] at h
      exact ran solid h
  | sendMessage text options refused =>
      cases makes
      exact posted h
  | deliverSettlement text refused | notice jobId text refused =>
      cases makes
      exact posted h
  | created k refused =>
      unfold Posts.letterOf at makes
      dsimp only at makes
      split at makes
      case h_1 options input there =>
        simp only [Bool.and_eq_true, Bool.not_eq_true', Option.ite_none_right_eq_some] at makes
        obtain ⟨⟨some, solid⟩, same⟩ := makes
        obtain ⟨i, current⟩ := Option.isSome_iff_exists.mp some
        cases same
        simp only [Posts.next, there, current] at h
        exact ran (d := { c with waiting := c.waiting.eraseIdx k }) solid h
      case h_2 => cases makes
  | notCreated k => cases makes
  | other act => cases makes

/-- A message that is made while the log is as long as it was for another one of its letter has the other's id. -/
theorem Posts.Sound.spaced {c c' : Posts} {op : PostOp} (inv : c.Sound) (h : c.next op = some c') (distinct : Distinct c') :
    Spaced c op := by
  intro letter makes m member same
  have nodup := distinct.1
  rw [Posts.next_minted makes h, List.map_cons, List.nodup_cons] at nodup
  refine Nat.lt_of_le_of_ne (inv.bounded m member) fun length => nodup.1 (List.mem_map.mpr ⟨m, member, ?_⟩)
  rw [Minted.id, Minted.id, same, length]
  rfl

theorem minted_distinct {c : Posts} (h : postSystem.Reached Spaced c) :
    Distinct c ∧ ∀ op c', c.next op = some c' → (Distinct c' ↔ Spaced c op) := by
  have inv : c.Sound := h.invariant (I := Posts.Sound) (fun _ => Posts.Sound.start)
    fun _ _ _ _ inv made spaced => inv.next spaced made
  refine ⟨⟨inv.distinct, inv.dropped⟩, fun op c' made => ⟨inv.spaced made, fun spaced => ?_⟩⟩
  exact ⟨(inv.next spaced made).distinct, (inv.next spaced made).dropped⟩

instance (c : Posts) : Decidable (Distinct c) :=
  inferInstanceAs (Decidable ((c.minted.map Minted.id).Nodup ∧ ∀ id ∈ c.dropped, id ∈ messageIds c.foreign))

/-- A notice, a settlement and a message for the session, each made after the log has grown. -/
theorem minted_distinct_spaced : ∃ c, postSystem.Reached Spaced c ∧ c.minted.map Minted.id = ["u2", "c1", "c0"] ∧
    Distinct c ∧ ∀ op c', c.next op = some c' → (Distinct c' ↔ Spaced c op) := by
  have played : (System.follow Posts.next (fun c op => decide (Spaced c op)) { world := World.fresh [] false }
      [.notice "j1" "a" false, .created 0 false, .deliverSettlement "done" false, .sendMessage "b" {} false]).any
        (fun c => decide (c.minted.map Minted.id = ["u2", "c1", "c0"])) = true := by
    decide +kernel
  obtain ⟨c, hc, ids⟩ := (Option.any_eq_true _ _).mp played
  have reached := System.follow_reached (S := postSystem) (P := Spaced) (fun _ _ _ h => h) (fun _ _ h => of_decide_eq_true h) hc
    (.start ⟨[], false, rfl⟩)
  exact ⟨c, reached, of_decide_eq_true ids, minted_distinct reached⟩

/-- The second of two notices finds the agent that the first one waits for, and both are made from the empty log. -/
theorem minted_collides : ¬ ∀ c, postSystem.Reached (fun _ _ => True) c → Distinct c := by
  intro distinct
  have played : (System.follow Posts.next (fun _ _ => true) { world := World.fresh [] false }
      [.notice "j1" "a" false, .notice "j2" "b" false, .created 0 false]).any
        (fun c => decide (c.minted.map Minted.id = ["c0", "c0"] ∧ c.dropped = ["c0"] ∧ messageIds c.foreign = [] ∧
          (inboxOf c.world.log).ids = ["c0"])) = true := by
    decide +kernel
  obtain ⟨c, hc, collided⟩ := (Option.any_eq_true _ _).mp played
  obtain ⟨ids, -⟩ := of_decide_eq_true collided
  have reached := System.follow_reached (S := postSystem) (P := fun _ _ => True) (fun _ _ _ h => h) (fun _ _ _ => trivial) hc
    (.start ⟨[], false, rfl⟩)
  have nodup := (distinct c reached).1
  rw [ids] at nodup
  exact absurd nodup (by decide)

end Araya.Agent
