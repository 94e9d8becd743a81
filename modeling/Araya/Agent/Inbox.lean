import Araya.Util.Json

/-!
The durable inbox of an agent: two ordered queues of pending messages, kept as
a projection of the session log. Every mutation is one splice event, written
against the queue as it is and folded back with the same coordinates.
-/

namespace Araya.Agent

inductive InboxTarget where
  | nextTurn
  | nextStep
  deriving DecidableEq, Repr

/-- The pending messages, each a whole message payload. -/
structure InboxState where
  nextTurn : List Json := []
  nextStep : List Json := []

def targetName : InboxTarget → String
  | .nextTurn => "next-turn"
  | .nextStep => "next-step"

def int64Max : Int := 2 ^ 63 - 1

/-- `as_index`. -/
def asIndex : Json → Option Int
  | .int n => some n
  | .uint n => if (n : Int) ≤ int64Max then some n else none
  | _ => none

namespace InboxState

def queue (s : InboxState) : InboxTarget → List Json
  | .nextTurn => s.nextTurn
  | .nextStep => s.nextStep

def setQueue (s : InboxState) (target : InboxTarget) (q : List Json) : InboxState :=
  match target with
  | .nextTurn => { s with nextTurn := q }
  | .nextStep => { s with nextStep := q }

def hasPending (s : InboxState) : Bool := !s.nextTurn.isEmpty || !s.nextStep.isEmpty

end InboxState

/-- `queue_for`. -/
def targetOf (name : String) : Option InboxTarget :=
  if name = "next-turn" then some .nextTurn
  else if name = "next-step" then some .nextStep
  else none

/-- `inbox_message_id`: empty where the message carries none. -/
def inboxMessageId (message : Json) : String :=
  (message.ifObject.bind fun o => Json.stringField o "id").getD ""

def inboxSpliceData (target : InboxTarget) (start removedCount : Int) (inserted : List Json)
    (outcome : String) : Json :=
  .obj ([("target", .str (targetName target)), ("start", .int start)] ++
    (if removedCount ≠ 0 then [("removedCount", .int removedCount)] else []) ++
    [("inserted", .arr inserted)] ++
    if outcome.isEmpty then [] else [("outcome", .str outcome)])

/-- The coordinates of `toSpliced`: a negative start counts from the end. -/
def clampStart (length : Nat) (start : Int) : Int :=
  if start < 0 then max (length + start) 0 else min start length

def clampCount (length : Nat) (start count : Int) : Int :=
  min (if count < 0 then 0 else count) (length - start)

structure InboxMutation where
  data : Json := .null
  removed : List Json := []
  noop : Bool := false

def makeInboxSplice (state : InboxState) (target : InboxTarget) (start deleteCount : Int)
    (inserted : List Json) (discard : Bool) : InboxMutation :=
  let queue := state.queue target
  let at' := clampStart queue.length start
  let count := clampCount queue.length at' deleteCount
  if count = 0 ∧ inserted = [] then { noop := true }
  else {
    data := inboxSpliceData target at' count inserted
      (if discard ∧ count > 0 then "canceled" else "")
    removed := (queue.drop at'.toNat).take count.toNat }

/-- A message enters unless it has no id or its id is present; `at` moves behind it. -/
def insertNew (ids : List String) (queue : List Json) (at' : Nat) : List Json → List Json
  | [] => queue
  | message :: rest =>
    let id := inboxMessageId message
    if id = "" ∨ id ∈ ids then insertNew ids queue at' rest
    else insertNew (id :: ids) (queue.take at' ++ message :: queue.drop at') (at' + 1) rest

/-- The ids of the messages that carry one. -/
def messageIds (messages : List Json) : List String :=
  (messages.map inboxMessageId).filter (· ≠ "")

/-- The ids still present in either queue. -/
def InboxState.ids (s : InboxState) : List String := messageIds s.nextTurn ++ messageIds s.nextStep

/-- `apply_inbox_splice`: a malformed payload changes nothing. -/
def applyInboxSplice (state : InboxState) (data : Json) : InboxState :=
  match data.ifObject with
  | none => state
  | some o =>
    match (Json.stringField o "target").bind targetOf, (Json.find? o "start").bind asIndex,
        (Json.find? o "removedCount").map asIndex with
    | some target, some start, removed =>
      if removed = some none then state
      else
        let queue := state.queue target
        let at' := clampStart queue.length start
        let count := clampCount queue.length at' ((removed.getD none).getD 0)
        let kept := queue.take at'.toNat ++ queue.drop (at'.toNat + count.toNat)
        let state := state.setQueue target kept
        match Json.arrayField o "inserted" with
        | none => state
        | some inserted => state.setQueue target (insertNew state.ids kept at'.toNat inserted)
    | _, _, _ => state

/-! What is written folds back -/

theorem clampStart_bounds (length : Nat) (start : Int) :
    0 ≤ clampStart length start ∧ clampStart length start ≤ length := by
  simp only [clampStart]
  split <;> omega

theorem clampStart_again (length : Nat) (start : Int) :
    clampStart length (clampStart length start) = clampStart length start := by
  have bounds := clampStart_bounds length start
  rw [clampStart, if_neg (by omega)]
  omega

theorem clampCount_bounds (length : Nat) (start count : Int) (h : start ≤ length) :
    0 ≤ clampCount length start count ∧ clampCount length start count ≤ length - start := by
  simp only [clampCount]
  split <;> omega

theorem clampCount_again (length : Nat) (start count : Int) (h : start ≤ length) :
    clampCount length start (clampCount length start count) = clampCount length start count := by
  have bounds := clampCount_bounds length start count h
  rw [clampCount, if_neg (by omega)]
  omega

theorem targetOf_targetName (target : InboxTarget) : targetOf (targetName target) = some target := by
  cases target <;> simp [targetOf, targetName]

namespace InboxState

/-- The splice that a mutation stands for. -/
def spliced (s : InboxState) (target : InboxTarget) (start deleteCount : Int) (inserted : List Json) :
    InboxState :=
  let queue := s.queue target
  let at' := clampStart queue.length start
  let count := clampCount queue.length at' deleteCount
  let kept := queue.take at'.toNat ++ queue.drop (at'.toNat + count.toNat)
  let s' := s.setQueue target kept
  s'.setQueue target (insertNew s'.ids kept at'.toNat inserted)

end InboxState

theorem splice_data_fields (target : InboxTarget) (start count : Int) (inserted : List Json)
    (outcome : String) : ∃ o, inboxSpliceData target start count inserted outcome = .obj o ∧
      Json.stringField o "target" = some (targetName target) ∧
      Json.find? o "start" = some (.int start) ∧
      Json.find? o "removedCount" = (if count ≠ 0 then some (.int count) else none) ∧
      Json.arrayField o "inserted" = some inserted := by
  refine ⟨_, rfl, ?_⟩
  by_cases hc : count = 0 <;> by_cases ho : outcome = "" <;>
    simp [hc, ho, Json.stringField, Json.arrayField]

theorem applyInboxSplice_make (s : InboxState) (target : InboxTarget) (start deleteCount : Int)
    (inserted : List Json) (discard : Bool)
    (h : (makeInboxSplice s target start deleteCount inserted discard).noop = false) :
    applyInboxSplice s (makeInboxSplice s target start deleteCount inserted discard).data =
      s.spliced target start deleteCount inserted := by
  simp only [makeInboxSplice] at h ⊢
  split
  · next hn => rw [if_pos hn] at h; cases h
  · simp only
    have bounds := clampStart_bounds (s.queue target).length start
    obtain ⟨o, ho, ht, hs, hr, hi⟩ := splice_data_fields target
      (clampStart (s.queue target).length start)
      (clampCount (s.queue target).length (clampStart (s.queue target).length start) deleteCount)
      inserted (if discard ∧ clampCount (s.queue target).length
        (clampStart (s.queue target).length start) deleteCount > 0 then "canceled" else "")
    rw [ho]
    simp only [applyInboxSplice, Json.ifObject_obj, ht, hs, hr, hi, Option.bind_some,
      targetOf_targetName, asIndex, clampStart_again, InboxState.spliced]
    generalize hc : clampCount (s.queue target).length (clampStart (s.queue target).length start)
      deleteCount = count
    have again := clampCount_again (s.queue target).length _ deleteCount bounds.2
    rw [hc] at again
    by_cases h0 : count = 0
    · subst h0
      simp [again]
    · simp [h0, asIndex, again]

/-! What a splice does to the ids -/

theorem messageIds_append (a b : List Json) : messageIds (a ++ b) = messageIds a ++ messageIds b := by
  simp [messageIds]

theorem messageIds_cons (m : Json) (ms : List Json) :
    messageIds (m :: ms) = (if inboxMessageId m = "" then [] else [inboxMessageId m]) ++ messageIds ms := by
  by_cases h : inboxMessageId m = "" <;> simp [messageIds, h]

theorem ne_of_mem_messageIds {messages : List Json} {x : String} (h : x ∈ messageIds messages) : x ≠ "" := by
  simp only [messageIds, List.mem_filter, decide_eq_true_eq] at h
  exact h.2

namespace InboxState

theorem ne_of_mem_ids {s : InboxState} {x : String} (h : x ∈ s.ids) : x ≠ "" :=
  (List.mem_append.mp h).elim ne_of_mem_messageIds ne_of_mem_messageIds

theorem count_setQueue (s : InboxState) (target : InboxTarget) (q : List Json) (x : String) :
    (s.setQueue target q).ids.count x + (messageIds (s.queue target)).count x =
      s.ids.count x + (messageIds q).count x := by
  cases target <;> simp only [setQueue, ids, queue, List.count_append] <;> omega

theorem count_queue_le (s : InboxState) (target : InboxTarget) (x : String) :
    (messageIds (s.queue target)).count x ≤ s.ids.count x := by
  cases target <;> simp only [ids, queue, List.count_append] <;> omega

theorem setQueue_setQueue (s : InboxState) (target : InboxTarget) (p q : List Json) :
    (s.setQueue target p).setQueue target q = s.setQueue target q := by
  cases target <;> rfl

theorem queue_setQueue (s : InboxState) (target : InboxTarget) (q : List Json) :
    (s.setQueue target q).queue target = q := by
  cases target <;> rfl

theorem setQueue_queue (s : InboxState) (target : InboxTarget) : s.setQueue target (s.queue target) = s := by
  cases target <;> rfl

theorem ids_of_not_pending {s : InboxState} (h : s.hasPending = false) : s.ids = [] := by
  simp only [hasPending, Bool.or_eq_false_iff, Bool.not_eq_false', List.isEmpty_iff] at h
  simp [ids, h.1, h.2, messageIds]

end InboxState

/-- A queued message: it enters its queue once, unless it has no id or its id is pending. -/
theorem count_enqueued (s : InboxState) (target : InboxTarget) (start : Int) (m : Json) {x : String}
    (hx : x ≠ "") : (s.spliced target start 0 [m]).ids.count x =
      s.ids.count x + if inboxMessageId m = x ∧ x ∉ s.ids then 1 else 0 := by
  have bounds := clampStart_bounds (s.queue target).length start
  have hzero : clampCount (s.queue target).length (clampStart (s.queue target).length start) 0 = 0 := by
    simp only [clampCount]
    split <;> omega
  simp only [InboxState.spliced, hzero, Int.toNat_zero, Nat.add_zero, List.take_append_drop,
    InboxState.setQueue_queue, insertNew]
  by_cases hid : inboxMessageId m = "" ∨ inboxMessageId m ∈ s.ids
  · rw [if_pos hid, InboxState.setQueue_queue, if_neg]
    · rfl
    · rintro ⟨rfl, hnew⟩
      exact hid.elim hx hnew
  · rw [if_neg hid]
    have before := InboxState.count_setQueue s target ((s.queue target).take
      (clampStart (s.queue target).length start).toNat ++ m :: (s.queue target).drop
      (clampStart (s.queue target).length start).toNat) x
    have split := congrArg (fun q => (messageIds q).count x) (List.take_append_drop
      (clampStart (s.queue target).length start).toNat (s.queue target))
    have hne : inboxMessageId m ≠ "" := fun h => hid (.inl h)
    have hnew : inboxMessageId m ∉ s.ids := fun h => hid (.inr h)
    simp only [messageIds_append, messageIds_cons, hne, if_false, List.count_append,
      List.count_cons, List.count_nil, Nat.zero_add, beq_iff_eq] at before split ⊢
    by_cases hm : inboxMessageId m = x
    · subst hm
      simp only [hnew, not_false_eq_true, and_self, if_true] at before ⊢
      omega
    · simp only [hm, false_and, if_false] at before ⊢
      omega

/-- A removal takes each id out of its queue as often as it reports it. -/
theorem count_removed (s : InboxState) (target : InboxTarget) (start count : Int) (discard : Bool)
    (x : String) : (s.spliced target start count []).ids.count x +
      (messageIds (makeInboxSplice s target start count [] discard).removed).count x = s.ids.count x := by
  have bounds := clampStart_bounds (s.queue target).length start
  have counts := clampCount_bounds (s.queue target).length _ count bounds.2
  simp only [InboxState.spliced, insertNew, InboxState.setQueue_setQueue]
  generalize hat : clampStart (s.queue target).length start = at' at *
  generalize hc : clampCount (s.queue target).length at' count = n at *
  have removed : (makeInboxSplice s target start count [] discard).removed =
      ((s.queue target).drop at'.toNat).take n.toNat := by
    simp only [makeInboxSplice, hat, hc]
    split
    · next h => rw [h.1]; simp
    · rfl
  have before := InboxState.count_setQueue s target
    ((s.queue target).take at'.toNat ++ (s.queue target).drop (at'.toNat + n.toNat)) x
  have whole := congrArg (fun q => (messageIds q).count x)
    (List.take_append_drop at'.toNat (s.queue target))
  have tail := congrArg (fun q => (messageIds q).count x)
    (List.take_append_drop n.toNat ((s.queue target).drop at'.toNat))
  rw [removed]
  simp only [messageIds_append, List.count_append, List.drop_drop] at before whole tail ⊢
  omega

end Araya.Agent
