import Araya.Agent.Inbox
import Mathlib.Data.List.Nodup

/-!
What the maker of a splice reports and what the fold of its payload does. Both clamp the coordinates in the same way, but
only the fold looks at the ids of the messages, so that no payload can make an id pending twice.
-/

namespace Araya.Agent

/-- The messages that enter where the ids are present. -/
def entering : List String → List Json → List Json
  | _, [] => []
  | ids, message :: rest =>
    let id := inboxMessageId message
    if id = "" ∨ id ∈ ids then entering ids rest else message :: entering (id :: ids) rest

/-- The messages carry ids of their own that are not present. -/
structure Fresh (ids : List String) (messages : List Json) : Prop where
  named : ∀ m ∈ messages, inboxMessageId m ≠ "" ∧ inboxMessageId m ∉ ids
  distinct : (messages.map inboxMessageId).Nodup

section
variable {ids : List String} {messages queue : List Json} {at' : Nat}

theorem insertNew_eq (inside : at' ≤ queue.length) :
    insertNew ids queue at' messages = queue.take at' ++ entering ids messages ++ queue.drop at' := by
  induction messages generalizing ids queue at' with
  | nil =>
      unfold insertNew entering
      rw [List.append_nil, List.take_append_drop]
  | cons m rest ih =>
      unfold insertNew entering
      dsimp only
      split
      · exact ih inside
      · have front : (queue.take at').length = at' := List.length_take_of_le inside
        have begun : (queue.take at' ++ m :: queue.drop at').take (at' + 1) = queue.take at' ++ [m] := by
          rw [List.take_append, front, Nat.add_sub_cancel_left, List.take_of_length_le (by omega)]
          rfl
        have ended : (queue.take at' ++ m :: queue.drop at').drop (at' + 1) = queue.drop at' := by
          rw [List.drop_append, front, Nat.add_sub_cancel_left, List.drop_of_length_le (by omega)]
          rfl
        rw [ih (by rw [List.length_append, front, List.length_cons]; omega), begun, ended]
        simp only [List.append_assoc, List.cons_append, List.nil_append]

theorem entering_sublist : (entering ids messages).Sublist messages := by
  induction messages generalizing ids with
  | nil => exact .slnil
  | cons m rest ih =>
      unfold entering
      dsimp only
      split
      · exact ih.cons m
      · exact ih.cons_cons m

theorem entering_eq_iff : entering ids messages = messages ↔ Fresh ids messages := by
  induction messages generalizing ids with
  | nil => exact iff_of_true rfl ⟨fun m member => absurd member List.not_mem_nil, List.nodup_nil⟩
  | cons m rest ih =>
      unfold entering
      dsimp only
      split
      · next barred =>
          refine iff_of_false (fun same => ?_) fun fresh => ?_
          · have long : (entering ids rest).length ≤ rest.length := entering_sublist.length_le
            rw [same, List.length_cons] at long
            omega
          · have named := fresh.named m List.mem_cons_self
            exact barred.elim named.1 named.2
      · next free =>
          obtain ⟨filled, absent⟩ := not_or.mp free
          rw [List.cons.injEq, ih]
          constructor
          · rintro ⟨-, fresh⟩
            refine ⟨fun n member => ?_, ?_⟩
            · rcases List.mem_cons.mp member with rfl | later
              · exact ⟨filled, absent⟩
              · exact ⟨(fresh.named n later).1, fun known => (fresh.named n later).2 (List.mem_cons_of_mem _ known)⟩
            · refine List.nodup_cons.mpr ⟨fun again => ?_, fresh.distinct⟩
              obtain ⟨n, later, same⟩ := List.mem_map.mp again
              exact (fresh.named n later).2 (same ▸ List.mem_cons_self)
          · intro fresh
            obtain ⟨once, distinct⟩ := List.nodup_cons.mp fresh.distinct
            refine ⟨rfl, fun n later => ?_, distinct⟩
            obtain ⟨filled, absent⟩ := fresh.named n (List.mem_cons_of_mem _ later)
            refine ⟨filled, fun known => ?_⟩
            rcases List.mem_cons.mp known with same | known
            · exact once (same ▸ List.mem_map_of_mem later)
            · exact absent known

/-- An id enters once, and only if it is not present. -/
theorem count_entering (x : String) : (messageIds (entering ids messages)).count x ≤ if x ∈ ids then 0 else 1 := by
  induction messages generalizing ids with
  | nil => exact Nat.zero_le _
  | cons m rest ih =>
      unfold entering
      dsimp only
      split
      · exact ih
      · next free =>
          obtain ⟨filled, absent⟩ := not_or.mp free
          have later : (messageIds (entering (inboxMessageId m :: ids) rest)).count x ≤
              if x ∈ inboxMessageId m :: ids then 0 else 1 := ih
          rw [messageIds_cons, if_neg filled, List.count_append, List.count_singleton]
          by_cases same : inboxMessageId m = x
          · subst same
            rw [if_pos List.mem_cons_self] at later
            rw [if_neg absent, beq_self_eq_true, if_pos rfl]
            omega
          · rw [if_neg (by rwa [beq_iff_eq]), Nat.zero_add]
            by_cases known : x ∈ ids
            · rw [if_pos (List.mem_cons_of_mem _ known)] at later
              rwa [if_pos known]
            · refine later.trans ?_
              rw [if_neg known]
              split <;> omega

end

/-! A splice of a state -/

/-- Where a splice begins, and how many messages it removes. -/
def spliceAt (s : InboxState) (target : InboxTarget) (start : Int) : Nat := (clampStart (s.queue target).length start).toNat

def spliceCount (s : InboxState) (target : InboxTarget) (start deleteCount : Int) : Nat :=
  (clampCount (s.queue target).length (clampStart (s.queue target).length start) deleteCount).toNat

namespace InboxState

/-- The addressed messages of a queue. -/
def addressed (s : InboxState) (target : InboxTarget) (at' count : Nat) : List Json := ((s.queue target).drop at').take count

/-- The addressed messages give way to others. -/
def exchanged (s : InboxState) (target : InboxTarget) (at' count : Nat) (messages : List Json) : InboxState :=
  s.setQueue target ((s.queue target).take at' ++ messages ++ (s.queue target).drop (at' + count))

end InboxState

section
variable {s : InboxState} {target : InboxTarget} {start deleteCount : Int} {messages : List Json} {at' count : Nat}

theorem spliceAt_le : spliceAt s target start ≤ (s.queue target).length := by
  have bounds := clampStart_bounds (s.queue target).length start
  unfold spliceAt
  omega

theorem splice_inside : spliceAt s target start + spliceCount s target start deleteCount ≤ (s.queue target).length := by
  have bounds := clampStart_bounds (s.queue target).length start
  have counts := clampCount_bounds (s.queue target).length _ deleteCount bounds.2
  unfold spliceAt spliceCount
  omega

theorem exchanged_eq_iff : s.exchanged target at' count messages = s ↔ messages = s.addressed target at' count := by
  have whole : (s.queue target).take at' ++ s.addressed target at' count ++ (s.queue target).drop (at' + count) = s.queue target := by
    unfold InboxState.addressed
    rw [List.append_assoc, ← List.drop_drop, List.take_append_drop, List.take_append_drop]
  constructor
  · intro same
    have queues := congrArg (fun state : InboxState => state.queue target) same
    unfold InboxState.exchanged at queues
    rw [InboxState.queue_setQueue] at queues
    exact List.append_cancel_left (List.append_cancel_right (queues.trans whole.symm))
  · rintro rfl
    unfold InboxState.exchanged
    rw [whole, InboxState.setQueue_queue]

/-- The fold of a splice: the messages enter that may. -/
theorem spliced_eq : s.spliced target start deleteCount messages =
    s.exchanged target (spliceAt s target start) (spliceCount s target start deleteCount)
      (entering (s.exchanged target (spliceAt s target start) (spliceCount s target start deleteCount) []).ids messages) := by
  have inside : spliceAt s target start ≤ (s.queue target).length := spliceAt_le
  have front : ((s.queue target).take (spliceAt s target start)).length = spliceAt s target start := List.length_take_of_le inside
  unfold InboxState.spliced InboxState.exchanged
  rw [InboxState.setQueue_setQueue, List.append_nil]
  show s.setQueue target (insertNew _ ((s.queue target).take (spliceAt s target start) ++ (s.queue target).drop
    (spliceAt s target start + spliceCount s target start deleteCount)) (spliceAt s target start) messages) = _
  rw [insertNew_eq (by rw [List.length_append, front]; omega), List.take_left' front, List.drop_left' front]
  rfl

variable {discard : Bool}

theorem make_noop : (makeInboxSplice s target start deleteCount messages discard).noop = true ↔
    spliceCount s target start deleteCount = 0 ∧ messages = [] := by
  have bounds := clampStart_bounds (s.queue target).length start
  have counts := clampCount_bounds (s.queue target).length _ deleteCount bounds.2
  have none : spliceCount s target start deleteCount = 0 ↔
      clampCount (s.queue target).length (clampStart (s.queue target).length start) deleteCount = 0 := by
    unfold spliceCount
    omega
  unfold makeInboxSplice
  dsimp only
  rw [none]
  split
  · next nothing => exact iff_of_true rfl nothing
  · next something => exact iff_of_false Bool.false_ne_true something

theorem make_removed : (makeInboxSplice s target start deleteCount messages discard).removed =
    s.addressed target (spliceAt s target start) (spliceCount s target start deleteCount) := by
  unfold makeInboxSplice InboxState.addressed spliceAt spliceCount
  dsimp only
  split
  · next nothing => rw [nothing.1, Int.toNat_zero, List.take_zero]
  · rfl

end

/-- What the maker says of a splice: its payload takes out what is reported and puts in what is given, and there is a
payload unless nothing changes. -/
structure Honest (s : InboxState) (target : InboxTarget) (start deleteCount : Int) (messages : List Json) (discard : Bool) : Prop where
  folded : (makeInboxSplice s target start deleteCount messages discard).noop = false →
    applyInboxSplice s (makeInboxSplice s target start deleteCount messages discard).data = s.exchanged target
      (spliceAt s target start) (makeInboxSplice s target start deleteCount messages discard).removed.length messages
  removed : (makeInboxSplice s target start deleteCount messages discard).removed =
    s.addressed target (spliceAt s target start) (spliceCount s target start deleteCount)
  noop : (makeInboxSplice s target start deleteCount messages discard).noop = true ↔
    s.spliced target start deleteCount messages = s

/-- The messages given carry new ids, and are not just those that they replace. -/
structure Replaces (s : InboxState) (target : InboxTarget) (start deleteCount : Int) (messages : List Json) : Prop where
  fresh : Fresh (s.exchanged target (spliceAt s target start) (spliceCount s target start deleteCount) []).ids messages
  other : messages = s.addressed target (spliceAt s target start) (spliceCount s target start deleteCount) → messages = []

section
variable {s : InboxState} {target : InboxTarget} {start deleteCount : Int} {messages : List Json} {discard : Bool}

theorem addressed_length : (s.addressed target (spliceAt s target start) (spliceCount s target start deleteCount)).length =
    spliceCount s target start deleteCount := by
  have inside : spliceAt s target start + spliceCount s target start deleteCount ≤ (s.queue target).length := splice_inside
  unfold InboxState.addressed
  rw [List.length_take, List.length_drop]
  omega

theorem exchanged_injective {at' count : Nat} {messages' : List Json}
    (same : s.exchanged target at' count messages = s.exchanged target at' count messages') : messages = messages' := by
  have queues := congrArg (fun state : InboxState => state.queue target) same
  unfold InboxState.exchanged at queues
  rw [InboxState.queue_setQueue, InboxState.queue_setQueue] at queues
  exact List.append_cancel_left (List.append_cancel_right queues)

/-- The maker is right just for messages that all enter and that change something. -/
theorem honest_iff : Honest s target start deleteCount messages discard ↔ Replaces s target start deleteCount messages := by
  by_cases nothing : spliceCount s target start deleteCount = 0 ∧ messages = []
  · have quiet : (makeInboxSplice s target start deleteCount messages discard).noop = true := make_noop.mpr nothing
    obtain ⟨zero, rfl⟩ := nothing
    refine iff_of_true ⟨fun loud => ?_, make_removed, iff_of_true quiet ?_⟩ ⟨entering_eq_iff.mp rfl, fun _ => rfl⟩
    · exact absurd (quiet.symm.trans loud) (by decide)
    · rw [spliced_eq]
      refine exchanged_eq_iff.mpr ?_
      exact (List.eq_nil_of_length_eq_zero (addressed_length.trans zero)).symm
  · have loud : (makeInboxSplice s target start deleteCount messages discard).noop = false :=
      Bool.eq_false_iff.mpr fun quiet => nothing (make_noop.mp quiet)
    have changes : s.spliced target start deleteCount messages = s ↔ entering (s.exchanged target (spliceAt s target start)
        (spliceCount s target start deleteCount) []).ids messages =
          s.addressed target (spliceAt s target start) (spliceCount s target start deleteCount) := by
      rw [spliced_eq]
      exact exchanged_eq_iff
    constructor
    · rintro ⟨folded, -, quiet⟩
      have enters := folded loud
      rw [applyInboxSplice_make s target start deleteCount messages discard loud, spliced_eq, make_removed, addressed_length] at enters
      have all := exchanged_injective enters
      refine ⟨entering_eq_iff.mp all, fun same => ?_⟩
      rw [changes, all] at quiet
      exact absurd (loud.symm.trans (quiet.mpr same)) (by decide)
    · rintro ⟨fresh, other⟩
      have all := entering_eq_iff.mpr fresh
      refine ⟨fun _ => ?_, make_removed, ?_⟩
      · rw [applyInboxSplice_make s target start deleteCount messages discard loud, spliced_eq, make_removed, addressed_length, all]
      · rw [changes, all]
        refine iff_of_false (Bool.eq_false_iff.mp loud) fun same => nothing ⟨?_, other same⟩
        rw [← addressed_length, ← same, other same]
        rfl

end

/-! Any payload -/

/-- A payload addresses the messages of a queue from a place on. -/
structure Addresses (data : Json) (target : InboxTarget) (start removed : Int) : Prop where
  queue : data.ifObject.bind (fun o => (Json.stringField o "target").bind targetOf) = some target
  start : data.ifObject.bind (fun o => (Json.find? o "start").bind asIndex) = some start
  removed : data.ifObject.bind (fun o => (Json.find? o "removedCount").map asIndex) = some (some removed) ∨
    data.ifObject.bind (fun o => Json.find? o "removedCount") = none ∧ removed = 0

/-- Only addressed messages leave, and those that enter have ids that are not pending. -/
theorem applyInboxSplice_cases (s : InboxState) (data : Json) : applyInboxSplice s data = s ∨
    ∃ target start removed messages, Addresses data target start removed ∧
      applyInboxSplice s data = s.spliced target start removed messages := by
  cases object : data.ifObject with
  | none =>
      refine .inl ?_
      unfold applyInboxSplice
      rw [object]
  | some o =>
      cases queue : (Json.stringField o "target").bind targetOf with
      | none =>
          refine .inl ?_
          unfold applyInboxSplice
          rw [object]
          dsimp only
          rw [queue]
      | some target =>
          cases place : (Json.find? o "start").bind asIndex with
          | none =>
              refine .inl ?_
              unfold applyInboxSplice
              rw [object]
              dsimp only
              rw [queue, place]
          | some start =>
              by_cases malformed : (Json.find? o "removedCount").map asIndex = some none
              · refine .inl ?_
                unfold applyInboxSplice
                rw [object]
                dsimp only
                rw [queue, place]
                exact if_pos malformed
              · refine .inr ⟨target, start, (((Json.find? o "removedCount").map asIndex).getD none).getD 0,
                  (Json.arrayField o "inserted").getD [], ⟨?_, ?_, ?_⟩, ?_⟩
                · rw [object]
                  exact queue
                · rw [object]
                  exact place
                · rw [object, Option.bind_some, Option.bind_some]
                  cases count : Json.find? o "removedCount" with
                  | none => exact .inr ⟨rfl, rfl⟩
                  | some value =>
                      rw [count, Option.map_some] at malformed
                      cases index : asIndex value with
                      | none => exact absurd (congrArg some index) malformed
                      | some n =>
                          refine .inl ?_
                          rw [Option.map_some, index]
                          rfl
                · unfold applyInboxSplice
                  rw [object]
                  dsimp only
                  rw [queue, place]
                  dsimp only
                  rw [if_neg malformed]
                  cases Json.arrayField o "inserted" with
                  | none =>
                      unfold InboxState.spliced insertNew
                      exact (InboxState.setQueue_setQueue _ _ _ _).symm
                  | some inserted => rfl

theorem spliced_unique {s : InboxState} {target : InboxTarget} {start count : Int} {messages : List Json}
    (unique : s.ids.Nodup) : (s.spliced target start count messages).ids.Nodup := by
  rw [List.nodup_iff_count_le_one] at unique ⊢
  intro x
  have once := unique x
  rw [spliced_eq]
  generalize spliceAt s target start = at'
  generalize spliceCount s target start count = n
  have entered : (messageIds (entering (s.exchanged target at' n []).ids messages)).count x ≤
      if x ∈ (s.exchanged target at' n []).ids then 0 else 1 := count_entering x
  generalize entering (s.exchanged target at' n []).ids messages = entered' at *
  have left := InboxState.count_setQueue s target ((s.queue target).take at' ++ [] ++ (s.queue target).drop (at' + n)) x
  have after := InboxState.count_setQueue s target ((s.queue target).take at' ++ entered' ++ (s.queue target).drop (at' + n)) x
  have whole := congrArg (fun q => (messageIds q).count x) (List.take_append_drop at' (s.queue target))
  have rest := congrArg (fun q => (messageIds q).count x) (List.take_append_drop n ((s.queue target).drop at'))
  unfold InboxState.exchanged at entered ⊢
  simp only [messageIds_append, List.count_append, List.drop_drop, List.append_nil] at left after whole rest entered ⊢
  by_cases known : x ∈ (s.setQueue target ((s.queue target).take at' ++ (s.queue target).drop (at' + n))).ids
  · rw [if_pos known] at entered
    omega
  · rw [if_neg known] at entered
    have absent := List.count_eq_zero_of_not_mem known
    omega

/-- A splice is folded as its maker reports it just when the messages given carry ids that are not pending, and are not
those that it removes. No payload at all makes an id pending twice, or moves a message that it does not address. -/
theorem splice_honest_iff (s : InboxState) :
    (∀ (target : InboxTarget) (start deleteCount : Int) (messages : List Json) (discard : Bool),
      Honest s target start deleteCount messages discard ↔ Replaces s target start deleteCount messages) ∧
    ∀ data : Json, (s.ids.Nodup → (applyInboxSplice s data).ids.Nodup) ∧
      (applyInboxSplice s data = s ∨ ∃ target start removed messages, Addresses data target start removed ∧
        applyInboxSplice s data = s.exchanged target (spliceAt s target start) (spliceCount s target start removed) messages) := by
  refine ⟨fun target start deleteCount messages discard => honest_iff, fun data => ?_⟩
  rcases applyInboxSplice_cases s data with same | ⟨target, start, removed, messages, addresses, spliced⟩
  · rw [same]
    exact ⟨id, .inl rfl⟩
  · rw [spliced]
    exact ⟨spliced_unique, .inr ⟨target, start, removed, _, addresses, spliced_eq⟩⟩

/-- A message whose id is pending is queued: the maker reports a change, and nothing changes. -/
theorem splice_overpromises :
    let message := Json.obj [("id", .str "m")]
    let state : InboxState := { nextTurn := [message] }
    (makeInboxSplice state .nextStep 0 0 [message] false).noop = false ∧
      applyInboxSplice state (makeInboxSplice state .nextStep 0 0 [message] false).data = state ∧
        ¬ Honest state .nextStep 0 0 [message] false := by
  refine ⟨rfl, rfl, fun honest => ?_⟩
  have quiet : true = false := (honest.noop.mpr rfl).symm.trans rfl
  cases quiet

end Araya.Agent
