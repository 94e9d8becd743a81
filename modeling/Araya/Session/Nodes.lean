import Araya.Session.Replay
import Araya.Agent.Prompt
import Mathlib.Data.List.Induction

/-!
Where the nodes of a surface come from and where they go: an event has a node when it folds to a message,
and the node stays until a later replacement spans it.
-/

namespace Araya.Sessions

open SessionStore

/-- The event gets a node. -/
def SurfacePlan.isNode : SurfacePlan → Bool
  | .append _ | .replace _ _ (some _) => true
  | _ => false

def SurfacePlan.spans (j : Nat) : SurfacePlan → Bool
  | .replace start stop _ => start ≤ j ∧ j < stop
  | _ => false

/-- What an event folds to, when the fold does not throw. -/
def planned (ps : List MessageProjection) (ev : Event) : SurfacePlan := (foldEvent ev ps).toOption.getD .none

def noded (ps : List MessageProjection) (log : List Event) (j : Nat) : Bool := log[j]?.any fun ev => (planned ps ev).isNode

/-- A later event replaces the span around `j`. -/
def erased (ps : List MessageProjection) (log : List Event) (j : Nat) : Bool :=
  (log.drop (j + 1)).any fun ev => (planned ps ev).spans j

/-- The node of an event was on the surface and a replacement removed it. -/
def Removed (ps : List MessageProjection) (log : List Event) (j : Nat) : Prop :=
  ∃ before ev after s start stop message, log = before ++ ev :: after ∧ foldLog ps before {} = .ok s ∧
    foldEvent ev ps = .ok (.replace start stop message) ∧ j ∈ s.sourceSeqs ∧
      j ∉ (s.replace start stop ev.seq message).sourceSeqs

section
variable {ps : List MessageProjection} {log : List Event} {ev : Event} {s : Surface} {plan : SurfacePlan} {j : Nat}

theorem planned_eq (folded : foldEvent ev ps = .ok plan) : planned ps ev = plan := by
  unfold planned
  rw [folded]
  rfl

theorem spans_replace (spans : plan.spans j = true) : ∃ start stop message, plan = .replace start stop message ∧
    start ≤ j ∧ j < stop := by
  cases plan with
  | replace start stop message => exact ⟨start, stop, message, rfl, of_decide_eq_true spans⟩
  | _ => cases spans

/-! One event -/

/-- A surface keeps a number for each message. -/
def Surface.Even (s : Surface) : Prop := s.messages.length = s.sourceSeqs.length

theorem mem_sourceSeqs (even : s.Even) : j ∈ s.sourceSeqs ↔ ∃ m, (m, j) ∈ s.messages.zip s.sourceSeqs := by
  have whole : s.sourceSeqs = (s.messages.zip s.sourceSeqs).map Prod.snd := (List.map_snd_zip even.ge).symm
  constructor
  · intro member
    rw [whole] at member
    obtain ⟨⟨m, q⟩, there, rfl⟩ := List.mem_map.mp member
    exact ⟨m, there⟩
  · rintro ⟨m, there⟩
    rw [whole]
    exact List.mem_map.mpr ⟨_, there, rfl⟩

theorem even_apply (even : s.Even) (seq : Nat) (plan : SurfacePlan) : (s.apply seq plan).Even := by
  cases plan with
  | none => exact even
  | append m =>
      show (s.messages ++ [m]).length = (s.sourceSeqs ++ [seq]).length
      rw [List.length_append, List.length_append, even]
      rfl
  | replace start stop message =>
      unfold Surface.Even Surface.apply Surface.replace
      rw [List.length_map, List.length_map]

theorem outside_place {start stop : Nat} {nodes : List (Message × Nat)} {write k : Nat}
    (place : (Surface.outside start stop nodes write).2 = some k) :
    k ≤ write + (Surface.outside start stop nodes write).1.length := by
  induction nodes generalizing write with
  | nil => cases place
  | cons n ns ih =>
      unfold Surface.outside at place ⊢
      split at place
      · next inside =>
          rw [if_pos inside]
          cases place
          exact Nat.le_add_right _ _
      · next beside =>
          rw [if_neg beside]
          have later := ih place
          rw [List.length_cons]
          omega

theorem mem_outside {start stop write : Nat} (even : s.Even) :
    (∃ m, (m, j) ∈ (Surface.outside start stop (s.messages.zip s.sourceSeqs) write).1) ↔
      ¬ (start ≤ j ∧ j < stop) ∧ j ∈ s.sourceSeqs := by
  rw [Agent.outside_eq_filter, mem_sourceSeqs even]
  constructor
  · rintro ⟨m, member⟩
    obtain ⟨there, beside⟩ := List.mem_filter.mp member
    exact ⟨of_decide_eq_true beside, m, there⟩
  · rintro ⟨beside, m, there⟩
    exact ⟨m, List.mem_filter.mpr ⟨there, decide_eq_true beside⟩⟩

theorem mem_replaced (even : s.Even) {start stop seq : Nat} {message : Option Message} :
    j ∈ (s.replace start stop seq message).sourceSeqs ↔
      message.isSome = true ∧ j = seq ∨ ¬ (start ≤ j ∧ j < stop) ∧ j ∈ s.sourceSeqs := by
  have kept : (∃ m, (m, j) ∈ (Surface.outside start stop (s.messages.zip s.sourceSeqs) 0).1) ↔
      ¬ (start ≤ j ∧ j < stop) ∧ j ∈ s.sourceSeqs := mem_outside even
  have listed : ∀ nodes : List (Message × Nat), j ∈ nodes.map Prod.snd ↔ ∃ m, (m, j) ∈ nodes := by
    intro nodes
    constructor
    · intro member
      obtain ⟨⟨m, q⟩, there, rfl⟩ := List.mem_map.mp member
      exact ⟨m, there⟩
    · rintro ⟨m, there⟩
      exact List.mem_map.mpr ⟨_, there, rfl⟩
  cases message with
  | none =>
      refine (listed _).trans (kept.trans ⟨.inr, ?_⟩)
      rintro (⟨some, -⟩ | old)
      · cases some
      · exact old
  | some m =>
      have place : (Surface.outside start stop (s.messages.zip s.sourceSeqs) 0).2.getD
          (Surface.outside start stop (s.messages.zip s.sourceSeqs) 0).1.length ≤
            (Surface.outside start stop (s.messages.zip s.sourceSeqs) 0).1.length := by
        cases at_ : (Surface.outside start stop (s.messages.zip s.sourceSeqs) 0).2 with
        | none => exact Nat.le_refl _
        | some k => exact (outside_place at_).trans (Nat.zero_add _).le
      refine (listed _).trans ?_
      constructor
      · rintro ⟨m', member⟩
        rcases (List.mem_insertIdx place).mp member with new | old
        · exact .inl ⟨rfl, congrArg Prod.snd new⟩
        · exact .inr (kept.mp ⟨m', old⟩)
      · rintro (⟨-, rfl⟩ | old)
        · exact ⟨m, (List.mem_insertIdx place).mpr (.inl rfl)⟩
        · obtain ⟨m', there⟩ := kept.mpr old
          exact ⟨m', (List.mem_insertIdx place).mpr (.inr there)⟩

/-- A node is there after an event when the event has it, or when it was there and is not replaced. -/
theorem mem_apply (even : s.Even) {seq : Nat} : j ∈ (s.apply seq plan).sourceSeqs ↔
    plan.isNode = true ∧ j = seq ∨ plan.spans j = false ∧ j ∈ s.sourceSeqs := by
  cases plan with
  | none =>
      refine ⟨fun member => .inr ⟨rfl, member⟩, ?_⟩
      rintro (⟨node, -⟩ | ⟨-, old⟩)
      · cases node
      · exact old
  | append m =>
      refine List.mem_append.trans ?_
      constructor
      · rintro (old | new)
        · exact .inr ⟨rfl, old⟩
        · exact .inl ⟨rfl, List.mem_singleton.mp new⟩
      · rintro (⟨-, new⟩ | ⟨-, old⟩)
        · exact .inr (List.mem_singleton.mpr new)
        · exact .inl old
  | replace start stop message =>
      refine (mem_replaced even).trans (or_congr ?_ (and_congr_left' ?_))
      · cases message <;> exact Iff.rfl
      · exact decide_eq_false_iff_not.symm

/-! A log -/

theorem noded_concat (short : j < log.length) : noded ps (log ++ [ev]) j = noded ps log j := by
  unfold noded
  rw [List.getElem?_append_left short]

theorem erased_concat (short : j < log.length) : erased ps (log ++ [ev]) j = (erased ps log j || (planned ps ev).spans j) := by
  unfold erased
  rw [List.drop_append_of_le_length (Nat.succ_le_of_lt short), List.any_append, List.any_cons, List.any_nil, Bool.or_false]

theorem noded_bound (node : noded ps log j = true) : j < log.length := by
  obtain ⟨ev, found, -⟩ := (Option.any_eq_true _ _).mp node
  exact (List.getElem?_eq_some_iff.mp found).1

theorem noded_last : noded ps (log ++ [ev]) log.length = (planned ps ev).isNode := by
  unfold noded
  rw [List.getElem?_concat_length]
  rfl

theorem erased_last : erased ps (log ++ [ev]) log.length = false := by
  unfold erased
  rw [List.drop_eq_nil_of_le (by rw [List.length_append]; rfl)]
  rfl

theorem foldLog_concat (folded : foldLog ps (log ++ [ev]) {} = .ok s) :
    ∃ t plan, foldLog ps log {} = .ok t ∧ foldEvent ev ps = .ok plan ∧ s = t.apply ev.seq plan := by
  rw [foldLog_append] at folded
  obtain ⟨t, before, folded⟩ := except_bind folded
  obtain ⟨plan, folds, folded⟩ := except_bind folded
  exact ⟨t, plan, before, folds, (Except.ok.inj folded).symm⟩

/-- The surface of a log has the nodes that no later replacement spans. -/
theorem mem_foldLog (canonical : Canonical log) (folded : foldLog ps log {} = .ok s) :
    s.Even ∧ ∀ j, j ∈ s.sourceSeqs ↔ noded ps log j = true ∧ erased ps log j = false := by
  induction log using List.reverseRecOn generalizing s with
  | nil =>
      cases folded
      refine ⟨rfl, fun j => ⟨fun member => (by cases member), fun node => ?_⟩⟩
      cases noded_bound node.1
  | append_singleton log ev ih =>
      obtain ⟨t, plan, before, folds, rfl⟩ := foldLog_concat folded
      obtain ⟨even, nodes⟩ := ih canonical.left before
      have seq : ev.seq = log.length := (canonical _ _ List.getElem?_concat_length).1
      refine ⟨even_apply even _ _, fun j => ?_⟩
      rw [mem_apply even, nodes j, seq, ← planned_eq folds]
      rcases Nat.lt_trichotomy j log.length with short | rfl | beyond
      · rw [noded_concat short, erased_concat short, Bool.or_eq_false_iff]
        constructor
        · rintro (⟨-, same⟩ | ⟨beside, node, kept⟩)
          · exact absurd same (Nat.ne_of_lt short)
          · exact ⟨node, kept, beside⟩
        · rintro ⟨node, kept, beside⟩
          exact .inr ⟨beside, node, kept⟩
      · rw [noded_last, erased_last]
        constructor
        · rintro (⟨node, -⟩ | ⟨-, node, -⟩)
          · exact ⟨node, rfl⟩
          · exact absurd (noded_bound node) (Nat.lt_irrefl _)
        · rintro ⟨node, -⟩
          exact .inl ⟨node, rfl⟩
      · constructor
        · rintro (⟨-, same⟩ | ⟨-, node, -⟩)
          · exact absurd same (Nat.ne_of_gt beyond)
          · exact absurd (noded_bound node) (Nat.lt_asymm beyond)
        · rintro ⟨node, -⟩
          have bound := noded_bound node
          rw [List.length_append, List.length_singleton] at bound
          exact absurd bound (Nat.not_lt_of_le beyond)

theorem Removed.concat (h : Removed ps log j) (ev : Event) : Removed ps (log ++ [ev]) j := by
  obtain ⟨before, e, after, s, start, stop, message, rfl, rest⟩ := h
  exact ⟨before, e, after ++ [ev], s, start, stop, message, by rw [List.append_assoc, List.cons_append], rest⟩

/-- A node was removed when the event has one and a later replacement spans it. -/
theorem removed_iff (canonical : Canonical log) (folded : foldLog ps log {} = .ok s) (j : Nat) :
    Removed ps log j ↔ noded ps log j = true ∧ erased ps log j = true := by
  constructor
  · rintro ⟨before, ev, after, t, start, stop, message, rfl, folds, plan, there, gone⟩
    obtain ⟨even, nodes⟩ := mem_foldLog canonical.left folds
    obtain ⟨node, -⟩ := (nodes j).mp there
    have short := noded_bound node
    have spanned : start ≤ j ∧ j < stop := by
      by_contra beside
      exact gone ((mem_replaced even).mpr (.inr ⟨beside, there⟩))
    constructor
    · unfold noded
      rw [List.getElem?_append_left short]
      exact node
    · refine List.any_eq_true.mpr ⟨ev, ?_, ?_⟩
      · rw [List.drop_append_of_le_length (Nat.succ_le_of_lt short)]
        exact List.mem_append_right _ List.mem_cons_self
      · rw [planned_eq plan]
        exact decide_eq_true spanned
  · rintro ⟨node, gone⟩
    induction log using List.reverseRecOn generalizing s with
    | nil => cases noded_bound node
    | append_singleton log ev ih =>
        obtain ⟨t, plan, before, folds, rfl⟩ := foldLog_concat folded
        have short : j < log.length := by
          have bound := noded_bound node
          rw [List.length_append, List.length_singleton] at bound
          rcases Nat.lt_succ_iff_lt_or_eq.mp bound with short | rfl
          · exact short
          · rw [erased_last] at gone
            cases gone
        rw [noded_concat short] at node
        rw [erased_concat short] at gone
        by_cases already : erased ps log j = true
        · exact (ih canonical.left before node already).concat ev
        · rw [Bool.eq_false_iff.mpr already, Bool.false_or, planned_eq folds] at gone
          obtain ⟨even, nodes⟩ := mem_foldLog canonical.left before
          have seq : ev.seq = log.length := (canonical _ _ List.getElem?_concat_length).1
          obtain ⟨start, stop, message, rfl, spanned⟩ := spans_replace gone
          refine ⟨log, ev, [], t, start, stop, message, rfl, before, folds,
            (nodes j).mpr ⟨node, Bool.eq_false_iff.mpr already⟩, fun still => ?_⟩
          rcases (mem_replaced even).mp still with ⟨-, same⟩ | ⟨beside, -⟩
          · exact absurd (same.trans seq) (Nat.ne_of_lt short)
          · exact beside spanned

theorem appendPlan_spans (message : Option Message) : (appendPlan message).spans j = false := by
  cases message <;> rfl

/-- Only `surface/replace` spans anything without projections. -/
theorem foldBuiltin_spans (spans : (foldBuiltin ev).spans j = true) :
    ev.type = "surface/replace" ∧ ∃ o, ev.data.ifObject = some o ∧ (foldReplace o).spans j = true := by
  have never {message : Option Message} (appended : (appendPlan message).spans j = true) : False :=
    Bool.false_ne_true ((appendPlan_spans message).symm.trans appended)
  unfold foldBuiltin at spans
  split at spans
  · exact (never spans).elim
  · split at spans
    · exact (never spans).elim
    · split at spans
      · exact (never spans).elim
      · split at spans
        · exact (never spans).elim
        · split at spans
          · next type =>
              split at spans
              · next o found => exact ⟨type, o, found, spans⟩
              · cases spans
          · cases spans

/-- The span of a replacement ends before it. -/
theorem spans_earlier (valid : ev.Valid) (spans : (foldBuiltin ev).spans j = true) : j < ev.seq := by
  obtain ⟨type, o, found, spans⟩ := foldBuiltin_spans spans
  have checked : validateReplace ev = .ok () := by
    unfold Event.Valid validateEvent at valid
    rwa [type, if_neg (by decide), if_pos rfl] at valid
  obtain ⟨o', object, checked⟩ := except_bind checked
  cases Option.some.inj (found.symm.trans (of_need object))
  obtain ⟨start, hstart, checked⟩ := except_bind checked
  obtain ⟨stop, hstop, checked⟩ := except_bind checked
  obtain ⟨_, ordered, checked⟩ := except_bind checked
  obtain ⟨_, past, -⟩ := except_bind checked
  unfold foldReplace at spans
  rw [of_need hstart, of_need hstop] at spans
  have inside : j < toSeq stop := (of_decide_eq_true spans : toSeq start ≤ j ∧ j < toSeq stop).2
  have positive : 0 ≤ stop := by
    have both := Bool.and_eq_true_iff.mp (of_ensure ordered)
    exact (of_decide_eq_true both.1).trans (of_decide_eq_true both.2).le
  have bound : stop ≤ (ev.seq : Int) := of_decide_eq_true (of_ensure past)
  unfold toSeq at inside
  omega

end

end Araya.Sessions
