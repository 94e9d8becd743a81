import Araya.Session.Nodes
import Mathlib.Data.Nat.Find

/-!
The history of a surface: which replacement removed the node of an event, which one removed the node of that
replacement, and so on to the newest. A node goes with the first replacement that spans its number.
-/

namespace Araya.Sessions

open SessionStore

/-- Event `k` replaces a span around `j`. -/
def strikes (ps : List MessageProjection) (log : List Event) (k j : Nat) : Bool := log[k]?.any fun ev => (planned ps ev).spans j

/-- The node of `j` was on the surface when event `k` came, and the replacement of `k` removed it. -/
def RemovedBy (ps : List MessageProjection) (log : List Event) (k j : Nat) : Prop :=
  ∃ ev s start stop message, log[k]? = some ev ∧ foldLog ps (log.take k) {} = .ok s ∧
    foldEvent ev ps = .ok (.replace start stop message) ∧ j ∈ s.sourceSeqs ∧
      j ∉ (s.replace start stop ev.seq message).sourceSeqs

/-- The replacements from the one that removed the node of an event to the newest, each having removed the
node of the one before it. -/
inductive Succession (ps : List MessageProjection) (log : List Event) : Nat → List Nat → Prop
  | kept {j : Nat} (never : ∀ k, ¬ RemovedBy ps log k j) : Succession ps log j []
  | removed {j k : Nat} {chain : List Nat} (remover : RemovedBy ps log k j) (rest : Succession ps log k chain) :
      Succession ps log j (k :: chain)

section
variable {ps : List MessageProjection} {log : List Event} {ev : Event} {s : Surface} {i j k : Nat}

theorem planned_spans (spans : (planned ps ev).spans j = true) : (foldBuiltin ev).spans j = true := by
  unfold planned foldEvent at spans
  split at spans
  · next p found =>
      cases folded : p.fold ev with
      | error what =>
          rw [folded] at spans
          cases spans
      | ok message =>
          rw [folded] at spans
          exact absurd ((appendPlan_spans message).symm.trans spans) (by decide)
  · exact spans

/-- The span of a replacement ends before it. -/
theorem strikes_later (canonical : Canonical log) (strikes : strikes ps log k j = true) : j < k := by
  obtain ⟨ev, found, spans⟩ := (Option.any_eq_true _ _).mp strikes
  obtain ⟨seq, valid⟩ := canonical k ev found
  exact seq ▸ spans_earlier valid (planned_spans spans)

theorem strikes_take (short : k < i) : strikes ps (log.take i) k j = strikes ps log k j := by
  unfold strikes
  rw [List.getElem?_take_of_lt short]

theorem noded_take (short : j < i) : noded ps (log.take i) j = noded ps log j := by
  unfold noded
  rw [List.getElem?_take_of_lt short]

theorem erased_iff (canonical : Canonical log) : erased ps log j = true ↔ ∃ k, strikes ps log k j = true := by
  constructor
  · intro gone
    obtain ⟨ev, member, spans⟩ := List.any_eq_true.mp gone
    obtain ⟨k, found⟩ := List.mem_iff_getElem?.mp (List.mem_of_mem_drop member)
    exact ⟨k, (Option.any_eq_true _ _).mpr ⟨ev, found, spans⟩⟩
  · rintro ⟨k, strikes⟩
    have later := strikes_later canonical strikes
    obtain ⟨ev, found, spans⟩ := (Option.any_eq_true _ _).mp strikes
    refine List.any_eq_true.mpr ⟨ev, List.mem_iff_getElem?.mpr ⟨k - (j + 1), ?_⟩, spans⟩
    rw [List.getElem?_drop, Nat.add_sub_cancel' (Nat.succ_le_of_lt later)]
    exact found

/-- The events before one fold when the log does, and the event folds to its plan. -/
theorem foldLog_at (folded : foldLog ps log {} = .ok s) (found : log[k]? = some ev) :
    ∃ t, foldLog ps (log.take k) {} = .ok t ∧ foldEvent ev ps = .ok (planned ps ev) := by
  obtain ⟨short, same⟩ := List.getElem?_eq_some_iff.mp found
  have parts : log = log.take k ++ ev :: log.drop (k + 1) := by
    rw [← same, List.getElem_cons_drop, List.take_append_drop]
  rw [parts, foldLog_append] at folded
  obtain ⟨t, before, folded⟩ := except_bind folded
  obtain ⟨plan, folds, -⟩ := except_bind folded
  exact ⟨t, before, (planned_eq folds).symm ▸ folds⟩

theorem mem_before (canonical : Canonical log) (folded : foldLog ps (log.take k) {} = .ok s) :
    j ∈ s.sourceSeqs ↔ noded ps (log.take k) j = true ∧ ∀ i < k, strikes ps log i j = false := by
  obtain ⟨-, nodes⟩ := mem_foldLog (canonical.take k) folded
  rw [nodes j]
  refine and_congr_right fun _ => ?_
  rw [← Bool.not_eq_true, erased_iff (canonical.take k)]
  constructor
  · intro never i short
    exact Bool.eq_false_iff.mpr fun struck => never ⟨i, (strikes_take short).trans struck⟩
  · rintro none ⟨i, struck⟩
    by_cases short : i < k
    · exact Bool.eq_false_iff.mp (none i short) ((strikes_take short).symm.trans struck)
    · obtain ⟨ev, found, -⟩ := (Option.any_eq_true _ _).mp struck
      exact short ((List.getElem?_eq_some_iff.mp found).1.trans_le (List.length_take_le _ _))

/-- The remover of a node is the first replacement that spans it. -/
theorem removedBy_iff (canonical : Canonical log) (folded : foldLog ps log {} = .ok s) : RemovedBy ps log k j ↔
    noded ps log j = true ∧ strikes ps log k j = true ∧ ∀ i < k, strikes ps log i j = false := by
  constructor
  · rintro ⟨ev, t, start, stop, message, found, before, folds, there, gone⟩
    obtain ⟨even, -⟩ := mem_foldLog (canonical.take k) before
    obtain ⟨node, earlier⟩ := (mem_before canonical before).mp there
    have spanned : start ≤ j ∧ j < stop := by
      by_contra beside
      exact gone ((mem_replaced even).mpr (.inr ⟨beside, there⟩))
    have struck : strikes ps log k j = true := by
      refine (Option.any_eq_true _ _).mpr ⟨ev, found, ?_⟩
      rw [planned_eq folds]
      exact decide_eq_true spanned
    rw [noded_take (strikes_later canonical struck)] at node
    exact ⟨node, struck, earlier⟩
  · rintro ⟨node, struck, earlier⟩
    have later := strikes_later canonical struck
    obtain ⟨ev, found, spans⟩ := (Option.any_eq_true _ _).mp struck
    obtain ⟨t, before, folds⟩ := foldLog_at folded found
    obtain ⟨start, stop, message, plan, spanned⟩ := spans_replace spans
    obtain ⟨even, -⟩ := mem_foldLog (canonical.take k) before
    refine ⟨ev, t, start, stop, message, found, before, plan ▸ folds,
      (mem_before canonical before).mpr ⟨(noded_take later).trans node, earlier⟩, fun still => ?_⟩
    rcases (mem_replaced even).mp still with ⟨-, same⟩ | ⟨beside, -⟩
    · exact Nat.ne_of_lt later (same.trans (canonical k ev found).1)
    · exact beside spanned

theorem RemovedBy.later (canonical : Canonical log) (folded : foldLog ps log {} = .ok s) (h : RemovedBy ps log k j) : j < k :=
  strikes_later canonical ((removedBy_iff canonical folded).mp h).2.1

theorem RemovedBy.unique (canonical : Canonical log) (folded : foldLog ps log {} = .ok s) (one : RemovedBy ps log k j)
    (two : RemovedBy ps log i j) : k = i := by
  obtain ⟨-, struck, first⟩ := (removedBy_iff canonical folded).mp one
  obtain ⟨-, struck', first'⟩ := (removedBy_iff canonical folded).mp two
  rcases Nat.lt_trichotomy k i with short | same | beyond
  · exact absurd struck (Bool.eq_false_iff.mp (first' k short))
  · exact same
  · exact absurd struck' (Bool.eq_false_iff.mp (first i beyond))

theorem exists_remover (canonical : Canonical log) (folded : foldLog ps log {} = .ok s) :
    (∃ k, RemovedBy ps log k j) ↔ noded ps log j = true ∧ ∃ k, strikes ps log k j = true := by
  constructor
  · rintro ⟨k, removed⟩
    obtain ⟨node, struck, -⟩ := (removedBy_iff canonical folded).mp removed
    exact ⟨node, k, struck⟩
  · rintro ⟨node, some⟩
    refine ⟨Nat.find some, (removedBy_iff canonical folded).mpr ⟨node, Nat.find_spec some, fun i short => ?_⟩⟩
    exact Bool.eq_false_iff.mpr (Nat.find_min some short)

theorem removed_iff_remover (canonical : Canonical log) (folded : foldLog ps log {} = .ok s) :
    Removed ps log j ↔ ∃ k, RemovedBy ps log k j := by
  rw [removed_iff canonical folded, exists_remover canonical folded, erased_iff canonical]

/-- Every event has one succession. -/
theorem exists_succession (canonical : Canonical log) (folded : foldLog ps log {} = .ok s) (j : Nat) :
    ∃ chain, ∀ other, Succession ps log j other ↔ other = chain := by
  induction hn : log.length - j using Nat.strong_induction_on generalizing j with
  | _ n ih =>
      by_cases gone : ∃ k, RemovedBy ps log k j
      · obtain ⟨k, removed⟩ := gone
        have later := removed.later canonical folded
        have inside : k < log.length := by
          obtain ⟨ev, t, start, stop, message, found, -⟩ := removed
          exact (List.getElem?_eq_some_iff.mp found).1
        obtain ⟨chain, only⟩ := ih (log.length - k) (by omega) k rfl
        refine ⟨k :: chain, fun other => ⟨fun succeeds => ?_, fun same => ?_⟩⟩
        · cases succeeds with
          | kept never => exact absurd removed (never k)
          | removed remover rest =>
              cases remover.unique canonical folded removed
              rw [(only _).mp rest]
        · rw [same]
          exact .removed removed ((only chain).mpr rfl)
      · refine ⟨[], fun other => ⟨fun succeeds => ?_, fun same => ?_⟩⟩
        · cases succeeds with
          | kept _ => rfl
          | removed remover _ => exact absurd ⟨_, remover⟩ gone
        · rw [same]
          exact .kept fun k removed => gone ⟨k, removed⟩

end

end Araya.Sessions
