import Araya.Session.Appends

/-!
What any step of the store leaves of its session objects, whoever makes it: they keep their headers, their
logs only grow, and an identity leads to the object entered under it.
-/

namespace Araya.Sessions

section
variable {σ : Type}

namespace SessionStore

/-- The objects are still there, with the same header and at least the same log. -/
def Extends (st st' : SessionStore σ) : Prop :=
  ∀ (i : Nat) (s : Session), st.sessions[i]? = some s → ∃ s', st'.sessions[i]? = some s' ∧ s'.header = s.header ∧ s.log <+: s'.log

def Entered (st : SessionStore σ) : Prop :=
  ∀ (id : SessionId) (i : Nat), st.store.find? id = some i → ∃ s, st.sessions[i]? = some s ∧ s.id = id

variable {st st' : SessionStore σ}

theorem Extends.of_eq (same : st'.sessions = st.sessions) : Extends st st' :=
  fun _ s object => ⟨s, same ▸ object, rfl, List.prefix_refl _⟩

theorem Extends.of_concat {s : Session} (added : st'.sessions = st.sessions ++ [s]) : Extends st st' := by
  intro i own object
  refine ⟨own, ?_, rfl, List.prefix_refl _⟩
  rw [added, List.getElem?_append_left (List.getElem?_eq_some_iff.mp object).1]
  exact object

theorem Extends.of_set {h : Nat} {s s' : Session} (object : st.sessions[h]? = some s)
    (written : st'.sessions = st.sessions.set h s') (header : s'.header = s.header) (log : s.log <+: s'.log) :
    Extends st st' := by
  intro i own found
  rw [written, List.getElem?_set]
  split
  case isTrue same =>
    subst same
    cases object.symm.trans found
    rw [if_pos (List.getElem?_eq_some_iff.mp object).1]
    exact ⟨s', rfl, header, log⟩
  case isFalse => exact ⟨own, found, rfl, List.prefix_refl _⟩

theorem Entered.extend (entered : Entered st) (grown : Extends st st')
    (sub : ∀ id i, st'.store.find? id = some i → st.store.find? id = some i) : Entered st' := by
  intro id i found
  obtain ⟨s, object, named⟩ := entered id i (sub id i found)
  obtain ⟨s', object', header, -⟩ := grown i s object
  exact ⟨s', object', (congrArg Header.id header).trans named⟩

theorem commit_extends (st : SessionStore σ) (f : SessionFrame) : Extends st (st.commit f) := by
  obtain ⟨h, ev⟩ := f
  dsimp only [commit]
  split
  case h_1 => exact .of_eq rfl
  case h_2 s object => exact .of_set object rfl rfl (List.prefix_append _ _)

theorem enter_extends (st : SessionStore σ) (h : Nat) (s : Session) : Extends st (st.enter h s).store :=
  .of_eq (enter_same st h s).1

theorem enter_entered {h : Nat} {s : Session} (entered : Entered st) (object : st.sessions[h]? = some s) :
    Entered (st.enter h s).store := by
  unfold enter
  split
  case isTrue => exact entered
  case isFalse =>
    intro id i found
    dsimp only at found
    rw [SortedMap.find?_insert] at found
    split at found
    case isTrue same =>
      cases found
      exact ⟨s, object, same.symm⟩
    case isFalse => exact entered id i found

theorem announce_store (st : SessionStore σ) (s : Session) : (st.announce s).store.store = st.store := by
  unfold announce
  split
  case h_1 => rfl
  case h_2 =>
    split
    case h_1 seeded what visited => rw [(visitCells_rest visited).1]
    case h_2 seeded visited => rw [(visitCells_rest visited).1]

theorem create_extends (st : SessionStore σ) (id : SessionId) (options : CreateOptions) (now : Int) :
    Extends st (st.create id options now).store ∧ (Entered st → Entered (st.create id options now).store) := by
  unfold create
  split
  case h_1 => exact ⟨.of_eq rfl, fun entered => entered⟩
  case h_2 s _ =>
    have object : (st.addSession s).sessions[st.sessions.length]? = some s := by
      show (st.sessions ++ [s])[st.sessions.length]? = some s
      rw [List.getElem?_append_right (le_refl _), Nat.sub_self]
      rfl
    have added : Extends st (st.addSession s) := .of_concat rfl
    have same := enter_same (st.addSession s) st.sessions.length s
    have opened (entered : Entered st) : Entered ((st.addSession s).enter st.sessions.length s).store :=
      enter_entered (entered.extend added fun _ _ found => found) object
    dsimp only
    split
    case isTrue => exact ⟨.of_concat same.1, opened⟩
    case isFalse =>
      have announced := (announce_same ((st.addSession s).enter st.sessions.length s).store s).1
      refine ⟨.of_concat (announced.trans same.1), fun entered => (opened entered).extend (.of_eq announced) ?_⟩
      intro id i found
      rwa [announce_store] at found

/-- One call of the store. -/
theorem run_extends {o : SessionOp σ} {d : Done σ} (hx : st.run o = some d) :
    Extends st d.store ∧ (Entered st → Entered d.store) := by
  cases o with
  | append h type data now refuses =>
      obtain ⟨s, object, rfl⟩ := Option.map_eq_some_iff.mp hx
      have appended := append_appended st h s type data now refuses
      obtain ⟨s', written, log, -, header⟩ := appended.sessions
      have grown : Extends st (st.append h s type data now refuses).store :=
        .of_set object written header (log ▸ List.prefix_refl _)
      exact ⟨grown, fun entered => entered.extend grown fun id i found => appended.entered.1 ▸ found⟩
  | create id options now =>
      obtain rfl := of_alive hx
      exact create_extends st id options now
  | prepare id options now =>
      obtain rfl := of_alive hx
      unfold prepare
      split
      case h_1 => exact ⟨.of_eq rfl, fun entered => entered⟩
      case h_2 s _ =>
        have added : Extends st (st.addSession s) := .of_concat rfl
        exact ⟨added, fun entered => entered.extend added fun _ _ found => found⟩
  | enter h =>
      obtain ⟨_, hx⟩ := Option.ite_none_right_eq_some.mp hx
      obtain ⟨s, object, rfl⟩ := Option.map_eq_some_iff.mp hx
      exact ⟨enter_extends st h s, fun entered => enter_entered entered object⟩
  | announce h =>
      obtain ⟨_, hx⟩ := Option.ite_none_right_eq_some.mp hx
      obtain ⟨s, object, rfl⟩ := Option.map_eq_some_iff.mp hx
      have same : Extends st (st.announce s).store := .of_eq (announce_same st s).1
      exact ⟨same, fun entered => entered.extend same fun id i found => announce_store st s ▸ found⟩
  | fork parent child cut now =>
      obtain rfl := of_alive hx
      unfold fork
      split
      case h_1 => exact ⟨.of_eq rfl, fun entered => entered⟩
      case h_2 =>
        dsimp only
        split
        case isTrue => exact ⟨.of_eq rfl, fun entered => entered⟩
        case isFalse => exact create_extends st child _ now
  | dispose id =>
      obtain rfl := of_alive hx
      unfold dispose
      split
      case isTrue =>
        refine ⟨.of_eq rfl, fun entered => entered.extend (.of_eq rfl) fun id' i found => ?_⟩
        dsimp only at found
        rw [SortedMap.find?_erase] at found
        split at found
        case isTrue => cases found
        case isFalse => exact found
      case isFalse => exact ⟨.of_eq rfl, fun entered => entered⟩
  | expire =>
      obtain rfl := of_alive hx
      refine ⟨.of_eq rfl, fun entered => entered.extend (.of_eq rfl) fun id i found => ?_⟩
      cases found
  | flush id =>
      obtain rfl := of_alive hx
      exact ⟨.of_eq rfl, fun entered => entered⟩
  | registerMessageProjection p =>
      obtain rfl := of_alive hx
      unfold registerMessageProjection
      split <;> exact ⟨.of_eq rfl, fun entered => entered⟩
  | registerProjection spec =>
      obtain rfl := of_alive hx
      exact ⟨.of_eq rfl, fun entered => entered⟩
  | dropMessageProjection type | dropProjection pid =>
      cases hx
      exact ⟨.of_eq rfl, fun entered => entered⟩

end SessionStore

open SessionStore

/-- One step of the store and its callers. -/
theorem step_extends {c c' : SessionConfig σ} {a : Label (SessionOp σ)} (hs : (sessionMachine σ).next c a = some c') :
    Extends c.state c'.state ∧ (Entered c.state → Entered c'.state) := by
  rcases StackMachine.next_cases hs with ⟨f, rest, s', fs, rfl, hst, hx, rfl⟩ |
    ⟨f, rest, s', rfl, hst, hx, rfl⟩ | ⟨o, s', fs, rfl, _, hx, rfl⟩
  · cases hx
    have grown := commit_extends c.state f
    refine ⟨grown, fun entered => entered.extend grown fun id i found => ?_⟩
    rwa [(commit_entries c.state f).1] at found
  · cases hx
  · obtain ⟨d, hrun, hd⟩ := Option.map_eq_some_iff.mp hx
    cases hd
    exact run_extends hrun

end
end Araya.Sessions
