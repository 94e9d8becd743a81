import Araya.Session.Store

/-!
Appends and the logs they leave. A throwing append is never free of a trace: the
session has already drawn the next number, and may have folded its surface. The
runs in which every append is accepted and none happens inside another of the
same session keep each log canonical: events numbered by position and valid, so
the log may seed a session again.
-/

namespace Araya.Sessions

/-! Canonical logs -/

def Canonical (log : List Event) : Prop :=
  ∀ (i : Nat) (ev : Event), log[i]? = some ev → ev.seq = i ∧ ev.Valid

theorem canonical_nil : Canonical [] := fun i ev h => by simp at h

theorem Canonical.concat {log : List Event} {ev : Event} (h : Canonical log)
    (seq : ev.seq = log.length) (valid : ev.Valid) : Canonical (log ++ [ev]) := by
  intro i a ha
  rcases Nat.lt_trichotomy i log.length with hi | hi | hi
  · rw [List.getElem?_append_left hi] at ha
    exact h i a ha
  · subst hi
    rw [List.getElem?_concat_length, Option.some.injEq] at ha
    exact ha ▸ ⟨seq, valid⟩
  · rw [List.getElem?_eq_none (by simp; omega)] at ha
    cases ha

theorem Canonical.take {log : List Event} (h : Canonical log) (n : Nat) : Canonical (log.take n) := by
  intro i ev hev
  rw [List.getElem?_take] at hev
  split at hev
  · exact h i ev hev
  · cases hev

theorem Canonical.left {log more : List Event} (h : Canonical (log ++ more)) : Canonical log := by
  have ht := h.take log.length
  rwa [List.take_left'] at ht
  rfl

/-- Marking events as ignorable or not leaves a log canonical. -/
theorem Canonical.mark {log : List Event} (h : Canonical log) (mark : Event → Bool) :
    Canonical (log.map fun ev => { ev with ignorable := mark ev }) := by
  intro i ev hev
  rw [List.getElem?_map, Option.map_eq_some_iff] at hev
  obtain ⟨a, ha, rfl⟩ := hev
  obtain ⟨seq, valid⟩ := h i a ha
  exact ⟨seq, (Event.valid_congr rfl rfl rfl).mp valid⟩

theorem Canonical.closers {log : List Event} (h : Canonical log) (time : Int) {calls : List String}
    (named : ∀ c ∈ calls, c ≠ "") : Canonical (log ++ closers time log.length calls) := by
  induction calls generalizing log with
  | nil => simpa [Sessions.closers] using h
  | cons c cs ih =>
      have hc := h.concat (rfl : (closer log.length time c).seq = log.length)
        (closer_valid.mpr (named c (by simp)))
      have hcs := ih hc fun d hd => named d (List.mem_cons_of_mem _ hd)
      simpa [Sessions.closers] using hcs

namespace SessionStore
variable {σ : Type}

/-! Seeds -/

/-- A seed leaves no tool call open under an empty name. -/
def Named (seed : List Event) : Prop := "" ∉ openCalls seed

instance (seed : List Event) : Decidable (Named seed) := inferInstanceAs (Decidable (¬ _))

theorem openCalls_mark (log : List Event) (mark : Event → Bool) :
    openCalls (log.map fun ev => { ev with ignorable := mark ev }) = openCalls log := by
  simp only [openCalls, List.flatMap_map]
  rfl

theorem checkSeed_eq {st : SessionStore σ} {i : Nat} {seed checked : List Event}
    (h : st.checkSeed i seed = .ok checked) :
    checked = seed.map (fun ev => { ev with ignorable := st.ignorable ev.type }) ∧
      ∀ (j : Nat) (ev : Event), seed[j]? = some ev → ev.seq = i + j ∧ ev.Valid := by
  induction seed generalizing i checked with
  | nil =>
      cases h
      exact ⟨rfl, fun j ev hev => by simp at hev⟩
  | cons a as ih =>
      obtain ⟨_, hseq, h⟩ := except_bind h
      obtain ⟨_, hv, h⟩ := except_bind h
      obtain ⟨rest, hrest, h⟩ := except_bind h
      cases h
      obtain ⟨rfl, hall⟩ := ih hrest
      refine ⟨rfl, ?_⟩
      intro j ev hev
      cases j with
      | zero =>
          cases hev
          exact ⟨beq_iff_eq.mp (of_ensure hseq), hv⟩
      | succ j =>
          obtain ⟨hs, hval⟩ := hall j ev hev
          exact ⟨by omega, hval⟩

theorem checkSeed_ok (st : SessionStore σ) {i : Nat} {seed : List Event}
    (h : ∀ (j : Nat) (ev : Event), seed[j]? = some ev → ev.seq = i + j ∧ ev.Valid) :
    ∃ checked, st.checkSeed i seed = .ok checked := by
  induction seed generalizing i with
  | nil => exact ⟨[], rfl⟩
  | cons a as ih =>
      obtain ⟨hseq, hv⟩ := h 0 a rfl
      obtain ⟨rest, hrest⟩ := ih (i := i + 1) fun j ev hev => by
        obtain ⟨hs, hval⟩ := h (j + 1) ev hev
        exact ⟨by omega, hval⟩
      have hs : ensure (a.seq == i) ("seed seq discontinuity at index " ++ toString i) = .ok () := by
        simp [ensure, hseq]
      exact ⟨_, by rw [checkSeed, hs, show validateEvent a = .ok () from hv, hrest]; rfl⟩

theorem canonical_of_checkSeed {st : SessionStore σ} {seed checked : List Event}
    (h : st.checkSeed 0 seed = .ok checked) : Canonical checked := by
  obtain ⟨rfl, hall⟩ := checkSeed_eq h
  refine Canonical.mark (fun i ev hev => ?_) _
  obtain ⟨hs, hv⟩ := hall i ev hev
  exact ⟨by omega, hv⟩

theorem openingLog_canonical {now : Int} {options : CreateOptions} {seed : List Event}
    (h : Canonical seed) (named : Named seed) : Canonical (openingLog now options seed) := by
  have repaired : Canonical (repairInterruptedTurns now seed) := by
    refine h.closers _ fun c hc => ?_
    rintro rfl
    exact named (SortedSet.mem_def.mpr hc)
  unfold openingLog
  simp only
  split
  · exact repaired.concat rfl rfl
  · exact repaired

/-- A prepared session opens with a canonical log and numbers on from its end. -/
theorem prepared_canonical {st : SessionStore σ} {id : SessionId} {options : CreateOptions}
    {now : Int} {s : Session} (h : st.prepared id options now = .ok s) (named : Named options.seed) :
    Canonical s.log ∧ s.nextSeq = s.log.length := by
  unfold prepared at h
  obtain ⟨_, _, h⟩ := except_bind h
  obtain ⟨_, _, h⟩ := except_bind h
  obtain ⟨seed, hseed, h⟩ := except_bind h
  obtain ⟨surface, _, h⟩ := except_bind h
  cases h
  have named' : Named seed := by
    rw [Named, (checkSeed_eq hseed).1, openCalls_mark]
    exact named
  exact ⟨openingLog_canonical (canonical_of_checkSeed hseed) named', rfl⟩

/-! What an append does -/

/-- No interpreter raises on the event, and the bus takes it. -/
structure Taken (st : SessionStore σ) (id : SessionId) (ev : Event) (refuses : Option String) : Prop where
  folds : ∃ plan, foldEvent ev st.projections = .ok plan
  drives : ∀ e ∈ st.projectionCells.toList, (e.2.drive id ev).2 = none
  dispatched : st.bus = true → st.store.contains id = true → refuses = none

/-- The event of the append is valid and nothing raises on it. A session whose
store is gone checks nothing. -/
def Accepts (st : SessionStore σ) (s : Session) (type : String) (data : Json) (now : Int)
    (refuses : Option String) : Prop :=
  st.alive = true → (newEvent s type data now).Valid ∧
    st.Taken s.id { newEvent s type data now with ignorable := st.ignorable type } refuses

theorem eachCell_none {visit : ProjectionCell σ → ProjectionCell σ × Option String}
    {cells : List (Nat × ProjectionCell σ)} {m : SortedMap Nat (ProjectionCell σ)} :
    (eachCell visit cells m).2 = none ↔ ∀ e ∈ cells, (visit e.2).2 = none := by
  induction cells generalizing m with
  | nil => simp [eachCell]
  | cons e es ih =>
      obtain ⟨pid, c⟩ := e
      simp only [eachCell, List.forall_mem_cons]
      cases hv : visit c with
      | mk c' threw =>
          cases threw with
          | none => simp only [ih, true_and]
          | some what => simp

theorem visitCells_rest {st st' : SessionStore σ} {threw : Option String}
    {visit : ProjectionCell σ → ProjectionCell σ × Option String}
    (h : st.visitCells visit = (st', threw)) :
    st' = { st with projectionCells := st'.projectionCells } ∧
      (threw = none ↔ ∀ e ∈ st.projectionCells.toList, (visit e.2).2 = none) := by
  cases h
  exact ⟨rfl, eachCell_none⟩

/-- The event of an append as it enters the log. -/
def logged (st : SessionStore σ) (s : Session) (type : String) (data : Json) (now : Int) : Event :=
  { newEvent s type data now with
    ignorable := if st.alive then st.ignorable type else !isBuiltinSurfaceType type }

/-- What an append leaves: the number is drawn in any case, and an accepted
event waits to enter the log, dispatched where its session is entered. -/
structure Appended (st : SessionStore σ) (h : Nat) (s : Session) (ev : Event) (d : Done σ) : Prop where
  sessions : ∃ s', d.store.sessions = st.sessions.set h s' ∧ s'.log = s.log ∧
    s'.nextSeq = s.nextSeq + 1 ∧ s'.header = s.header
  entered : d.store.store = st.store ∧ d.store.bus = st.bus
  accepted : d.threw = none → d.frames = [.commit h ev] ∧
    d.notices = if st.alive && st.bus && st.store.contains s.id then [.appended s.id ev] else []
  threw : d.threw.isSome = true → d.frames = [] ∧ d.notices = []

theorem publish_appended {st : SessionStore σ} {h : Nat} {s : Session} {type : String} {data : Json}
    {now : Int} {refuses : Option String} (halive : st.alive = true) :
    Appended st h s (st.logged s type data now)
      ((st.set h (numbered s)).publish h (numbered s) (newEvent s type data now) refuses) := by
  have drawn : ∃ s', (st.set h (numbered s)).sessions = st.sessions.set h s' ∧ s'.log = s.log ∧
      s'.nextSeq = s.nextSeq + 1 ∧ s'.header = s.header := ⟨_, rfl, rfl, rfl, rfl⟩
  have hev : { newEvent s type data now with ignorable := (st.set h (numbered s)).ignorable type } =
      st.logged s type data now := by
    simp only [logged, halive, if_true]
    rfl
  unfold publish
  split
  · exact ⟨drawn, ⟨rfl, rfl⟩, fun ht => (by cases ht), fun _ => ⟨rfl, rfl⟩⟩
  · simp only
    split
    · exact ⟨drawn, ⟨rfl, rfl⟩, fun ht => (by cases ht), fun _ => ⟨rfl, rfl⟩⟩
    · next plan _ =>
        have folded : ∃ s', ((st.set h (numbered s)).set h { numbered s with
            surface := (numbered s).surface.apply s.nextSeq plan }).sessions = st.sessions.set h s' ∧
            s'.log = s.log ∧ s'.nextSeq = s.nextSeq + 1 ∧ s'.header = s.header :=
          ⟨{ numbered s with surface := (numbered s).surface.apply s.nextSeq plan }, by simp [set],
            rfl, rfl, rfl⟩
        split
        · next driven what hv =>
            rw [(visitCells_rest hv).1]
            exact ⟨folded, ⟨rfl, rfl⟩, fun ht => (by cases ht), fun _ => ⟨rfl, rfl⟩⟩
        · next driven hv =>
            rw [(visitCells_rest hv).1]
            split
            · next hbus =>
                have hbus' : (st.alive && st.bus && st.store.contains s.id) = true := by
                  rw [halive]; exact hbus
                split
                · exact ⟨folded, ⟨rfl, rfl⟩, fun ht => (by cases ht), fun _ => ⟨rfl, rfl⟩⟩
                · refine ⟨folded, ⟨rfl, rfl⟩, fun _ => ⟨?_, ?_⟩, fun ht => (by cases ht)⟩
                  · exact congrArg (fun ev => [SessionFrame.commit h ev]) hev
                  · rw [if_pos hbus']
                    exact congrArg (fun ev => [Notice.appended s.id ev]) hev
            · next hbus =>
                have hbus' : ¬(st.alive && st.bus && st.store.contains s.id) = true := by
                  rw [halive]; exact hbus
                refine ⟨folded, ⟨rfl, rfl⟩, fun _ => ⟨?_, (if_neg hbus').symm⟩, fun ht => (by cases ht)⟩
                exact congrArg (fun ev => [SessionFrame.commit h ev]) hev

theorem append_appended (st : SessionStore σ) (h : Nat) (s : Session) (type : String) (data : Json)
    (now : Int) (refuses : Option String) :
    Appended st h s (st.logged s type data now) (st.append h s type data now refuses) := by
  unfold append
  simp only
  split
  · next halive => exact publish_appended halive
  · next halive =>
      refine ⟨⟨_, rfl, rfl, rfl, rfl⟩, ⟨rfl, rfl⟩, fun _ => ⟨?_, ?_⟩, fun ht => (by cases ht)⟩
      · simp only [logged, halive]
        rfl
      · simp [halive]

theorem taken_set {st : SessionStore σ} {h : Nat} {s : Session} {id : SessionId} {ev : Event}
    {refuses : Option String} : (st.set h s).Taken id ev refuses ↔ st.Taken id ev refuses :=
  ⟨fun t => ⟨t.folds, t.drives, t.dispatched⟩, fun t => ⟨t.folds, t.drives, t.dispatched⟩⟩

theorem publish_threw_iff {st : SessionStore σ} {h : Nat} {s : Session} {ev : Event}
    {refuses : Option String} : (st.publish h s ev refuses).threw = none ↔
      ev.Valid ∧ st.Taken s.id { ev with ignorable := st.ignorable ev.type } refuses := by
  unfold publish Event.Valid
  split
  · next what hv => simp [hv]
  · next hv =>
      simp only [hv, true_and]
      split
      · next what hf =>
          simp only [reduceCtorEq, false_iff]
          intro taken
          obtain ⟨plan, hplan⟩ := taken.folds
          rw [hf] at hplan
          cases hplan
      · next plan hf =>
          split
          · next driven what hd =>
              simp only [reduceCtorEq, false_iff]
              intro taken
              exact absurd ((visitCells_rest hd).2.mpr taken.drives) (by simp)
          · next driven hd =>
              obtain ⟨hrest, hnone⟩ := visitCells_rest hd
              have drives := hnone.mp rfl
              rw [hrest]
              split
              · next hbus =>
                  obtain ⟨hb, hc⟩ := Bool.and_eq_true_iff.mp hbus
                  split
                  · next what hr =>
                      simp only [reduceCtorEq, false_iff]
                      intro taken
                      exact absurd (taken.dispatched hb hc) (by simp)
                  · simp only [true_iff]
                    exact ⟨⟨plan, hf⟩, drives, fun _ _ => rfl⟩
              · next hbus =>
                  simp only [true_iff]
                  refine ⟨⟨plan, hf⟩, drives, fun hb hc => ?_⟩
                  exact absurd (Bool.and_eq_true_iff.mpr ⟨hb, hc⟩) hbus

theorem append_threw_iff {st : SessionStore σ} {h : Nat} {s : Session} {type : String} {data : Json}
    {now : Int} {refuses : Option String} :
    (st.append h s type data now refuses).threw = none ↔ st.Accepts s type data now refuses := by
  unfold append Accepts
  simp only
  split
  · next halive =>
      simp only [halive, forall_const]
      exact publish_threw_iff.trans (and_congr_right fun _ => taken_set)
  · next halive => simp [halive]

/-! What the other calls do -/

/-- The session objects afterwards: the same, or one more over a canonical log. -/
def Grown (st st' : SessionStore σ) : Prop :=
  st'.sessions = st.sessions ∨
    ∃ s, st'.sessions = st.sessions ++ [s] ∧ Canonical s.log ∧ s.nextSeq = s.log.length

theorem prepare_grown {st : SessionStore σ} {id : SessionId} {options : CreateOptions} {now : Int}
    (named : Named options.seed) :
    Grown st (st.prepare id options now).store ∧ (st.prepare id options now).frames = [] := by
  unfold prepare
  split
  · exact ⟨.inl rfl, rfl⟩
  · next s hs => exact ⟨.inr ⟨s, rfl, prepared_canonical hs named⟩, rfl⟩

theorem enter_same (st : SessionStore σ) (h : Nat) (s : Session) :
    (st.enter h s).store.sessions = st.sessions ∧ (st.enter h s).frames = [] := by
  unfold enter
  split <;> exact ⟨rfl, rfl⟩

theorem announce_same (st : SessionStore σ) (s : Session) :
    (st.announce s).store.sessions = st.sessions ∧ (st.announce s).frames = [] := by
  unfold announce
  split
  · exact ⟨rfl, rfl⟩
  · split
    · next hv => exact ⟨by rw [(visitCells_rest hv).1], rfl⟩
    · next hv => exact ⟨by rw [(visitCells_rest hv).1], rfl⟩

theorem create_grown {st : SessionStore σ} {id : SessionId} {options : CreateOptions} {now : Int}
    (named : Named options.seed) :
    Grown st (st.create id options now).store ∧ (st.create id options now).frames = [] := by
  unfold create
  split
  · exact ⟨.inl rfl, rfl⟩
  · next s hs =>
      have entered := enter_same (st.addSession s) st.sessions.length s
      have canonical := prepared_canonical hs named
      simp only
      split
      · exact ⟨.inr ⟨s, entered.1, canonical⟩, entered.2⟩
      · have announced := announce_same ((st.addSession s).enter st.sessions.length s).store s
        exact ⟨.inr ⟨s, announced.1.trans entered.1, canonical⟩, announced.2⟩

theorem fork_grown {st : SessionStore σ} {parent child : SessionId} {cut : Option Nat} {now : Int}
    (named : ∀ h s, st.store.find? parent = some h → st.sessions[h]? = some s →
      Named (s.log.take (cut.getD s.log.length))) :
    Grown st (st.fork parent child cut now).store ∧ (st.fork parent child cut now).frames = [] := by
  unfold fork
  split
  · exact ⟨.inl rfl, rfl⟩
  · next source hs =>
      obtain ⟨h, hh, hs⟩ := Option.bind_eq_some_iff.mp hs
      simp only
      split
      · exact ⟨.inl rfl, rfl⟩
      · exact create_grown (named h source hh hs)

end SessionStore

/-! Runs -/

section
variable {σ : Type}
open SessionStore

/-- The events that wait to enter the log of a session. -/
def pending (h : Nat) (stack : List SessionFrame) : List Event :=
  stack.filterMap fun
    | .commit h' ev => if h' = h then some ev else none

/-- Every append is accepted and happens outside the others of its session, and
no seed leaves a tool call open under an empty name. -/
def Clean (c : SessionConfig σ) : Label (SessionOp σ) → Prop
  | .op (.append h type data now refuses) =>
    pending h c.stack = [] ∧ ∀ s, c.state.sessions[h]? = some s →
      (newEvent s type data now).Valid ∧ c.state.Accepts s type data now refuses
  | .op (.create _ options _) | .op (.prepare _ options _) => Named options.seed
  | .op (.fork parent _ cut _) => ∀ h s, c.state.store.find? parent = some h →
      c.state.sessions[h]? = some s → Named (s.log.take (cut.getD s.log.length))
  | _ => True

/-- Each log with what waits for it is canonical, and numbers go on from there. -/
structure Aligned (c : SessionConfig σ) : Prop where
  known : ∀ h ev, SessionFrame.commit h ev ∈ c.stack → h < c.state.sessions.length
  canonical : ∀ h s, c.state.sessions[h]? = some s → Canonical (s.log ++ pending h c.stack)
  counted : ∀ h s, c.state.sessions[h]? = some s →
    s.nextSeq = (s.log ++ pending h c.stack).length

theorem pending_unknown {c : SessionConfig σ} (inv : Aligned c) :
    pending c.state.sessions.length c.stack = [] := by
  refine List.filterMap_eq_nil_iff.mpr fun f hf => ?_
  obtain ⟨h, ev⟩ := f
  have hlt := inv.known h ev hf
  exact if_neg (Nat.ne_of_lt hlt)

theorem grown_aligned {c : SessionConfig σ} {st' : SessionStore σ} (inv : Aligned c)
    (grown : Grown c.state st') : Aligned ⟨st', c.stack⟩ := by
  rcases grown with same | ⟨s, hs, canonical, counted⟩
  · exact ⟨by simpa [same] using inv.known, by simpa [same] using inv.canonical,
      by simpa [same] using inv.counted⟩
  · have hnil := pending_unknown inv
    have new : ∀ (h : Nat) (a : Session), (c.state.sessions ++ [s])[h]? = some a →
        c.state.sessions[h]? = some a ∨ (h = c.state.sessions.length ∧ a = s) := by
      intro h a ha
      rcases Nat.lt_trichotomy h c.state.sessions.length with hh | hh | hh
      · exact .inl (by rwa [List.getElem?_append_left hh] at ha)
      · subst hh
        rw [List.getElem?_concat_length, Option.some.injEq] at ha
        exact .inr ⟨rfl, ha.symm⟩
      · rw [List.getElem?_eq_none (by simp; omega)] at ha
        cases ha
    refine ⟨?_, ?_, ?_⟩
    · intro h ev hev
      simp only [hs, List.length_append, List.length_singleton]
      exact Nat.lt_succ_of_lt (inv.known h ev hev)
    · intro h a ha
      simp only [hs] at ha
      rcases new h a ha with ha | ⟨rfl, rfl⟩
      · exact inv.canonical h a ha
      · rw [hnil, List.append_nil]; exact canonical
    · intro h a ha
      simp only [hs] at ha
      rcases new h a ha with ha | ⟨rfl, rfl⟩
      · exact inv.counted h a ha
      · rw [hnil, List.append_nil]; exact counted

/-- An event that enters its log no longer waits for it. -/
theorem commit_session {st : SessionStore σ} {h i : Nat} {ev : Event} (rest : List SessionFrame)
    {a : Session} (ha : (st.commit (.commit h ev)).sessions[i]? = some a) :
    ∃ b, st.sessions[i]? = some b ∧ a.header = b.header ∧ a.nextSeq = b.nextSeq ∧
      a.surface = b.surface ∧ a.log ++ pending i rest = b.log ++ pending i (.commit h ev :: rest) := by
  have other : i ≠ h → pending i (.commit h ev :: rest) = pending i rest := fun hi => by
    simp [pending, Ne.symm hi]
  unfold commit at ha
  cases hs : st.sessions[h]? with
  | none =>
      simp only [hs] at ha
      have hi : i ≠ h := by
        rintro rfl
        rw [hs] at ha
        cases ha
      exact ⟨a, ha, rfl, rfl, rfl, by rw [other hi]⟩
  | some s =>
      simp only [hs, SessionStore.set] at ha
      by_cases hi : i = h
      · subst hi
        obtain ⟨hlt, _⟩ := List.getElem?_eq_some_iff.mp hs
        rw [List.getElem?_set_self hlt, Option.some.injEq] at ha
        subst ha
        exact ⟨s, hs, rfl, rfl, rfl, by simp [pending]⟩
      · rw [List.getElem?_set_ne (Ne.symm hi)] at ha
        exact ⟨a, ha, rfl, rfl, rfl, by rw [other hi]⟩

theorem commit_length (st : SessionStore σ) (f : SessionFrame) :
    (st.commit f).sessions.length = st.sessions.length := by
  unfold commit
  split
  split <;> simp [SessionStore.set]

theorem commit_entries (st : SessionStore σ) (f : SessionFrame) :
    (st.commit f).store = st.store ∧ (st.commit f).alive = st.alive ∧
      (st.commit f).bus = st.bus := by
  unfold commit
  split
  split <;> exact ⟨rfl, rfl, rfl⟩

theorem commit_projections (st : SessionStore σ) (f : SessionFrame) :
    (st.commit f).projections = st.projections ∧
      (st.commit f).projectionCells = st.projectionCells := by
  unfold commit
  split
  split <;> exact ⟨rfl, rfl⟩

theorem commit_aligned {st : SessionStore σ} {h : Nat} {ev : Event} {rest : List SessionFrame}
    (inv : Aligned ⟨st, .commit h ev :: rest⟩) : Aligned ⟨st.commit (.commit h ev), rest⟩ := by
  refine ⟨?_, ?_, ?_⟩
  · intro i a ha
    simp only [commit_length]
    exact inv.known i a (List.mem_cons_of_mem _ ha)
  · intro i a ha
    obtain ⟨b, hb, _, _, _, heq⟩ := commit_session rest ha
    exact heq ▸ inv.canonical i b hb
  · intro i a ha
    obtain ⟨b, hb, _, hn, _, heq⟩ := commit_session rest ha
    rw [heq, hn]
    exact inv.counted i b hb

theorem append_aligned {c : SessionConfig σ} (inv : Aligned c) {h : Nat} {s : Session} {type : String}
    {data : Json} {now : Int} {refuses : Option String} (hs : c.state.sessions[h]? = some s)
    (alone : pending h c.stack = []) (valid : (newEvent s type data now).Valid)
    (accepts : c.state.Accepts s type data now refuses) :
    Aligned ⟨(c.state.append h s type data now refuses).store,
      (c.state.append h s type data now refuses).frames ++ c.stack⟩ := by
  have spec := append_appended c.state h s type data now refuses
  obtain ⟨s', hsessions, hlog, hnext, _⟩ := spec.sessions
  obtain ⟨ev, hseq, hev, hframes⟩ : ∃ ev, ev.seq = s.nextSeq ∧ ev.Valid ∧
      (c.state.append h s type data now refuses).frames = [.commit h ev] :=
    ⟨_, rfl, (Event.valid_congr (b := newEvent s type data now) rfl rfl rfl).mpr valid,
      (spec.accepted (append_threw_iff.mpr accepts)).1⟩
  have hcan := inv.canonical h s hs
  have hcount := inv.counted h s hs
  rw [alone, List.append_nil] at hcan hcount
  have pend : pending h (.commit h ev :: c.stack) = [ev] := by
    simp only [pending] at alone ⊢
    simp [alone]
  have other : ∀ (i : Nat) (a : Session), i ≠ h → (c.state.sessions.set h s')[i]? = some a →
      c.state.sessions[i]? = some a ∧ pending i (.commit h ev :: c.stack) = pending i c.stack := by
    intro i a hi ha
    rw [List.getElem?_set_ne (Ne.symm hi)] at ha
    exact ⟨ha, by simp [pending, Ne.symm hi]⟩
  obtain ⟨hlt, _⟩ := List.getElem?_eq_some_iff.mp hs
  rw [hframes]
  refine ⟨?_, ?_, ?_⟩
  · intro i a ha
    rw [hsessions, List.length_set]
    rcases List.mem_cons.mp ha with heq | ha
    · cases heq; exact hlt
    · exact inv.known i a ha
  · intro i a ha
    simp only [hsessions] at ha
    by_cases hi : i = h
    · subst hi
      rw [List.getElem?_set_self hlt, Option.some.injEq] at ha
      subst ha
      simp only [List.singleton_append, pend, hlog]
      exact hcan.concat (hseq.trans hcount) hev
    · obtain ⟨ha, hp⟩ := other i a hi ha
      exact hp ▸ inv.canonical i a ha
  · intro i a ha
    simp only [hsessions] at ha
    by_cases hi : i = h
    · subst hi
      rw [List.getElem?_set_self hlt, Option.some.injEq] at ha
      subst ha
      simp only [List.singleton_append, pend, hlog, hnext, hcount, List.length_append,
        List.length_singleton]
    · obtain ⟨ha, hp⟩ := other i a hi ha
      exact hp ▸ inv.counted i a ha

theorem of_alive {b : Bool} {d d' : Done σ} (h : (if b = true then some d' else none) = some d) :
    d' = d := by
  split at h
  · exact Option.some.inj h
  · cases h

theorem run_grown {c : SessionConfig σ} {o : SessionOp σ} {d : Done σ} (hx : c.state.run o = some d)
    (clean : Clean c (.op o))
    (notAppend : ∀ h type data now refuses, o ≠ .append h type data now refuses) :
    Grown c.state d.store ∧ d.frames = [] := by
  cases o with
  | append h type data now refuses => exact absurd rfl (notAppend h type data now refuses)
  | create id options now =>
      obtain rfl := of_alive hx
      exact create_grown clean
  | prepare id options now =>
      obtain rfl := of_alive hx
      exact prepare_grown clean
  | enter h =>
      obtain ⟨_, hx⟩ := Option.ite_none_right_eq_some.mp hx
      obtain ⟨s, _, rfl⟩ := Option.map_eq_some_iff.mp hx
      exact ⟨.inl (enter_same _ _ _).1, (enter_same _ _ _).2⟩
  | announce h =>
      obtain ⟨_, hx⟩ := Option.ite_none_right_eq_some.mp hx
      obtain ⟨s, _, rfl⟩ := Option.map_eq_some_iff.mp hx
      exact ⟨.inl (announce_same _ _).1, (announce_same _ _).2⟩
  | fork parent child cut now =>
      obtain rfl := of_alive hx
      exact fork_grown clean
  | dispose id =>
      obtain rfl := of_alive hx
      unfold dispose
      split <;> exact ⟨.inl rfl, rfl⟩
  | expire | flush id =>
      obtain rfl := of_alive hx
      exact ⟨.inl rfl, rfl⟩
  | registerMessageProjection p =>
      obtain rfl := of_alive hx
      unfold registerMessageProjection
      split <;> exact ⟨.inl rfl, rfl⟩
  | registerProjection spec =>
      obtain rfl := of_alive hx
      exact ⟨.inl rfl, rfl⟩
  | dropMessageProjection type | dropProjection pid =>
      cases hx
      exact ⟨.inl rfl, rfl⟩

theorem step_aligned {c c' : SessionConfig σ} {a : Label (SessionOp σ)} (inv : Aligned c)
    (hs : (sessionMachine σ).next c a = some c') (clean : Clean c a) : Aligned c' := by
  rcases StackMachine.next_cases hs with ⟨f, rest, s', fs, rfl, hst, hx, rfl⟩ |
    ⟨f, rest, s', rfl, hst, hx, rfl⟩ | ⟨o, s', fs, rfl, _, hx, rfl⟩
  · cases hx
    obtain ⟨st, stack⟩ := c
    subst hst
    obtain ⟨h, ev⟩ := f
    exact commit_aligned inv
  · cases hx
  · obtain ⟨d, hrun, hd⟩ := Option.map_eq_some_iff.mp hx
    cases hd
    by_cases happ : ∃ h type data now refuses, o = .append h type data now refuses
    · obtain ⟨h, type, data, now, refuses, rfl⟩ := happ
      obtain ⟨s, hget, rfl⟩ := Option.map_eq_some_iff.mp hrun
      obtain ⟨alone, ok⟩ := clean
      exact append_aligned inv hget alone (ok s hget).1 (ok s hget).2
    · obtain ⟨grown, frames⟩ := run_grown hrun clean fun h type data now refuses heq =>
        happ ⟨h, type, data, now, refuses, heq⟩
      rw [frames]
      exact grown_aligned inv grown

theorem aligned_reached {c : SessionConfig σ} (h : (sessionMachine σ).system.Reached Clean c) :
    Aligned c := by
  refine h.invariant ?_ fun _ _ _ _ inv step clean => step_aligned inv step clean
  rintro ⟨st, stack⟩ ⟨hst, hstack⟩
  simp only at hst hstack
  rw [hst, hstack]
  exact ⟨fun h ev hev => (by cases hev), fun h s hs => (by simp at hs), fun h s hs => (by simp at hs)⟩

/-! Seeding a session again -/

theorem foldLog_error {projections : List MessageProjection} {log : List Event} {s : Surface}
    {what : String} (h : foldLog projections log s = .error what) :
    ∃ ev, foldEvent ev projections = .error what := by
  induction log generalizing s with
  | nil => cases h
  | cons ev rest ih =>
      rw [foldLog] at h
      cases hf : foldEvent ev projections with
      | error e => rw [hf] at h; cases h; exact ⟨ev, hf⟩
      | ok plan => rw [hf] at h; exact ih h

/-- Over a canonical seed and a new identity only an interpreter makes `prepare` throw. -/
theorem prepared_error {st : SessionStore σ} {id : SessionId} {options : CreateOptions} {now : Int}
    {what : String} (canonical : Canonical options.seed) (named : id ≠ "")
    (new : st.store.contains id = false) (h : st.prepared id options now = .error what) :
    ∃ ev, foldEvent ev st.projections = .error what := by
  obtain ⟨seed, hseed⟩ := checkSeed_ok st (i := 0) fun j ev hev => by
    simpa using canonical j ev hev
  have hn : ensure (id != "") "session id is empty" = .ok () := by simp [ensure, named]
  have hc : ensure (!st.store.contains id) ("session '" ++ id ++ "' already exists") = .ok () := by
    simp [ensure, new]
  rw [prepared, hn, hc, hseed] at h
  cases hf : foldLog st.projections (openingLog now options seed) {} with
  | error e =>
      have heq : (Except.error e : Except String Session) = .error what := by
        rw [← h]
        simp [hf, bind, Except.bind]
      cases heq
      exact foldLog_error hf
  | ok surface => simp [hf, bind, Except.bind] at h

/-- Some registered interpreter raises the message on some input. -/
def Raises (st : SessionStore σ) (what : String) : Prop :=
  (∃ ev, foldEvent ev st.projections = .error what) ∨
    ∃ e ∈ st.projectionCells.toList, (∃ header, e.2.spec.init header = .error what) ∨
      ∃ x ev, (e.2.spec.apply x ev).2 = some what

theorem drive_raises (c : ProjectionCell σ) (id : SessionId) (ev : Event) :
    (c.drive id ev).1.spec = c.spec ∧
      ∀ what, (c.drive id ev).2 = some what → ∃ x ev, (c.spec.apply x ev).2 = some what := by
  unfold ProjectionCell.drive
  split
  · split
    · exact ⟨rfl, fun what h => by cases h⟩
    · next x _ => exact ⟨rfl, fun what h => ⟨x, ev, h⟩⟩
  · exact ⟨rfl, fun what h => by cases h⟩

theorem replay_raises {id : SessionId} {log : List Event} {c : ProjectionCell σ} {what : String}
    (h : (ProjectionCell.replay id log c).2 = some what) :
    ∃ x ev, (c.spec.apply x ev).2 = some what := by
  induction log generalizing c with
  | nil => cases h
  | cons ev rest ih =>
      obtain ⟨spec, raises⟩ := drive_raises c id ev
      rw [ProjectionCell.replay] at h
      split at h
      · next c' what' hd => exact raises what (by rw [hd]; exact h)
      · next c' hd =>
          rw [hd] at spec
          rw [← spec]
          exact ih h

theorem seed_raises {header : Header} {log : List Event} {c : ProjectionCell σ} {what : String}
    (h : (c.seed header log).2 = some what) : (∃ header, c.spec.init header = .error what) ∨
      ∃ x ev, (c.spec.apply x ev).2 = some what := by
  unfold ProjectionCell.seed at h
  split at h
  · next e he => cases h; exact .inl ⟨header, he⟩
  · simp only at h
    split at h
    · exact .inr (replay_raises h)
    · have raises := replay_raises h
      exact .inr raises

theorem eachCell_raises {visit : ProjectionCell σ → ProjectionCell σ × Option String}
    {cells : List (Nat × ProjectionCell σ)} {m : SortedMap Nat (ProjectionCell σ)} {what : String}
    (h : (eachCell visit cells m).2 = some what) : ∃ e ∈ cells, (visit e.2).2 = some what := by
  induction cells generalizing m with
  | nil => cases h
  | cons e es ih =>
      obtain ⟨pid, c⟩ := e
      rw [eachCell] at h
      split at h
      · next c' what' hv =>
          exact ⟨(pid, c), List.mem_cons_self, by rw [hv]; exact h⟩
      · obtain ⟨e, he, hv⟩ := ih h
        exact ⟨e, List.mem_cons_of_mem _ he, hv⟩

theorem announce_raises {st : SessionStore σ} {s entered : Session} {h : Nat} {what : String}
    (hh : st.store.find? s.id = some h) (he : st.sessions[h]? = some entered)
    (ht : (st.announce s).threw = some what) : Raises st what := by
  have hf : (st.store.find? s.id).bind (fun h => st.sessions[h]?) = some entered := by simp [hh, he]
  unfold announce at ht
  simp only [hf] at ht
  split at ht
  · next st' what' hv =>
      cases ht
      have hsome : (eachCell (ProjectionCell.seed s.header s.log) st.projectionCells.toList
          st.projectionCells).2 = some what := by
        have := congrArg Prod.snd hv
        exact this
      obtain ⟨e, he, hr⟩ := eachCell_raises hsome
      exact .inr ⟨e, he, seed_raises hr⟩
  · cases ht

/-- A session that could be prepared is announced where it was entered. -/
theorem create_eq {st : SessionStore σ} {id : SessionId} {options : CreateOptions} {now : Int}
    {s : Session} (prepared : st.prepared id options now = .ok s) :
    s.id = id ∧ st.store.contains id = false ∧ st.create id options now =
      ({ st.addSession s with store := st.store.insert id st.sessions.length } :
        SessionStore σ).announce s := by
  obtain ⟨new, header⟩ : st.store.contains id = false ∧ s.header = newHeader id options now := by
    unfold SessionStore.prepared at prepared
    obtain ⟨_, _, prepared⟩ := except_bind prepared
    obtain ⟨_, hnew, prepared⟩ := except_bind prepared
    obtain ⟨_, _, prepared⟩ := except_bind prepared
    obtain ⟨_, _, prepared⟩ := except_bind prepared
    cases prepared
    exact ⟨by simpa using of_ensure hnew, rfl⟩
  have hid : s.id = id := by rw [Session.id, header]; rfl
  have entered : (st.addSession s).enter st.sessions.length s =
      { store := { st.addSession s with store := st.store.insert id st.sessions.length } } := by
    have absent : (st.addSession s).store.contains s.id = false := by rw [hid]; exact new
    unfold enter
    rw [absent, hid]
    rfl
  refine ⟨hid, new, ?_⟩
  unfold create
  simp only [prepared, entered, Option.isSome_none, Bool.false_eq_true, if_false]

theorem create_raises {st : SessionStore σ} {id : SessionId} {options : CreateOptions} {now : Int}
    {what : String} (canonical : Canonical options.seed) (named : id ≠ "")
    (new : st.store.contains id = false) (h : (st.create id options now).threw = some what) :
    Raises st what := by
  cases hp : st.prepared id options now with
  | error e =>
      unfold create at h
      simp only [hp] at h
      cases h
      exact .inl (prepared_error canonical named new hp)
  | ok s =>
      obtain ⟨hid, _, heq⟩ := create_eq hp
      rw [heq] at h
      have raises := @announce_raises _ _ s s st.sessions.length _ (by simp [hid]) (by simp [addSession]) h
      exact raises

/-- The log of a session is accepted again: only an interpreter may refuse it. -/
structure Reaccepted (st : SessionStore σ) (s : Session) : Prop where
  prepare : ∀ id options now what, options.seed = s.log → id ≠ "" → st.store.contains id = false →
    (st.prepare id options now).threw = some what → Raises st what
  fork : ∀ h parent child cut now what, st.store.find? parent = some h → st.sessions[h]? = some s →
    cut.getD s.log.length ≤ s.log.length → child ≠ "" → st.store.contains child = false →
    (st.fork parent child cut now).threw = some what → Raises st what

theorem reaccepted_of_canonical {st : SessionStore σ} {s : Session} (h : Canonical s.log) :
    Reaccepted st s := by
  constructor
  · intro id options now what hseed named new ht
    unfold SessionStore.prepare at ht
    split at ht
    · next e he => cases ht; exact .inl (prepared_error (hseed ▸ h) named new he)
    · cases ht
  · intro i parent child cut now what hi hs hcut named new ht
    have hf : (st.store.find? parent).bind (fun h => st.sessions[h]?) = some s := by simp [hi, hs]
    unfold SessionStore.fork at ht
    simp only [hf, Nat.not_lt.mpr hcut, if_false] at ht
    exact create_raises (h.take _) named new ht

/-- A throwing append leaves everything as it was. -/
def Atomic (st : SessionStore σ) (h : Nat) (s : Session) (type : String) (data : Json) (now : Int)
    (refuses : Option String) : Prop :=
  (st.append h s type data now refuses).threw.isSome = true →
    (st.append h s type data now refuses).store = st

/-- A throwing append has drawn a number. -/
theorem atomic_iff {st : SessionStore σ} {h : Nat} {s : Session} {type : String} {data : Json}
    {now : Int} {refuses : Option String} (hs : st.sessions[h]? = some s) :
    Atomic st h s type data now refuses ↔ st.Accepts s type data now refuses := by
  rw [← append_threw_iff (h := h)]
  constructor
  · intro atomic
    by_contra ht
    have hst := atomic (Option.isSome_iff_ne_none.mpr ht)
    obtain ⟨s', hsessions, _, hnext, _⟩ := 
      (append_appended st h s type data now refuses).sessions
    obtain ⟨hlt, _⟩ := List.getElem?_eq_some_iff.mp hs
    rw [hst] at hsessions
    have heq : st.sessions[h]? = some s' := by
      rw [hsessions, List.getElem?_set_self hlt]
    rw [hs, Option.some.injEq] at heq
    rw [← heq] at hnext
    omega
  · intro ht hsome
    rw [ht] at hsome
    cases hsome

theorem append_atomicity :
    (∀ (st : SessionStore σ) (h : Nat) (s : Session) type data now refuses, st.sessions[h]? = some s →
      (Atomic st h s type data now refuses ↔ st.Accepts s type data now refuses)) ∧
    ∀ c : SessionConfig σ, (sessionMachine σ).system.Reached Clean c →
      ∀ (h : Nat) (s : Session), c.state.sessions[h]? = some s →
        (∀ (i : Nat) (ev : Event), s.log[i]? = some ev → ev.seq = i) ∧ Reaccepted c.state s := by
  refine ⟨fun st h s type data now refuses hs => atomic_iff hs, fun c hc h s hs => ?_⟩
  have canonical := ((aligned_reached hc).canonical h s hs).left
  exact ⟨fun i ev hev => (canonical i ev hev).1, reaccepted_of_canonical canonical⟩

/-! Two schedules -/

/-- The check of `Clean`: whether an append is accepted is what it does. -/
def clean? (c : SessionConfig σ) : Label (SessionOp σ) → Bool
  | .op (.append h type data now refuses) =>
    (pending h c.stack).isEmpty && (c.state.sessions[h]?).all fun s =>
      decide (newEvent s type data now).Valid && (c.state.append h s type data now refuses).threw.isNone
  | .op (.create _ options _) | .op (.prepare _ options _) => decide (Named options.seed)
  | .op (.fork parent _ cut _) =>
    ((c.state.store.find? parent).bind fun h => c.state.sessions[h]?).all fun s =>
      decide (Named (s.log.take (cut.getD s.log.length)))
  | _ => true

theorem clean_of_check (c : SessionConfig σ) (a : Label (SessionOp σ)) (h : clean? c a = true) :
    Clean c a := by
  cases a with
  | run => trivial
  | op o =>
      cases o with
      | append i type data now refuses =>
          simp only [clean?, Bool.and_eq_true, List.isEmpty_iff, Option.all_eq_true] at h
          refine ⟨h.1, fun s hs => ?_⟩
          obtain ⟨valid, ok⟩ := h.2 s hs
          exact ⟨of_decide_eq_true valid, append_threw_iff.mp (Option.isNone_iff_eq_none.mp ok)⟩
      | create id options now => exact of_decide_eq_true (p := Named options.seed) h
      | prepare id options now => exact of_decide_eq_true (p := Named options.seed) h
      | fork parent child cut now =>
          intro i s hi hs
          simp only [clean?, Option.all_eq_true] at h
          exact of_decide_eq_true (h s (by simp [hi, hs]))
      | _ => trivial

end

def userMessage (id : String) : Json := .obj [("id", .str id), ("role", .str "user"), ("content", .arr [])]

/-- Two appends to a session, and a fork of it that goes on. -/
theorem append_atomicity_fork : ∃ c : SessionConfig Unit,
    c.state.sessions.map (fun s => s.log.map (·.type)) =
      [["user/message", "user/message"],
        ["user/message", "session/end-seed", "user/message"]] ∧
    (∀ (h : Nat) (s : Session), c.state.sessions[h]? = some s →
      (∀ (i : Nat) (ev : Event), s.log[i]? = some ev → ev.seq = i) ∧ Reaccepted c.state s) ∧
    ∀ (h : Nat) (s : Session) type data now refuses, c.state.sessions[h]? = some s →
      (Atomic c.state h s type data now refuses ↔ c.state.Accepts s type data now refuses) := by
  have played : (System.follow (sessionMachine Unit).next clean? ⟨{}, []⟩
      [.op (.create "s" {} 0), .op (.append 0 "user/message" (userMessage "m1") 1 none), .run,
        .op (.append 0 "user/message" (userMessage "m2") 2 none), .run,
        .op (.fork "s" "t" (some 1) 3),
        .op (.append 1 "user/message" (userMessage "m3") 4 none), .run]).any (fun c =>
        decide (c.state.sessions.map (fun s => s.log.map (·.type)) =
          [["user/message", "user/message"],
            ["user/message", "session/end-seed", "user/message"]])) = true := by decide +kernel
  obtain ⟨c, hc, hlogs⟩ := (Option.any_eq_true _ _).mp played
  have reached := System.follow_reached (S := (sessionMachine Unit).system) (P := Clean)
    (fun _ _ _ h => h) clean_of_check hc (.start ⟨rfl, rfl⟩)
  exact ⟨c, of_decide_eq_true hlogs, append_atomicity.2 c reached, append_atomicity.1 c.state⟩

/-- A rejected append leaves the next one out of sequence. -/
theorem append_not_atomic : ¬ ∀ c : SessionConfig Unit,
    (sessionMachine Unit).system.Reached (fun _ _ => True) c → ∀ (h : Nat) (s : Session), c.state.sessions[h]? = some s →
      (∀ type data now refuses, Atomic c.state h s type data now refuses) ∧
      ∀ (i : Nat) (ev : Event), s.log[i]? = some ev → ev.seq = i := by
  intro atomic
  have played : (System.follow (sessionMachine Unit).next (fun _ _ => true) ⟨{}, []⟩
      [.op (.create "s" {} 0), .op (.append 0 "user/message" .null 1 none),
        .op (.append 0 "user/message" (userMessage "m1") 2 none), .run]).any (fun c =>
        (c.state.sessions[0]?).any fun s => (s.log[0]?).any fun ev => decide (ev.seq = 1)) = true := by
    decide +kernel
  obtain ⟨c, hc, hlog⟩ := (Option.any_eq_true _ _).mp played
  obtain ⟨s, hs, hlog⟩ := (Option.any_eq_true _ _).mp hlog
  obtain ⟨ev, hev, hseq⟩ := (Option.any_eq_true _ _).mp hlog
  have reached := System.follow_reached (S := (sessionMachine Unit).system) (P := fun _ _ => True)
    (fun _ _ _ h => h) (fun _ _ _ => trivial) hc (.start ⟨rfl, rfl⟩)
  have hzero := (atomic c reached 0 s hs).2 0 ev hev
  rw [of_decide_eq_true hseq] at hzero
  cases hzero

end Araya.Sessions
