import Araya.Session.Firehose
import Araya.Session.Interrupted

/-!
Replay against live driving. The surface of a session and the states of the
projections are folds of its log, event by event as it grew, so preparing a
session from the log and announcing it finds the same ones. A fork folds the
prefix with what the store adds to it: the closers of its open calls and the
marker of the cut.
-/

namespace Araya.Sessions
open SessionStore

section
variable {σ : Type}

/-! Folds of a log -/

/-- The states of a projection along a log. -/
def EventProjection.foldFrom (p : EventProjection σ) : σ → List Event → Except String σ
  | x, [] => .ok x
  | x, ev :: evs =>
    if p.accepts ev.type then
      match p.apply x ev with
      | (y, none) => p.foldFrom y evs
      | (_, some what) => .error what
    else p.foldFrom x evs

def EventProjection.fold (p : EventProjection σ) (header : Header) (log : List Event) :
    Except String σ := p.init header >>= fun x => p.foldFrom x log

theorem foldFrom_append (p : EventProjection σ) (x : σ) (a b : List Event) :
    p.foldFrom x (a ++ b) = p.foldFrom x a >>= fun y => p.foldFrom y b := by
  induction a generalizing x with
  | nil => rfl
  | cons ev evs ih =>
      simp only [List.cons_append, EventProjection.foldFrom]
      split
      · split
        · exact ih _
        · rfl
      · exact ih x

theorem fold_append {p : EventProjection σ} {header : Header} {a : List Event} {x : σ}
    (h : p.fold header a = .ok x) (b : List Event) : p.fold header (a ++ b) = p.foldFrom x b := by
  obtain ⟨x₀, hx₀, h⟩ := except_bind h
  rw [EventProjection.fold, hx₀, except_ok_bind, foldFrom_append, h, except_ok_bind]

theorem foldLog_append (ps : List MessageProjection) (s : Surface) (a b : List Event) :
    foldLog ps (a ++ b) s = foldLog ps a s >>= fun t => foldLog ps b t := by
  induction a generalizing s with
  | nil => rfl
  | cons ev evs ih =>
      simp only [List.cons_append, foldLog]
      cases foldEvent ev ps with
      | error e => rfl
      | ok plan => exact ih _

/-! Cells -/

section
variable {c : ProjectionCell σ} {id : SessionId} {x : σ} {ev : Event}

/-- Driving a cell folds one event into the state of the session, if it has one. -/
theorem drive_spec (h : (c.drive id ev).2 = none) : (c.drive id ev).1.spec = c.spec ∧
    (∀ other, other ≠ id → (c.drive id ev).1.cells.find? other = c.cells.find? other) ∧
    (c.cells.find? id = none → (c.drive id ev).1.cells.find? id = none) ∧
    ∀ x, c.cells.find? id = some x → ∃ y, c.spec.foldFrom x [ev] = .ok y ∧
      (c.drive id ev).1.cells.find? id = some y := by
  unfold ProjectionCell.drive at h ⊢
  by_cases ha : c.spec.accepts ev.type = true
  · simp only [ha, if_true] at h ⊢
    cases hx : c.cells.find? id with
    | none => simp [hx]
    | some x =>
        simp only [hx] at h ⊢
        refine ⟨trivial, fun other hne => by simp [hne], fun hn => (by cases hn), fun x' hx' => ?_⟩
        cases hx'
        refine ⟨(c.spec.apply x ev).1, ?_, by simp⟩
        have split : c.spec.apply x ev = ((c.spec.apply x ev).1, none) := by rw [← h]
        rw [EventProjection.foldFrom, if_pos ha, split]
        rfl
  · simp only [Bool.not_eq_true] at ha
    simp only [ha, Bool.false_eq_true, if_false] at h ⊢
    refine ⟨trivial, fun _ _ => trivial, fun hn => hn, fun x hx => ⟨x, ?_, hx⟩⟩
    simp [EventProjection.foldFrom, ha]

/-- Where the fold goes through, so does driving. -/
theorem drive_of_fold {y : σ} (hx : c.cells.find? id = some x) (h : c.spec.foldFrom x [ev] = .ok y) :
    (c.drive id ev).2 = none := by
  unfold ProjectionCell.drive
  split
  · next ha =>
      rw [EventProjection.foldFrom, if_pos ha] at h
      simp only [hx]
      split at h
      · next hap => rw [hap]
      · cases h
  · rfl

theorem replay_spec {log : List Event} {c : ProjectionCell σ} {x : σ}
    (hx : c.cells.find? id = some x) (h : (c.replay id log).2 = none) :
    (c.replay id log).1.spec = c.spec ∧
      (∀ other, other ≠ id → (c.replay id log).1.cells.find? other = c.cells.find? other) ∧
      ∃ y, c.spec.foldFrom x log = .ok y ∧ (c.replay id log).1.cells.find? id = some y := by
  induction log generalizing c x with
  | nil => exact ⟨rfl, fun _ _ => rfl, x, rfl, hx⟩
  | cons ev evs ih =>
      rw [ProjectionCell.replay] at h ⊢
      cases hd : c.drive id ev with
      | mk c' threw =>
          cases threw with
          | some what => rw [hd] at h; cases h
          | none =>
              simp only [hd] at h ⊢
              obtain ⟨spec, others, _, own⟩ := @drive_spec _ c id ev (by rw [hd])
              rw [hd] at spec others own
              obtain ⟨y, hy, hy'⟩ := own x hx
              obtain ⟨spec', others', z, hz, hz'⟩ := ih hy' h
              simp only at spec
              refine ⟨spec'.trans spec, fun o ho => (others' o ho).trans (others o ho), z, ?_, hz'⟩
              have whole := foldFrom_append c.spec x [ev] evs
              rw [hy, except_ok_bind] at whole
              rw [← spec, ← hz, spec]
              exact whole

theorem replay_of_fold {log : List Event} {c : ProjectionCell σ} {x y : σ}
    (hx : c.cells.find? id = some x) (h : c.spec.foldFrom x log = .ok y) :
    (c.replay id log).2 = none := by
  induction log generalizing c x with
  | nil => rfl
  | cons ev evs ih =>
      have whole := foldFrom_append c.spec x [ev] evs
      rw [List.singleton_append, h] at whole
      obtain ⟨z, hz, whole⟩ := except_bind whole.symm
      have driven := drive_of_fold hx hz
      obtain ⟨spec, _, _, own⟩ := drive_spec driven
      obtain ⟨z', hz', hfind⟩ := own x hx
      obtain rfl : z = z' := Except.ok.inj (hz.symm.trans hz')
      rw [ProjectionCell.replay]
      cases hd : c.drive id ev with
      | mk c' threw =>
          rw [hd] at driven spec hfind
          simp only at driven spec hfind
          subst driven
          exact ih hfind (spec ▸ whole)

/-- Seeding a cell that has no state of the session folds its log. -/
theorem seed_spec {header : Header} {log : List Event} (new : c.cells.find? header.id = none)
    (h : (c.seed header log).2 = none) : (c.seed header log).1.spec = c.spec ∧
      (∀ other, other ≠ header.id →
        (c.seed header log).1.cells.find? other = c.cells.find? other) ∧
      ∃ y, c.spec.fold header log = .ok y ∧ (c.seed header log).1.cells.find? header.id = some y := by
  unfold ProjectionCell.seed at h ⊢
  cases hi : c.spec.init header with
  | error what => rw [hi] at h; cases h
  | ok x =>
      simp only [hi, SortedMap.contains, new, Option.isSome_none, Bool.false_eq_true, if_false] at h ⊢
      obtain ⟨spec, others, y, hy, hfind⟩ := replay_spec (x := x) (by simp) h
      refine ⟨spec, fun o ho => by rw [others o ho]; simp [ho], y, ?_, hfind⟩
      rw [EventProjection.fold, hi, except_ok_bind]
      exact hy

theorem seed_of_fold {header : Header} {log : List Event} {y : σ}
    (new : c.cells.find? header.id = none) (h : c.spec.fold header log = .ok y) :
    (c.seed header log).2 = none := by
  obtain ⟨x, hx, h⟩ := except_bind h
  unfold ProjectionCell.seed
  simp only [hx, SortedMap.contains, new, Option.isSome_none, Bool.false_eq_true, if_false]
  exact replay_of_fold (x := x) (by simp) h

end

/-! Visits -/

theorem eachCell_find {visit : ProjectionCell σ → ProjectionCell σ × Option String}
    {cells : List (Nat × ProjectionCell σ)} {m : SortedMap Nat (ProjectionCell σ)}
    (sorted : cells.Pairwise fun a b => a.1 < b.1) (h : (eachCell visit cells m).2 = none)
    (pid : Nat) : (eachCell visit cells m).1.find? pid =
      match SortedMap.findList pid cells with
      | some c => some (visit c).1
      | none => m.find? pid := by
  induction cells generalizing m with
  | nil => rfl
  | cons e es ih =>
      obtain ⟨p, c⟩ := e
      obtain ⟨below, sorted⟩ := List.pairwise_cons.mp sorted
      rw [eachCell] at h ⊢
      cases hv : visit c with
      | mk c' threw =>
          cases threw with
          | some what => rw [hv] at h; cases h
          | none =>
              simp only [hv] at h ⊢
              rw [ih sorted h, SortedMap.findList]
              by_cases hp : p = pid
              · subst hp
                have absent : SortedMap.findList p es = none := by
                  cases hf : SortedMap.findList p es with
                  | none => rfl
                  | some d => exact absurd (below _ (SortedMap.mem_of_findList hf)) (Nat.lt_irrefl p)
                simp [absent, hv]
              · cases hf : SortedMap.findList pid es with
                | none => simp [Ne.symm hp]
                | some d => simp [Ne.symm hp]

theorem visitCells_find {st st' : SessionStore σ}
    {visit : ProjectionCell σ → ProjectionCell σ × Option String}
    (h : st.visitCells visit = (st', none)) (pid : Nat) :
    st'.projectionCells.find? pid = (st.projectionCells.find? pid).map fun c => (visit c).1 := by
  have hr := Prod.mk.inj h
  have found := @eachCell_find _ visit _ st.projectionCells st.projectionCells.sorted hr.2 pid
  rw [← hr.1]
  refine found.trans ?_
  rw [SortedMap.find?]
  cases SortedMap.findList pid st.projectionCells.toList <;> rfl

/-! What the calls of a run do to surfaces and cells -/

/-- No projection throws while it is seeded with the log. -/
def Seeds (st : SessionStore σ) (header : Header) (log : List Event) : Prop :=
  ∀ e ∈ st.projectionCells.toList, (e.2.seed header log).2 = none

theorem prepared_surface {st : SessionStore σ} {id : SessionId} {options : CreateOptions} {now : Int}
    {s : Session} (h : st.prepared id options now = .ok s) :
    foldLog st.projections s.log {} = .ok s.surface := by
  unfold prepared at h
  obtain ⟨_, _, h⟩ := except_bind h
  obtain ⟨_, _, h⟩ := except_bind h
  obtain ⟨_, _, h⟩ := except_bind h
  obtain ⟨surface, hsurface, h⟩ := except_bind h
  cases h
  exact hsurface

theorem seeded {st : SessionStore σ} {header : Header} {log : List Event} (seeds : Seeds st header log) :
    ∃ cells, st.visitCells (ProjectionCell.seed header log) =
        ({ st with projectionCells := cells }, none) ∧
      ∀ pid, cells.find? pid = (st.projectionCells.find? pid).map fun c => (c.seed header log).1 := by
  cases hv : st.visitCells (ProjectionCell.seed header log) with
  | mk st' threw =>
      obtain ⟨rest, none⟩ := visitCells_rest hv
      obtain rfl := none.mpr seeds
      exact ⟨st'.projectionCells, by rw [← rest], visitCells_find hv⟩

theorem announce_opened {st : SessionStore σ} {h : Nat} {s e : Session}
    (entry : st.store.find? s.id = some h) (object : st.sessions[h]? = some e)
    (seeds : Seeds st s.header s.log) : ∃ cells,
      (st.announce s).store = { st with projectionCells := cells } ∧
      (st.announce s).threw = none ∧
      ∀ pid, cells.find? pid =
        (st.projectionCells.find? pid).map fun c => (c.seed s.header s.log).1 := by
  obtain ⟨cells, hv, found⟩ := seeded seeds
  have he : ((st.store.find? s.id).bind fun h => st.sessions[h]?) = some e := by simp [entry, object]
  unfold announce
  simp only [he, hv]
  exact ⟨cells, rfl, trivial, found⟩

theorem append_folded {st : SessionStore σ} {h : Nat} {s : Session} {type : String} {data : Json}
    {now : Int} {refuses : Option String} (alive : st.alive = true)
    (accepts : st.Accepts s type data now refuses) : ∃ plan cells,
      foldEvent (st.logged s type data now) st.projections = .ok plan ∧
      (st.append h s type data now refuses).store =
        { st with
          sessions := st.sessions.set h { numbered s with surface := s.surface.apply s.nextSeq plan }
          projectionCells := cells } ∧
      ∀ pid, cells.find? pid = (st.projectionCells.find? pid).map fun c =>
        (c.drive s.id (st.logged s type data now)).1 := by
  obtain ⟨valid, taken⟩ := accepts alive
  obtain ⟨plan, hplan⟩ := taken.folds
  have hev : st.logged s type data now =
      { newEvent s type data now with ignorable := st.ignorable type } := by
    simp only [logged, alive, if_true]
  rw [hev]
  have dispatched := taken.dispatched
  have drives := taken.drives
  generalize hfolded : (st.set h { numbered s with surface := s.surface.apply s.nextSeq plan }) = folded
  have cellsEq : folded.projectionCells = st.projectionCells ∧ folded.bus = st.bus ∧
      folded.store = st.store := by subst hfolded; exact ⟨rfl, rfl, rfl⟩
  cases hv : folded.visitCells (ProjectionCell.drive s.id
      { newEvent s type data now with ignorable := st.ignorable type }) with
  | mk driven threw =>
      obtain ⟨rest, none⟩ := visitCells_rest hv
      rw [cellsEq.1] at none
      obtain rfl := none.mpr drives
      have found := visitCells_find hv
      rw [cellsEq.1] at found
      have done : (st.append h s type data now refuses).store = driven := by
        unfold append
        simp only [alive, if_true]
        unfold publish
        rw [show validateEvent (newEvent s type data now) = .ok () from valid]
        have ignorable : (st.set h (numbered s)).ignorable (newEvent s type data now).type =
            st.ignorable type := rfl
        have folds : foldEvent { newEvent s type data now with ignorable := st.ignorable type }
            (st.set h (numbered s)).projections = .ok plan := hplan
        have twice : (st.set h (numbered s)).set h { numbered s with
            surface := (numbered s).surface.apply (newEvent s type data now).seq plan } = folded := by
          subst hfolded
          simp [SessionStore.set, numbered, newEvent]
        have hid : (numbered s).id = s.id := rfl
        simp only [ignorable, folds, twice, hid, hv]
        split
        · next hbus =>
            obtain ⟨hb, hc⟩ := Bool.and_eq_true_iff.mp hbus
            rw [rest] at hb hc
            rw [dispatched (cellsEq.2.1 ▸ hb) (cellsEq.2.2 ▸ hc)]
        · rfl
      refine ⟨plan, driven.projectionCells, hplan, ?_, found⟩
      rw [done, rest]
      subst hfolded
      rfl

/-! Runs -/

/-- The projections are fixed before the first session, appends are clean and
reach a session through its own object, and a session is announced once, outside
its appends and without a projection that throws. -/
def Steady (c : SessionConfig σ) (a : Label (SessionOp σ)) : Prop :=
  Clean c a ∧
    match a with
    | .run => True
    | .op (.append h _ _ _ _) => ∀ s, c.state.sessions[h]? = some s →
        ∀ h', c.state.store.find? s.id = some h' → h' = h
    | .op (.announce h) => ∀ s, c.state.sessions[h]? = some s →
        ∀ h', c.state.store.find? s.id = some h' → h' = h ∧ pending h c.stack = [] ∧
          (∀ pid cell, c.state.projectionCells.find? pid = some cell →
            cell.cells.find? s.id = none) ∧ Seeds c.state s.header s.log
    | .op .expire => False
    | .op (.registerMessageProjection _) | .op (.dropMessageProjection _)
    | .op (.registerProjection _) | .op (.dropProjection _) => c.state.sessions = []
    | .op o => ∀ id options now s, Opening c.state o id options now →
        c.state.prepared id options now = .ok s → Seeds c.state s.header s.log

/-- Each surface and each state of a projection is a fold of the log with what
waits for it. -/
structure Replayed (c : SessionConfig σ) : Prop where
  alive : c.state.alive = true
  entered : ∀ id h, c.state.store.find? id = some h →
    ∃ s, c.state.sessions[h]? = some s ∧ s.id = id
  surface : ∀ h s, c.state.sessions[h]? = some s →
    foldLog c.state.projections (s.log ++ pending h c.stack) {} = .ok s.surface
  states : ∀ pid cell id x, c.state.projectionCells.find? pid = some cell →
    cell.cells.find? id = some x → ∃ h s, c.state.store.find? id = some h ∧
      c.state.sessions[h]? = some s ∧
        cell.spec.fold s.header (s.log ++ pending h c.stack) = .ok x
  marked : ∀ h s, c.state.sessions[h]? = some s → ∀ ev ∈ s.log ++ pending h c.stack,
    ev.type ≠ "session/end-seed" → ev.ignorable = c.state.ignorable ev.type

theorem prepared_marked {st : SessionStore σ} {id : SessionId} {options : CreateOptions} {now : Int}
    {s : Session} (h : st.prepared id options now = .ok s) : ∀ ev ∈ s.log,
      ev.type ≠ "session/end-seed" → ev.ignorable = st.ignorable ev.type := by
  obtain ⟨_, _, log⟩ := prepared_spec h
  intro ev hev type
  have repaired : ∀ {log : List Event}, (∀ ev ∈ log, ev.ignorable = st.ignorable ev.type) →
      ∀ ev ∈ repairInterruptedTurns now log, ev.ignorable = st.ignorable ev.type := by
    intro log hlog ev hev
    rcases List.mem_append.mp hev with hev | hev
    · exact hlog ev hev
    · obtain ⟨seq, c, _, rfl⟩ := closers_mem hev
      simp [closer, ignorable, isBuiltinSurfaceType]
  have seed : ∀ ev ∈ options.seed.map (fun ev => { ev with ignorable := st.ignorable ev.type }),
      ev.ignorable = st.ignorable ev.type := by
    intro ev hev
    obtain ⟨a, _, rfl⟩ := List.mem_map.mp hev
    rfl
  rw [log, openingLog] at hev
  split at hev
  · rcases List.mem_append.mp hev with hev | hev
    · exact repaired seed ev hev
    · rw [List.mem_singleton.mp hev] at type
      exact absurd rfl type
  · exact repaired seed ev hev

theorem commit_replayed {st : SessionStore σ} {f : SessionFrame} {rest : List SessionFrame}
    (inv : Replayed ⟨st, f :: rest⟩) : Replayed ⟨st.commit f, rest⟩ := by
  obtain ⟨h, ev⟩ := f
  obtain ⟨entries, alive, _⟩ := commit_entries st (.commit h ev)
  obtain ⟨projections, cells⟩ := commit_projections st (.commit h ev)
  have forward : ∀ {i : Nat} {b : Session}, st.sessions[i]? = some b →
      ∃ a, (st.commit (.commit h ev)).sessions[i]? = some a ∧ a.header = b.header ∧
        a.log ++ pending i rest = b.log ++ pending i (.commit h ev :: rest) := by
    intro i b hb
    obtain ⟨hlt, _⟩ := List.getElem?_eq_some_iff.mp hb
    have ha := List.getElem?_eq_getElem (l := (st.commit (.commit h ev)).sessions) (i := i)
      (by rw [commit_length]; exact hlt)
    obtain ⟨b', hb', header, _, _, log⟩ := commit_session rest ha
    obtain rfl : b = b' := Option.some.inj (hb.symm.trans hb')
    exact ⟨_, ha, header, log⟩
  have ignorable : ∀ type, (st.commit (.commit h ev)).ignorable type = st.ignorable type := fun type => by
    simp only [SessionStore.ignorable, hasProjection, projections]
  refine ⟨alive.trans inv.alive, ?_, ?_, ?_, ?_⟩
  · intro id i hi
    simp only [entries] at hi
    obtain ⟨b, hb, hid⟩ := inv.entered id i hi
    obtain ⟨a, ha, header, _⟩ := forward hb
    exact ⟨a, ha, by rw [Session.id, header]; exact hid⟩
  · intro i a ha
    obtain ⟨b, hb, _, _, surface, log⟩ := commit_session rest ha
    simp only [projections, log, surface]
    exact inv.surface i b hb
  · intro pid cell id x hc hx
    simp only [cells] at hc
    obtain ⟨i, b, hi, hb, fold⟩ := inv.states pid cell id x hc hx
    obtain ⟨a, ha, header, log⟩ := forward hb
    exact ⟨i, a, by simpa only [entries] using hi, ha, by rw [header, log]; exact fold⟩
  · intro i a ha e he type
    obtain ⟨b, hb, _, _, _, log⟩ := commit_session rest ha
    rw [log] at he
    rw [ignorable]
    exact inv.marked i b hb e he type

theorem append_replayed {c : SessionConfig σ} (inv : Replayed c) {h : Nat} {s : Session} {type : String}
    {data : Json} {now : Int} {refuses : Option String} (hs : c.state.sessions[h]? = some s)
    (alone : pending h c.stack = []) (accepts : c.state.Accepts s type data now refuses)
    (through : ∀ h', c.state.store.find? s.id = some h' → h' = h) :
    Replayed ⟨(c.state.append h s type data now refuses).store,
      (c.state.append h s type data now refuses).frames ++ c.stack⟩ := by
  obtain ⟨plan, cells, hplan, hstore, found⟩ := append_folded inv.alive accepts (h := h)
  have appended := append_appended c.state h s type data now refuses
  have frames := (appended.accepted (append_threw_iff.mpr accepts)).1
  have mark : (c.state.logged s type data now).ignorable =
      c.state.ignorable (c.state.logged s type data now).type := by
    simp only [logged, inv.alive, if_true]
    rfl
  have hseq : (c.state.logged s type data now).seq = s.nextSeq := rfl
  have drives := (accepts inv.alive).2.drives
  rw [show ({ newEvent s type data now with ignorable := c.state.ignorable type } : Event) =
    c.state.logged s type data now by simp only [logged, inv.alive, if_true]] at drives
  generalize c.state.logged s type data now = ev at *
  rw [hstore, frames]
  obtain ⟨hlt, _⟩ := List.getElem?_eq_some_iff.mp hs
  have own : pending h ([SessionFrame.commit h ev] ++ c.stack) = [ev] := by
    simp only [pending] at alone
    simp [pending, alone]
  have other : ∀ i, i ≠ h → pending i ([SessionFrame.commit h ev] ++ c.stack) = pending i c.stack :=
    fun i hi => by simp [pending, Ne.symm hi]
  have before := inv.surface h s hs
  rw [alone, List.append_nil] at before
  refine ⟨inv.alive, ?_, ?_, ?_, ?_⟩
  · intro id i hi
    obtain ⟨b, hb, hid⟩ := inv.entered id i hi
    by_cases hih : i = h
    · subst hih
      obtain rfl : s = b := Option.some.inj (hs.symm.trans hb)
      exact ⟨_, List.getElem?_set_self hlt, hid⟩
    · exact ⟨b, by rw [List.getElem?_set_ne (Ne.symm hih)]; exact hb, hid⟩
  · intro i a ha
    simp only at ha
    by_cases hih : i = h
    · subst hih
      rw [List.getElem?_set_self hlt, Option.some.injEq] at ha
      subst ha
      simp only [own, numbered, foldLog_append, before, except_ok_bind, foldLog, hplan, hseq]
    · rw [List.getElem?_set_ne (Ne.symm hih)] at ha
      rw [other i hih]
      exact inv.surface i a ha
  · intro pid cell id x hc hx
    rw [found, Option.map_eq_some_iff] at hc
    obtain ⟨old, hold, rfl⟩ := hc
    obtain ⟨spec, others, none, drove⟩ := drive_spec (drives _ (SortedMap.mem_toList.mpr hold))
    by_cases hid : id = s.id
    · subst hid
      cases hx₀ : old.cells.find? s.id with
      | none =>
          rw [none hx₀] at hx
          cases hx
      | some x₀ =>
          obtain ⟨i, b, hi, hb, fold⟩ := inv.states pid old s.id x₀ hold hx₀
          obtain rfl := through i hi
          obtain rfl : s = b := Option.some.inj (hs.symm.trans hb)
          rw [alone, List.append_nil] at fold
          obtain ⟨y, hy, hfind⟩ := drove x₀ hx₀
          obtain rfl : y = x := Option.some.inj (hfind.symm.trans hx)
          refine ⟨i, _, hi, List.getElem?_set_self hlt, ?_⟩
          simp only [own, spec]
          exact (fold_append fold _).trans hy
    · rw [others id hid] at hx
      obtain ⟨i, b, hi, hb, fold⟩ := inv.states pid old id x hold hx
      have hih : i ≠ h := by
        rintro rfl
        obtain rfl : s = b := Option.some.inj (hs.symm.trans hb)
        obtain ⟨b, hb, hid'⟩ := inv.entered id i hi
        obtain rfl : s = b := Option.some.inj (hs.symm.trans hb)
        exact hid hid'.symm
      exact ⟨i, b, hi, by rw [List.getElem?_set_ne (Ne.symm hih)]; exact hb,
        by rw [spec, other i hih]; exact fold⟩
  · intro i a ha e he type
    simp only at ha
    by_cases hih : i = h
    · subst hih
      rw [List.getElem?_set_self hlt, Option.some.injEq] at ha
      subst ha
      rw [own] at he
      rcases List.mem_append.mp he with he | he
      · exact inv.marked i s hs e (List.mem_append_left _ he) type
      · rw [List.mem_singleton.mp he]
        exact mark
    · rw [List.getElem?_set_ne (Ne.symm hih)] at ha
      rw [other i hih] at he
      exact inv.marked i a ha e he type

theorem add_replayed {c : SessionConfig σ} (inv : Replayed c) {s : Session}
    (unknown : pending c.state.sessions.length c.stack = [])
    (surface : foldLog c.state.projections s.log {} = .ok s.surface)
    (marked : ∀ ev ∈ s.log, ev.type ≠ "session/end-seed" → ev.ignorable = c.state.ignorable ev.type) :
    Replayed ⟨c.state.addSession s, c.stack⟩ := by
  have old : ∀ {i : Nat} {a : Session}, c.state.sessions[i]? = some a →
      (c.state.sessions ++ [s])[i]? = some a := by
    intro i a ha
    obtain ⟨hlt, _⟩ := List.getElem?_eq_some_iff.mp ha
    rw [List.getElem?_append_left hlt]
    exact ha
  have new : ∀ {i : Nat} {a : Session}, (c.state.sessions ++ [s])[i]? = some a →
      c.state.sessions[i]? = some a ∨ (i = c.state.sessions.length ∧ a = s) := by
    intro i a ha
    rcases Nat.lt_trichotomy i c.state.sessions.length with hi | hi | hi
    · exact .inl (by rwa [List.getElem?_append_left hi] at ha)
    · subst hi
      rw [List.getElem?_concat_length, Option.some.injEq] at ha
      exact .inr ⟨rfl, ha.symm⟩
    · rw [List.getElem?_eq_none (by simp; omega)] at ha
      cases ha
  refine ⟨inv.alive, ?_, ?_, ?_, ?_⟩
  · intro id i hi
    obtain ⟨a, ha, hid⟩ := inv.entered id i hi
    exact ⟨a, old ha, hid⟩
  · intro i a ha
    rcases new ha with ha | ⟨rfl, rfl⟩
    · exact inv.surface i a ha
    · simp only [unknown, List.append_nil]
      exact surface
  · intro pid cell id x hc hx
    obtain ⟨i, a, hi, ha, fold⟩ := inv.states pid cell id x hc hx
    exact ⟨i, a, hi, old ha, fold⟩
  · intro i a ha ev hev type
    rcases new ha with ha | ⟨rfl, rfl⟩
    · exact inv.marked i a ha ev hev type
    · simp only [unknown, List.append_nil] at hev
      exact marked ev hev type

theorem enter_replayed {c : SessionConfig σ} (inv : Replayed c) {h : Nat} {s : Session}
    (hs : c.state.sessions[h]? = some s) (new : c.state.store.find? s.id = none) :
    Replayed ⟨{ c.state with store := c.state.store.insert s.id h }, c.stack⟩ := by
  refine ⟨inv.alive, ?_, inv.surface, ?_, inv.marked⟩
  · intro id i hi
    simp only [SortedMap.find?_insert] at hi
    split at hi
    · next hid =>
        obtain rfl := Option.some.inj hi
        exact ⟨s, hs, hid.symm⟩
    · exact inv.entered id i hi
  · intro pid cell id x hc hx
    obtain ⟨i, a, hi, ha, fold⟩ := inv.states pid cell id x hc hx
    have hne : id ≠ s.id := by
      rintro rfl
      rw [new] at hi
      cases hi
    exact ⟨i, a, by simpa only [SortedMap.find?_insert, if_neg hne] using hi, ha, fold⟩

theorem announce_replayed {c : SessionConfig σ} (inv : Replayed c) {h : Nat} {s : Session}
    (hs : c.state.sessions[h]? = some s) (entry : c.state.store.find? s.id = some h)
    (alone : pending h c.stack = [])
    (unseeded : ∀ pid cell, c.state.projectionCells.find? pid = some cell →
      cell.cells.find? s.id = none)
    (seeds : Seeds c.state s.header s.log) : Replayed ⟨(c.state.announce s).store, c.stack⟩ := by
  obtain ⟨cells, hstore, _, found⟩ := announce_opened entry hs seeds
  rw [hstore]
  refine ⟨inv.alive, inv.entered, inv.surface, ?_, inv.marked⟩
  intro pid cell id x hc hx
  rw [found, Option.map_eq_some_iff] at hc
  obtain ⟨old, hold, rfl⟩ := hc
  obtain ⟨spec, others, y, hy, hfind⟩ :=
    seed_spec (unseeded pid old hold) (seeds _ (SortedMap.mem_toList.mpr hold))
  by_cases hid : id = s.id
  · subst hid
    obtain rfl : y = x := Option.some.inj (hfind.symm.trans hx)
    exact ⟨h, s, entry, hs, by rw [alone, List.append_nil, spec]; exact hy⟩
  · rw [others id hid] at hx
    obtain ⟨i, a, hi, ha, fold⟩ := inv.states pid old id x hold hx
    exact ⟨i, a, hi, ha, by rw [spec]; exact fold⟩

theorem create_replayed {c : SessionConfig σ} (inv : Replayed c) (aligned : Aligned c)
    {id : SessionId} {options : CreateOptions} {now : Int}
    (seeds : ∀ s, c.state.prepared id options now = .ok s → Seeds c.state s.header s.log) :
    Replayed ⟨(c.state.create id options now).store, c.stack⟩ := by
  cases hp : c.state.prepared id options now with
  | error what =>
      unfold create
      simp only [hp]
      exact inv
  | ok s =>
      obtain ⟨rfl, new, heq⟩ := create_eq hp
      have absent : c.state.store.find? s.id = none := by
        simpa [SortedMap.contains] using new
      have unknown := pending_unknown aligned
      have added := add_replayed inv unknown (prepared_surface hp) (prepared_marked hp)
      have entered := enter_replayed added (h := c.state.sessions.length) (s := s)
        (by simp [addSession]) absent
      have unseeded : ∀ pid cell, c.state.projectionCells.find? pid = some cell →
          cell.cells.find? s.id = none := by
        intro pid cell hcell
        cases hx : cell.cells.find? s.id with
        | none => rfl
        | some x =>
            obtain ⟨i, _, hi, _⟩ := inv.states pid cell s.id x hcell hx
            rw [absent] at hi
            cases hi
      rw [heq]
      exact announce_replayed entered (h := c.state.sessions.length) (s := s) (by simp [addSession])
        (by simp) unknown unseeded (seeds s hp)

theorem dispose_replayed {c : SessionConfig σ} (inv : Replayed c) (id : SessionId) :
    Replayed ⟨{ c.state with store := c.state.store.erase id, projectionCells := c.state.dropCells id },
      c.stack⟩ := by
  refine ⟨inv.alive, ?_, inv.surface, ?_, inv.marked⟩
  · intro id' i hi
    simp only [SortedMap.find?_erase] at hi
    split at hi
    · cases hi
    · exact inv.entered id' i hi
  · intro pid cell id' x hc hx
    simp only [dropCells, SortedMap.find?_filterMap] at hc
    obtain ⟨old, hold, hc⟩ := Option.bind_eq_some_iff.mp hc
    obtain rfl := Option.some.inj hc
    simp only [ProjectionCell.drop, SortedMap.find?_erase] at hx
    split at hx
    · cases hx
    · next hne =>
        obtain ⟨i, a, hi, ha, fold⟩ := inv.states pid old id' x hold hx
        exact ⟨i, a, by simpa only [SortedMap.find?_erase, if_neg hne] using hi, ha, fold⟩

/-- Before the first session the projections may change. -/
theorem registered_replayed {c : SessionConfig σ} (inv : Replayed c) (none : c.state.sessions = [])
    {st : SessionStore σ} (alive : st.alive = c.state.alive) (sessions : st.sessions = c.state.sessions)
    (entries : st.store = c.state.store)
    (cells : ∀ pid cell id, st.projectionCells.find? pid = some cell →
      cell.cells.find? id ≠ Option.none → ∃ old, c.state.projectionCells.find? pid = some old ∧
        old.cells.find? id = cell.cells.find? id) : Replayed ⟨st, c.stack⟩ := by
  have empty : ∀ {i : Nat} {a : Session}, st.sessions[i]? = some a → False := by
    intro i a ha
    rw [sessions, none] at ha
    cases ha
  refine ⟨alive.trans inv.alive, ?_, fun i a ha => (empty ha).elim, ?_, fun i a ha => (empty ha).elim⟩
  · intro id i hi
    simp only [entries] at hi
    simpa only [sessions] using inv.entered id i hi
  · intro pid cell id x hc hx
    obtain ⟨old, hold, heq⟩ := cells pid cell id hc (by rw [hx]; simp)
    obtain ⟨i, a, _, ha, _⟩ := inv.states pid old id x hold (heq.trans hx)
    rw [none] at ha
    cases ha

theorem call_replayed {c : SessionConfig σ} (inv : Replayed c) (aligned : Aligned c) {o : SessionOp σ}
    {d : Done σ} (hx : c.state.run o = some d) (steady : Steady c (.op o))
    (notAppend : ∀ h type data now refuses, o ≠ .append h type data now refuses) :
    Replayed ⟨d.store, c.stack⟩ := by
  obtain ⟨_, steady⟩ := steady
  cases o with
  | append h type data now refuses => exact absurd rfl (notAppend h type data now refuses)
  | create id options now =>
      obtain rfl := of_alive hx
      exact create_replayed inv aligned fun s hs => steady id options now s .create hs
  | prepare id options now =>
      obtain rfl := of_alive hx
      unfold SessionStore.prepare
      split
      · exact inv
      · next s hs =>
          exact add_replayed inv (pending_unknown aligned) (prepared_surface hs) (prepared_marked hs)
  | enter h =>
      obtain ⟨_, hx⟩ := Option.ite_none_right_eq_some.mp hx
      obtain ⟨s, hs, rfl⟩ := Option.map_eq_some_iff.mp hx
      unfold enter
      split
      · exact inv
      · next new => exact enter_replayed inv hs (by simpa [SortedMap.contains] using new)
  | announce h =>
      obtain ⟨_, hx⟩ := Option.ite_none_right_eq_some.mp hx
      obtain ⟨s, hs, rfl⟩ := Option.map_eq_some_iff.mp hx
      cases entry : c.state.store.find? s.id with
      | none =>
          unfold announce
          simp only [entry, Option.bind_none]
          exact inv
      | some h' =>
          obtain ⟨rfl, alone, unseeded, seeds⟩ := steady s hs h' entry
          exact announce_replayed inv hs entry alone unseeded seeds
  | fork parent child cut now =>
      obtain rfl := of_alive hx
      unfold fork
      split
      · exact inv
      · next source hs =>
          obtain ⟨h, hh, hs⟩ := Option.bind_eq_some_iff.mp hs
          simp only
          split
          · exact inv
          · exact create_replayed inv aligned fun s hp => steady _ _ now s (.fork hh hs) hp
  | dispose id =>
      obtain rfl := of_alive hx
      unfold dispose
      split
      · exact dispose_replayed inv id
      · exact inv
  | expire => exact steady.elim
  | flush id =>
      obtain rfl := of_alive hx
      exact inv
  | registerMessageProjection p =>
      obtain rfl := of_alive hx
      unfold registerMessageProjection
      split
      · exact inv
      · exact registered_replayed inv steady rfl rfl rfl fun pid cell id hc _ => ⟨cell, hc, rfl⟩
  | registerProjection spec =>
      obtain rfl := of_alive hx
      refine registered_replayed inv steady rfl rfl rfl fun pid cell id hc hx => ?_
      simp only [registerProjection, SortedMap.find?_insert] at hc
      split at hc
      · obtain rfl := Option.some.inj hc
        exact absurd rfl hx
      · exact ⟨cell, hc, rfl⟩
  | dropMessageProjection type =>
      cases hx
      exact registered_replayed inv steady rfl rfl rfl fun pid cell id hc _ => ⟨cell, hc, rfl⟩
  | dropProjection pid =>
      cases hx
      refine registered_replayed inv steady rfl rfl rfl fun pid' cell id hc _ => ⟨cell, ?_, rfl⟩
      simp only [dropProjection, SortedMap.find?_erase] at hc
      split at hc
      · cases hc
      · exact hc

theorem steady_reached {c : SessionConfig σ} (h : (sessionMachine σ).system.Reached Steady c) :
    (sessionMachine σ).system.Reached Clean c := h.mono fun _ _ steady => steady.1

theorem replayed_reached {c : SessionConfig σ} (h : (sessionMachine σ).system.Reached Steady c) :
    Replayed c := by
  refine h.invariant ?_ ?_
  · rintro ⟨st, stack⟩ ⟨hst, hstack⟩
    simp only at hst hstack
    rw [hst, hstack]
    exact ⟨rfl, fun id h hh => (by cases hh), fun h s hs => (by simp at hs),
      fun pid cell id x hc => (by cases hc), fun h s hs => (by simp at hs)⟩
  · intro c a c' reached inv step steady
    have aligned := aligned_reached (steady_reached reached)
    rcases StackMachine.next_cases step with ⟨f, rest, s', fs, rfl, hst, hx, rfl⟩ |
      ⟨f, rest, s', rfl, hst, hx, rfl⟩ | ⟨o, s', fs, rfl, _, hx, rfl⟩
    · cases hx
      obtain ⟨st, stack⟩ := c
      subst hst
      exact commit_replayed inv
    · cases hx
    · obtain ⟨d, hrun, hd⟩ := Option.map_eq_some_iff.mp hx
      cases hd
      by_cases happ : ∃ h type data now refuses, o = .append h type data now refuses
      · obtain ⟨h, type, data, now, refuses, rfl⟩ := happ
        obtain ⟨s, hget, rfl⟩ := Option.map_eq_some_iff.mp hrun
        obtain ⟨⟨alone, accepts⟩, through⟩ := steady
        exact append_replayed inv hget alone (accepts s hget).2 (through s hget)
      · have notAppend : ∀ h type data now refuses, o ≠ .append h type data now refuses :=
          fun h type data now refuses heq => happ ⟨h, type, data, now, refuses, heq⟩
        rw [(run_grown hrun steady.1 notAppend).2]
        exact call_replayed inv aligned hrun steady notAppend

/-! Restoring and forking -/

/-- No fork marker stands in the log. -/
def Unforked (log : List Event) : Prop := ∀ ev ∈ log, ev.type ≠ "session/end-seed"

/-- Any store with the projections prepares the same session from the log. -/
def Rebuilds (c : SessionConfig σ) (s : Session) : Prop :=
  ∀ (st : SessionStore σ) id options now, st.projections = c.state.projections →
    options.seed = s.log → (options.isSeeded && decide (0 < options.inheritedEventCount)) = false →
      id ≠ "" → st.store.contains id = false →
        ∃ s', st.prepared id options now = .ok s' ∧ s'.log = s.log ∧ s'.surface = s.surface

/-- Announcing a session with the log gives each projection that starts from
both headers alike the state that it has of the session. -/
def Reseeds (c : SessionConfig σ) (s : Session) : Prop :=
  ∀ (st : SessionStore σ) h' s', s'.log = s.log → st.store.find? s'.id = some h' →
    st.sessions[h']? = some s' →
      (∀ pid cell', st.projectionCells.find? pid = some cell' → cell'.cells.find? s'.id = none ∧
        ∃ cell x, c.state.projectionCells.find? pid = some cell ∧ cell.spec = cell'.spec ∧
          cell.cells.find? s.id = some x ∧ cell.spec.init s'.header = cell.spec.init s.header) →
        (st.announce s').threw = none ∧ ∀ pid cell x, st.projectionCells.contains pid = true →
          c.state.projectionCells.find? pid = some cell → cell.cells.find? s.id = some x →
            ∃ cell', (st.announce s').store.projectionCells.find? pid = some cell' ∧
              cell'.cells.find? s'.id = some x

/-- What a fork adds to its prefix. -/
def forkTail (now : Int) (front : List Event) : List Event :=
  closers (lastTime now front) front.length (openCalls front).toList ++
    if 0 < front.length then [endSeed now (repairInterruptedTurns now front) front.length] else []

/-- A fork folds the prefix and then what it adds: nothing that shows, when no
call of the prefix is open and nothing interprets the marker. -/
def Forks (c : SessionConfig σ) (s : Session) : Prop :=
  ∀ child cut now, cut.getD s.log.length ≤ s.log.length →
    (c.state.fork s.id child cut now).threw = none →
      let front := s.log.take (cut.getD s.log.length)
      ∃ s' t, (c.state.fork s.id child cut now).store.sessions = c.state.sessions ++ [s'] ∧
        s'.log = front ++ forkTail now front ∧
        foldLog c.state.projections front {} = .ok t ∧
        foldLog c.state.projections (forkTail now front) t = .ok s'.surface ∧
        (openCalls front = ∅ → c.state.hasProjection "session/end-seed" = false → s'.surface = t) ∧
        ∀ pid cell, c.state.projectionCells.find? pid = some cell → ∃ y x cell',
          cell.spec.fold s'.header front = .ok y ∧
          cell.spec.foldFrom y (forkTail now front) = .ok x ∧
          (openCalls front = ∅ → cell.spec.accepts "session/end-seed" = false → x = y) ∧
          (c.state.fork s.id child cut now).store.projectionCells.find? pid = some cell' ∧
          cell'.cells.find? child = some x

section
variable {c : SessionConfig σ} {i : Nat} {s : Session}

/-- Marking a log again changes nothing in a store with the same projections. -/
theorem mark_again {st : SessionStore σ} {log : List Event} (projections : st.projections = c.state.projections)
    (marked : ∀ ev ∈ log, ev.type ≠ "session/end-seed" → ev.ignorable = c.state.ignorable ev.type)
    (unforked : Unforked log) :
    log.map (fun ev => { ev with ignorable := st.ignorable ev.type }) = log := by
  have same : ∀ type, st.ignorable type = c.state.ignorable type := fun type => by
    simp only [ignorable, hasProjection, projections]
  refine (List.map_congr_left fun ev hev => ?_).trans (List.map_id log)
  obtain ⟨seq, time, type, data, mark⟩ := ev
  have heq := marked _ hev (unforked _ hev)
  simp only at heq
  rw [same, ← heq]
  rfl

theorem Replayed.rebuilds (inv : Replayed c) (aligned : Aligned c) (object : c.state.sessions[i]? = some s)
    (alone : pending i c.stack = []) (closed : openCalls s.log = ∅) (unforked : Unforked s.log) :
    Rebuilds c s := by
  intro st id options now projections seed unseeded named new
  have canonical := aligned.canonical i s object
  have surface := inv.surface i s object
  have marked := inv.marked i s object
  rw [alone, List.append_nil] at canonical surface marked
  obtain ⟨checked, hchecked⟩ := checkSeed_ok st (i := 0) fun j ev hev => by
    simpa using canonical j ev hev
  have heq := (checkSeed_eq hchecked).1.trans (mark_again projections marked unforked)
  have opening : openingLog now options s.log = s.log := by
    rw [openingLog, repair_of_closed now closed, unseeded]
    rfl
  have hn : ensure (id != "") "session id is empty" = .ok () := by simp [ensure, named]
  have hc : ensure (!st.store.contains id) ("session '" ++ id ++ "' already exists") = .ok () := by
    simp [ensure, new]
  refine ⟨{ header := newHeader id options now, inheritedEventCount := options.inheritedEventCount,
            firstLiveSeq := s.log.length, nextSeq := s.log.length, log := s.log,
            surface := s.surface }, ?_, rfl, rfl⟩
  rw [prepared, hn, except_ok_bind, hc, except_ok_bind, seed, hchecked, except_ok_bind, heq, opening,
    projections]
  simp only [surface, except_ok_bind]

theorem fold_header {p : EventProjection σ} {a b : Header} (h : p.init a = p.init b) (log : List Event) :
    p.fold a log = p.fold b log := by
  rw [EventProjection.fold, h]
  rfl

theorem Replayed.reseeds (inv : Replayed c) (entry : c.state.store.find? s.id = some i)
    (object : c.state.sessions[i]? = some s) (alone : pending i c.stack = []) : Reseeds c s := by
  intro st h' s' log entry' object' matching
  have folds : ∀ {pid : Nat} {cell : ProjectionCell σ} {x : σ},
      c.state.projectionCells.find? pid = some cell → cell.cells.find? s.id = some x →
        cell.spec.fold s.header s.log = .ok x := by
    intro pid cell x hc hx
    obtain ⟨j, a, hj, ha, fold⟩ := inv.states pid cell s.id x hc hx
    obtain rfl : i = j := Option.some.inj (entry.symm.trans hj)
    obtain rfl : s = a := Option.some.inj (object.symm.trans ha)
    rwa [alone, List.append_nil] at fold
  have again : ∀ {pid : Nat} {cell' : ProjectionCell σ}, st.projectionCells.find? pid = some cell' →
      ∃ cell x, c.state.projectionCells.find? pid = some cell ∧ cell.cells.find? s.id = some x ∧
        cell'.spec.fold s'.header s'.log = .ok x := by
    intro pid cell' hc'
    obtain ⟨_, cell, x, hc, spec, hx, init⟩ := matching pid cell' hc'
    exact ⟨cell, x, hc, hx, by rw [← spec, log, fold_header init]; exact folds hc hx⟩
  have seeds : Seeds st s'.header s'.log := by
    intro e he
    have he := SortedMap.mem_toList.mp he
    obtain ⟨_, x, _, _, fold⟩ := again he
    exact seed_of_fold (matching _ _ he).1 fold
  obtain ⟨cells, hstore, threw, found⟩ := announce_opened entry' object' seeds
  refine ⟨threw, fun pid cell x hp hc hx => ?_⟩
  obtain ⟨cell', hc'⟩ := Option.isSome_iff_exists.mp hp
  obtain ⟨cell₀, x₀, hc₀, hx₀, fold⟩ := again hc'
  obtain rfl : cell = cell₀ := Option.some.inj (hc.symm.trans hc₀)
  obtain rfl : x = x₀ := Option.some.inj (hx.symm.trans hx₀)
  obtain ⟨_, _, y, hy, hfind⟩ :=
    seed_spec (matching pid cell' hc').1 (seeds _ (SortedMap.mem_toList.mpr hc'))
  obtain rfl : y = x := Except.ok.inj (hy.symm.trans fold)
  exact ⟨_, by rw [hstore, found, hc']; rfl, hfind⟩

theorem forkTail_closed {now : Int} {front : List Event} (closed : openCalls front = ∅) :
    forkTail now front = if 0 < front.length then
      [endSeed now (repairInterruptedTurns now front) front.length] else [] := by
  rw [forkTail, closed]
  rfl

theorem foldFrom_tail {p : EventProjection σ} {now : Int} {front : List Event} {y x : σ}
    (closed : openCalls front = ∅) (blind : p.accepts "session/end-seed" = false)
    (h : p.foldFrom y (forkTail now front) = .ok x) : x = y := by
  rw [forkTail_closed closed] at h
  split at h
  · simp only [EventProjection.foldFrom, endSeed, blind, Bool.false_eq_true, if_false] at h
    exact (Except.ok.inj h).symm
  · exact (Except.ok.inj h).symm

theorem foldLog_tail {st : SessionStore σ} {now : Int} {front : List Event} {t t' : Surface}
    (closed : openCalls front = ∅) (blind : st.hasProjection "session/end-seed" = false)
    (h : foldLog st.projections (forkTail now front) t = .ok t') : t' = t := by
  rw [forkTail_closed closed] at h
  split at h
  · have plain : foldEvent (endSeed now (repairInterruptedTurns now front) front.length)
        st.projections = .ok .none := by
      have unregistered : st.projections.find? (fun p => p.eventType == "session/end-seed") = none := by
        simp only [hasProjection, List.any_eq_false] at blind
        simpa [List.find?_eq_none] using blind
      simp [foldEvent, endSeed, unregistered, foldBuiltin]
    rw [foldLog, plain, except_ok_bind] at h
    exact (Except.ok.inj h).symm
  · exact (Except.ok.inj h).symm

theorem Replayed.forks (inv : Replayed c) (entry : c.state.store.find? s.id = some i)
    (object : c.state.sessions[i]? = some s) (unforked : Unforked s.log) : Forks c s := by
  intro child cut now hcut threw
  generalize hn : cut.getD s.log.length = n at hcut
  have found : (c.state.store.find? s.id).bind (fun h => c.state.sessions[h]?) = some s := by
    simp [entry, object]
  have hfork : c.state.fork s.id child cut now = c.state.create child (forkOptions s n) now := by
    unfold fork
    simp only [found, hn, Nat.not_lt.mpr hcut, if_false]
  rw [hfork] at threw ⊢
  simp only
  cases hp : c.state.prepared child (forkOptions s n) now with
  | error what =>
      unfold create at threw
      simp only [hp] at threw
      cases threw
  | ok s' =>
      obtain ⟨hid, new, heq⟩ := create_eq hp
      obtain ⟨_, _, hlog⟩ := prepared_spec hp
      have marked := @mark_again _ c c.state (s.log.take n) rfl
        (fun ev hev => inv.marked i s object ev (List.mem_append_left _ (List.mem_of_mem_take hev)))
        (fun ev hev => unforked ev (List.mem_of_mem_take hev))
      have length : (s.log.take n).length = n := by simp [hcut]
      generalize hfront : s.log.take n = front at *
      have log : s'.log = front ++ forkTail now front := by
        rw [hlog]
        simp only [forkOptions, hfront, marked, openingLog, forkTail, repairInterruptedTurns,
          Bool.and_self, decide_eq_true_eq, length]
        split <;> simp
      have surface := prepared_surface hp
      rw [log, foldLog_append] at surface
      obtain ⟨t, ht, surface⟩ := except_bind surface
      have seeds : Seeds ({ c.state.addSession s' with
          store := c.state.store.insert child c.state.sessions.length } : SessionStore σ)
          s'.header s'.log := by
        rw [heq] at threw
        unfold announce at threw
        have hentered : ((({ c.state.addSession s' with
            store := c.state.store.insert child c.state.sessions.length } : SessionStore σ).store.find?
              s'.id).bind fun h => ({ c.state.addSession s' with
            store := c.state.store.insert child c.state.sessions.length } : SessionStore σ).sessions[h]?) =
              some s' := by simp [hid, addSession]
        simp only [hentered] at threw
        split at threw
        · cases threw
        · next hv => exact (visitCells_rest hv).2.mp rfl
      obtain ⟨cells, hstore, _, hcells⟩ := announce_opened (s := s') (e := s')
        (h := c.state.sessions.length) (by simp [hid]) (by simp [addSession]) seeds
      rw [heq, hstore]
      refine ⟨s', t, rfl, log, ht, surface, ?_, ?_⟩
      · exact fun closed blind => foldLog_tail closed blind surface
      · intro pid cell hc
        have unseeded : cell.cells.find? s'.header.id = none := by
          cases hx : cell.cells.find? s'.header.id with
          | none => rfl
          | some x =>
              obtain ⟨j, _, hj, _⟩ := inv.states pid cell _ x hc hx
              have absent : c.state.store.find? s'.header.id = none := by
                rw [show s'.header.id = child from hid]
                simpa [SortedMap.contains] using new
              rw [absent] at hj
              cases hj
        obtain ⟨_, _, x, hx, hfind⟩ := seed_spec unseeded (seeds _ (SortedMap.mem_toList.mpr hc))
        rw [log, EventProjection.fold] at hx
        obtain ⟨x₀, hx₀, hx⟩ := except_bind hx
        rw [foldFrom_append] at hx
        obtain ⟨y, hy, hx⟩ := except_bind hx
        refine ⟨y, x, (cell.seed s'.header s'.log).1, ?_, hx, ?_, ?_, ?_⟩
        · rw [EventProjection.fold, hx₀, except_ok_bind]
          exact hy
        · exact fun closed blind => foldFrom_tail closed blind hx
        · simp only [hcells]
          rw [show ({ c.state.addSession s' with
            store := c.state.store.insert child c.state.sessions.length } :
              SessionStore σ).projectionCells = c.state.projectionCells from rfl, hc]
          rfl
        · rw [← show s'.header.id = child from hid]
          exact hfind

/-- Replay agrees with live driving. -/
theorem replay_agrees (h : (sessionMachine σ).system.Reached Steady c)
    (entry : c.state.store.find? s.id = some i) (object : c.state.sessions[i]? = some s)
    (alone : pending i c.stack = []) (unforked : Unforked s.log) :
    (openCalls s.log = ∅ → Rebuilds c s) ∧ Reseeds c s ∧ Forks c s := by
  have inv := replayed_reached h
  have aligned := aligned_reached (steady_reached h)
  exact ⟨fun closed => inv.rebuilds aligned object alone closed unforked,
    inv.reseeds entry object alone, inv.forks entry object unforked⟩

end

/-! Two schedules -/

/-- The check of `Steady` for sessions that open outside a run of `announce`. -/
def steady? (c : SessionConfig σ) (a : Label (SessionOp σ)) : Bool :=
  clean? c a &&
    match a with
    | .run => true
    | .op (.append h _ _ _ _) => (c.state.sessions[h]?).all fun s =>
        (c.state.store.find? s.id).all (· == h)
    | .op (.registerProjection _) => c.state.sessions.isEmpty
    | .op (.create id options now) =>
        match c.state.prepared id options now with
        | .ok s => c.state.projectionCells.toList.all fun e => (e.2.seed s.header s.log).2.isNone
        | .error _ => true
    | _ => false

theorem steady_of_check (c : SessionConfig σ) (a : Label (SessionOp σ)) (h : steady? c a = true) :
    Steady c a := by
  obtain ⟨clean, h⟩ := Bool.and_eq_true_iff.mp h
  refine ⟨clean_of_check _ _ clean, ?_⟩
  cases a with
  | run => trivial
  | op o =>
      cases o with
      | append i type data now refuses =>
          intro s hs h' hh
          simp only [Option.all_eq_true, beq_iff_eq] at h
          exact h s hs h' hh
      | registerProjection spec => exact List.isEmpty_iff.mp h
      | create id options now =>
          intro id' options' now' s op hs
          cases op
          simp only [hs, List.all_eq_true, Option.isNone_iff_eq_none] at h
          exact h
      | _ => cases h

end

/-- Counts the events of a session. -/
def eventCount : EventProjection Nat where
  init _ := .ok 0
  apply n _ := (n + 1, none)

def replaceFirst : Json :=
  .obj [("start_seq", .int 0), ("end_seq", .int 1), ("message", .obj [("id", .str "m3"),
    ("role", .str "user"), ("content", .arr [])])]

/-- A counted session with a message and its replacement. -/
theorem replay_agrees_counted : ∃ (c : SessionConfig Nat) (s : Session),
    s.log.map (·.type) = ["user/message", "surface/replace"] ∧ s.surface.generation = 1 ∧
      (openCalls s.log = ∅ → Rebuilds c s) ∧ Reseeds c s ∧ Forks c s := by
  have played : (System.follow (sessionMachine Nat).next steady? ⟨{}, []⟩
      [.op (.registerProjection eventCount), .op (.create "s" {} 0),
        .op (.append 0 "user/message" (userMessage "m1") 1 none), .run,
        .op (.append 0 "surface/replace" replaceFirst 2 none), .run]).any (fun c =>
        c.stack.isEmpty && (decide (c.state.store.find? "s" = some 0) &&
          (c.state.sessions[0]?).any fun s => decide (s.id = "s" ∧
            s.log.map (·.type) = ["user/message", "surface/replace"] ∧ s.surface.generation = 1))) =
        true := by decide +kernel
  obtain ⟨c, hc, hplayed⟩ := (Option.any_eq_true _ _).mp played
  simp only [Bool.and_eq_true, List.isEmpty_iff] at hplayed
  obtain ⟨hstack, hentry, hobject⟩ := hplayed
  obtain ⟨s, hs, hlog⟩ := (Option.any_eq_true _ _).mp hobject
  obtain ⟨hid, hlog, hgen⟩ := of_decide_eq_true hlog
  have reached := System.follow_reached (S := (sessionMachine Nat).system) (P := Steady)
    (fun _ _ _ h => h) steady_of_check hc (.start ⟨rfl, rfl⟩)
  have unforked : Unforked s.log := by
    intro ev hev
    have htype : ev.type ∈ s.log.map (·.type) := List.mem_map_of_mem hev
    rw [hlog] at htype
    rintro heq
    rw [heq] at htype
    simp at htype
  exact ⟨c, s, hlog, hgen, replay_agrees reached (by rw [hid]; exact of_decide_eq_true hentry) hs
    (by rw [hstack]; rfl) unforked⟩

/-- A projection of all events counts the marker of a fork. -/
theorem fork_counts_marker : ¬ ∀ (c : SessionConfig Nat), (sessionMachine Nat).system.Reached Steady c →
    ∀ (i : Nat) (s : Session), c.state.store.find? s.id = some i → c.state.sessions[i]? = some s →
      openCalls s.log = ∅ → ∀ child cut now, cut.getD s.log.length ≤ s.log.length →
        (c.state.fork s.id child cut now).threw = none → ∀ pid cell cell' x,
          c.state.projectionCells.find? pid = some cell →
            (c.state.fork s.id child cut now).store.projectionCells.find? pid = some cell' →
              cell'.cells.find? child = some x → ∃ s' ∈ (c.state.fork s.id child cut now).store.sessions,
                cell.spec.fold s'.header (s.log.take (cut.getD s.log.length)) = .ok x := by
  intro agrees
  have played : (System.follow (sessionMachine Nat).next steady? ⟨{}, []⟩
      [.op (.registerProjection eventCount), .op (.create "s" {} 0),
        .op (.append 0 "user/message" (userMessage "m1") 1 none), .run]).any (fun c =>
        decide (c.state.store.find? "s" = some 0) &&
          (c.state.sessions[0]?).any fun s => decide (s.id = "s" ∧ (openCalls s.log).toList = [] ∧
            s.log.length = 1) && ((c.state.fork "s" "t" (some 1) 2).threw.isNone &&
              ((c.state.projectionCells.find? 0).any fun cell =>
                ((c.state.fork "s" "t" (some 1) 2).store.projectionCells.find? 0).any fun cell' =>
                  decide (cell'.cells.find? "t" = some 2) &&
                    (c.state.fork "s" "t" (some 1) 2).store.sessions.all fun s' =>
                      match cell.spec.fold s'.header (s.log.take 1) with
                      | .ok x => x == 1
                      | .error _ => true))) = true := by decide +kernel
  obtain ⟨c, hc, hplayed⟩ := (Option.any_eq_true _ _).mp played
  obtain ⟨hentry, hobject⟩ := Bool.and_eq_true_iff.mp hplayed
  obtain ⟨s, hs, hrest⟩ := (Option.any_eq_true _ _).mp hobject
  simp only [Bool.and_eq_true, Option.isNone_iff_eq_none] at hrest
  obtain ⟨hsession, hthrew, hcells⟩ := hrest
  obtain ⟨hid, hcalls, hlen⟩ := of_decide_eq_true hsession
  have hclosed : openCalls s.log = ∅ := SortedSet.ext_mem fun call => by
    rw [SortedSet.mem_def, hcalls]
    exact Iff.rfl
  obtain ⟨cell, hcell, hcells⟩ := (Option.any_eq_true _ _).mp hcells
  obtain ⟨cell', hcell', hcells⟩ := (Option.any_eq_true _ _).mp hcells
  obtain ⟨hx, hfolds⟩ := Bool.and_eq_true_iff.mp hcells
  have reached := System.follow_reached (S := (sessionMachine Nat).system) (P := Steady)
    (fun _ _ _ h => h) steady_of_check hc (.start ⟨rfl, rfl⟩)
  obtain ⟨s', hs', fold⟩ := agrees c reached 0 s (by rw [hid]; exact of_decide_eq_true hentry) hs hclosed
    "t" (some 1) 2 (by simp [hlen]) (by rw [hid]; exact hthrew) 0 cell cell' 2 hcell
    (by rw [hid]; exact hcell') (of_decide_eq_true hx)
  rw [hid] at hs'
  have one := List.all_eq_true.mp hfolds s' hs'
  simp only [Option.getD_some] at fold
  rw [fold] at one
  cases one

end Araya.Sessions
