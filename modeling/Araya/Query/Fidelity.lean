import Araya.Query.Index

/-!
The index holds what its sessions hold, as long as a row that is left as it is was made from the same session,
unchanged. Its revisions do not tell a session from an earlier one of the same length.
-/

namespace Araya.Query

open Sessions SessionStore

/-! What the tables should hold -/

def Tables.documentsUnder (t : Tables) (id : SessionId) : List DocumentRow := t.documents.filter (·.session = id)

/-- The row and the documents of a session. -/
def Tables.view (t : Tables) (id : SessionId) : Option IndexedRow × List DocumentRow :=
  (t.sessions.find? id, t.documentsUnder id)

def liveSource (backend : Option Backend) (id : SessionId) (s : Session) : SessionSource where
  header := s.header
  events := s.log
  live := true
  persisted := (backend.bind (·.revision id)).isSome

def storedSource (s : StoredSession) : SessionSource where
  header := s.header
  events := s.events
  persisted := true

/-- A session that is entered, or else stored and readable. -/
def IndexState.visible {σ : Type} (c : IndexState σ) (id : SessionId) : Option SessionSource :=
  match entered? c.store.state id with
  | some s => some (liveSource c.backend id s)
  | none => (c.backend.bind (·.read id)).map storedSource

/-- The index holds the documents and flags of a session. -/
def Tables.Holds (t : Tables) (id : SessionId) (source : SessionSource) : Prop :=
  t.documentsUnder id = Tables.documentsOf source.header source.events ∧
    ∃ row, t.sessions.find? id = some row ∧ row.live = source.live ∧ row.persisted = source.persisted

/-- The index holds every visible session, and nothing else. -/
def IndexState.Faithful {σ : Type} (c : IndexState σ) : Prop :=
  ∀ id, (∀ source, c.visible id = some source → c.tables.Holds id source) ∧
    (c.visible id = none → c.tables.sessions.find? id = none ∧ c.tables.documentsUnder id = [])

/-- A reconcile leaves only rows that were made from the session they are of, and that know if it is stored. -/
def Recognised {σ : Type} (c : IndexState σ) : IndexOp σ → Prop
  | .reconcile => ∀ id want row, c.desired.find? id = some want → c.tables.sessions.find? id = some row →
      Tables.unchanged want row = true → c.made.find? id = c.origin id want.live ∧ row.persisted = want.persisted
  | _ => True

section
variable {σ : Type} {t : Tables} {id k : SessionId} {c c' : IndexState σ}

/-! The tables, one session at a time -/

namespace Tables

theorem view_delete (t : Tables) (id k : SessionId) : (t.deleteSession id).view k = if k = id then (none, []) else t.view k := by
  have row : (t.sessions.erase id).find? k = if k = id then none else t.sessions.find? k := SortedMap.find?_erase t.sessions id k
  have documents : (t.deleteSession id).documentsUnder k = if k = id then [] else t.documentsUnder k := by
    show (t.documents.filter (·.session ≠ id)).filter (·.session = k) = _
    rw [List.filter_filter]
    split
    case isTrue same =>
      refine List.filter_eq_nil_iff.mpr fun d _ held => ?_
      simp only [Bool.and_eq_true, decide_eq_true_eq] at held
      exact held.2 (held.1.trans same)
    case isFalse other =>
      refine List.filter_congr fun d _ => ?_
      by_cases own : d.session = k
      · simp only [own, decide_true, Bool.true_and, decide_eq_true_eq]
        exact other
      · simp only [own, decide_false, Bool.false_and]
  unfold view
  rw [documents, show (t.deleteSession id).sessions.find? k = _ from row]
  split <;> rfl

theorem documentsOf_session {header : Header} {events : List Event} : ∀ d ∈ documentsOf header events, d.session = header.id := by
  intro d member
  obtain ⟨e, -, made⟩ := List.mem_filterMap.mp member
  unfold document at made
  dsimp only at made
  split at made
  case isTrue => cases made
  case isFalse =>
    cases made
    rfl

theorem view_index (t : Tables) (source : SessionSource) (want : WantedRow) (k : SessionId) :
    (t.indexSession source want).view k =
      if k = source.header.id then (some (rowOf source.header want), t.documentsUnder k ++ documentsOf source.header source.events)
      else t.view k := by
  have row : (t.indexSession source want).sessions.find? k = _ :=
    SortedMap.find?_insert t.sessions source.header.id k (rowOf source.header want)
  have documents : (t.indexSession source want).documentsUnder k = t.documentsUnder k ++
      (documentsOf source.header source.events).filter (·.session = k) := List.filter_append _ _
  unfold view
  rw [row, documents]
  split
  case isTrue same =>
    rw [List.filter_eq_self.mpr fun d member => decide_eq_true ((documentsOf_session d member).trans same.symm)]
  case isFalse other =>
    rw [List.filter_eq_nil_iff.mpr fun d member held =>
      other ((of_decide_eq_true held).symm.trans (documentsOf_session d member)), List.append_nil]

theorem view_purge {desired : SortedMap SessionId WantedRow} (t : Tables × Bool) (id k : SessionId) :
    (purge desired t id).1.view k = if k = id then (if desired.contains id then t.1.view k else (none, [])) else t.1.view k := by
  unfold purge
  split
  case isTrue => exact (ite_self _).symm
  case isFalse => exact view_delete t.1 id k

/-- What a refresh makes of the view of its session. -/
def refreshed (source : SessionId → Bool → Option SessionSource) (indexed : SortedMap SessionId IndexedRow) (id : SessionId)
    (want : WantedRow) (v : Option IndexedRow × List DocumentRow) : Option IndexedRow × List DocumentRow :=
  if (indexed.find? id).any (unchanged want) then v
  else match source id want.live with
    | none => if indexed.contains id then (none, []) else v
    | some source => (some (rowOf source.header want), documentsOf source.header source.events)

theorem view_refresh {source : SessionId → Bool → Option SessionSource} {indexed : SortedMap SessionId IndexedRow}
    (named : ∀ id live s, source id live = some s → s.header.id = id) (t : Tables × Bool) (id : SessionId) (want : WantedRow)
    (k : SessionId) : (refresh source indexed t id want).1.view k =
      if k = id then refreshed source indexed id want (t.1.view k) else t.1.view k := by
  unfold refresh refreshed
  split
  case isTrue => exact (ite_self _).symm
  case isFalse =>
    cases found : source id want.live with
    | none =>
      dsimp only
      split
      case isTrue => exact view_delete t.1 id k
      case isFalse => exact (ite_self _).symm
    | some s =>
      have own : s.header.id = id := named id want.live s found
      have emptied := view_delete t.1 id k
      show ((t.1.deleteSession id).indexSession s want).view k = _
      rw [view_index, own]
      split
      case isTrue same =>
        rw [if_pos same] at emptied
        rw [show (t.1.deleteSession id).documentsUnder k = [] from congrArg Prod.snd emptied, List.nil_append]
      case isFalse other =>
        rw [if_neg other] at emptied
        exact emptied

/-- What a reconcile makes of one session. -/
theorem view_reconcile (desired : SortedMap SessionId WantedRow) {source : SessionId → Bool → Option SessionSource}
    (named : ∀ id live s, source id live = some s → s.header.id = id) (t : Tables) (k : SessionId) :
    (t.reconcile desired source).view k = (desired.find? k).elim
      (if t.sessions.contains k then (none, []) else t.view k) fun want => refreshed source t.sessions k want (t.view k) := by
  have purged := SortedMap.foldl_view (fun (t : Tables × Bool) k => t.1.view k)
    (fun t (e : SessionId × IndexedRow) => purge desired t e.1)
    (fun id _ v => if desired.contains id then v else (none, []))
    (fun t e k => view_purge t e.1 k) t.sessions (t, false) k
  have fresh := SortedMap.foldl_view (fun (t : Tables × Bool) k => t.1.view k)
    (fun u (e : SessionId × WantedRow) => refresh source t.sessions u e.1 e.2)
    (refreshed source t.sessions) (fun t e k => view_refresh named t e.1 e.2 k) desired
    (t.sessions.toList.foldl (fun t e => purge desired t e.1) (t, false)) k
  have counted : (t.reconcile desired source).view k = (desired.toList.foldl (fun u e => refresh source t.sessions u e.1 e.2)
      (t.sessions.toList.foldl (fun t e => purge desired t e.1) (t, false))).1.view k := by
    unfold reconcile
    dsimp only
    split <;> rfl
  rw [counted, fresh, purged]
  unfold SortedMap.contains
  cases wanted : desired.find? k <;> cases t.sessions.find? k <;> rfl

end Tables

/-! What is wanted -/

def wantedLive (backend : Option Backend) (id : SessionId) (s : Session) : WantedRow where
  revision := liveRevision s
  live := true
  persisted := (backend.bind (·.revision id)).isSome

def wantedStored (revision : String) : WantedRow where
  revision
  live := false
  persisted := true

theorem find_desired (st : SessionStore σ) (backend : Option Backend) (k : SessionId) : (desiredSessions st backend).find? k =
    (entered? st k).elim ((backend.bind (·.revision k)).map wantedStored) fun s => some (wantedLive backend k s) := by
  have live : (st.store.toList.foldl (fun desired e => wantLive st backend desired e.1) ∅).find? k =
      (entered? st k).map (wantedLive backend k) := by
    have folded := SortedMap.foldl_view (fun (desired : SortedMap SessionId WantedRow) k => desired.find? k)
      (fun desired (e : SessionId × Nat) => wantLive st backend desired e.1)
      (fun id _ v => (entered? st id).elim v fun s => some (wantedLive backend id s))
      (fun desired e k => by
        unfold wantLive
        cases entered? st e.1 with
        | none => exact (ite_self _).symm
        | some s => exact SortedMap.find?_insert ..) st.store ∅ k
    rw [folded]
    unfold entered?
    cases st.store.find? k with
    | none => rfl
    | some i =>
        rw [Option.elim_some, Option.bind_some]
        cases st.sessions[i]? <;> rfl
  unfold desiredSessions
  cases backend with
  | none =>
      refine live.trans ?_
      cases entered? st k <;> rfl
  | some b =>
      have folded := SortedMap.foldl_view (fun (desired : SortedMap SessionId WantedRow) k => desired.find? k)
        (fun desired (e : SessionId × Option StoredFile) => wantStored desired e.1 e.2)
        (fun _ file v => v.or (file.map fun file => wantedStored file.revision))
        (fun desired e k => by
          unfold wantStored SortedMap.contains
          by_cases same : k = e.1
          · subst same
            rw [if_pos rfl]
            cases known : desired.find? e.1 with
            | some want => exact known
            | none =>
                cases e.2 with
                | none => exact known
                | some file => exact (SortedMap.find?_insert ..).trans (if_pos rfl)
          · rw [if_neg same]
            split
            case isTrue => rfl
            case isFalse =>
              cases e.2 with
              | none => rfl
              | some file => exact (SortedMap.find?_insert ..).trans (if_neg same)) b.files
        (st.store.toList.foldl (fun desired e => wantLive st (some b) desired e.1) ∅) k
      dsimp only
      rw [folded, live]
      show _ = (entered? st k).elim ((((b.files.find? k).join).map (·.revision)).map wantedStored) _
      cases entered? st k <;> cases b.files.find? k with
      | none => rfl
      | some file => cases file <;> rfl

theorem visible_entered {s : Session} (known : entered? c.store.state id = some s) :
    c.visible id = some (liveSource c.backend id s) := by
  unfold IndexState.visible
  rw [known]

theorem visible_stored (known : entered? c.store.state id = none) :
    c.visible id = (c.backend.bind (·.read id)).map storedSource := by
  unfold IndexState.visible
  rw [known]

/-! Runs -/

/-- What a row was made from is still there, and its documents are those it had then. -/
def MadeFrom (c : IndexState σ) (id : SessionId) (row : IndexedRow) : Made → Prop
  | .object i => row.live = true ∧ ∃ (s : Session) (n g : Nat), c.store.state.sessions[i]? = some s ∧ s.id = id ∧ n ≤ s.log.length ∧
      row.revision = "live:" ++ toString n ++ ":" ++ toString g ∧
      c.tables.documentsUnder id = Tables.documentsOf s.header (s.log.take n)
  | .stored s => row.live = false ∧ c.tables.documentsUnder id = Tables.documentsOf s.header s.events

structure Tracked (c : IndexState σ) : Prop where
  entered : Entered c.store.state
  made : ∀ id row, c.tables.sessions.find? id = some row → ∃ own, c.made.find? id = some own ∧ MadeFrom c id row own
  rest : ∀ id, c.tables.sessions.find? id = none → c.tables.documentsUnder id = []

theorem Tracked.purged (tracked : Tracked c) (id : SessionId) :
    (if c.tables.sessions.contains id then (none, []) else c.tables.view id) = (none, []) := by
  unfold SortedMap.contains Tables.view
  cases found : c.tables.sessions.find? id with
  | some row => rfl
  | none => exact Prod.ext rfl (tracked.rest id found)

theorem unread_of_unrevised {backend : Option Backend} (h : backend.bind (·.revision id) = none) :
    backend.bind (·.read id) = none := by
  cases backend with
  | none => rfl
  | some b =>
      have missing : (b.files.find? id).join = none := Option.map_eq_none_iff.mp h
      show (b.files.find? id).join.bind (·.content) = none
      rw [missing]
      rfl

theorem source_named (entered : Entered c.store.state) (id : SessionId) (live : Bool) (s : SessionSource)
    (found : c.source id live = some s) : s.header.id = id := by
  have stored : ((c.backend.bind (·.read id)).map fun s =>
      ({ header := s.header, events := s.events, persisted := true } : SessionSource)) = some s → s.header.id = id := by
    intro found
    obtain ⟨own, read, made⟩ := Option.map_eq_some_iff.mp found
    cases made
    obtain ⟨b, -, read⟩ := Option.bind_eq_some_iff.mp read
    obtain ⟨file, listed, content⟩ := Option.bind_eq_some_iff.mp read
    exact b.named id file own (Option.join_eq_some_iff.mp listed) content
  unfold IndexState.source sourceOf at found
  dsimp only at found
  split at found
  case isTrue =>
    split at found
    case h_1 own known =>
      cases found
      obtain ⟨i, entry, object⟩ := Option.bind_eq_some_iff.mp known
      obtain ⟨own', object', named⟩ := entered id i entry
      cases object.symm.trans object'
      exact named
    case h_2 => exact stored found
  case isFalse => exact stored found

/-- A live row whose revision is that of an object it was made from holds the object's log. -/
theorem length_of_revision {s : Session} {n g : Nat} (same : liveRevision s = "live:" ++ toString n ++ ":" ++ toString g) :
    s.log.length = n := by
  unfold liveRevision at same
  have chars := congrArg String.toList same
  simp only [String.toList_append, List.append_assoc] at chars
  have chars := List.append_cancel_left chars
  exact decimal_before (by decide : Char.isDigit ':' = false) chars

/-- One session after a reconcile: it is visible and held, or neither. -/
def Settled (c : IndexState σ) (id : SessionId) : Prop :=
  (∃ source row own, c.visible id = some source ∧
    c.tables.view id = (some row, Tables.documentsOf source.header source.events) ∧ row.live = source.live ∧
    row.persisted = source.persisted ∧ c.made.find? id = some own ∧ MadeFrom c id row own) ∨
  (c.visible id = none ∧ c.tables.view id = (none, []))

theorem Settled.holds (settled : Settled c id) : (∀ source, c.visible id = some source → c.tables.Holds id source) ∧
    (c.visible id = none → c.tables.sessions.find? id = none ∧ c.tables.documentsUnder id = []) := by
  rcases settled with ⟨source, row, own, visible, view, live, persisted, -, -⟩ | ⟨visible, view⟩
  · refine ⟨fun source' visible' => ?_, fun gone => ?_⟩
    · cases visible.symm.trans visible'
      exact ⟨congrArg Prod.snd view, row, congrArg Prod.fst view, live, persisted⟩
    · cases visible.symm.trans gone
  · refine ⟨fun source' visible' => ?_, fun _ => ⟨congrArg Prod.fst view, congrArg Prod.snd view⟩⟩
    cases visible.symm.trans visible'

theorem tracked_of_settled (entered : Entered c.store.state) (settled : ∀ id, Settled c id) : Tracked c where
  entered := entered
  made := by
    intro id row found
    rcases settled id with ⟨source, row', own, -, view, -, -, made, from'⟩ | ⟨-, view⟩
    · cases found.symm.trans (congrArg Prod.fst view)
      exact ⟨own, made, from'⟩
    · cases found.symm.trans (congrArg Prod.fst view)
  rest := by
    intro id none
    rcases settled id with ⟨source, row', own, -, view, -⟩ | ⟨-, view⟩
    · cases none.symm.trans (congrArg Prod.fst view)
    · exact congrArg Prod.snd view

theorem find_remade (c : IndexState σ) (k : SessionId) :
    (c.desired.toList.foldl (fun made e => c.remake made e.1 e.2) c.made).find? k = (c.desired.find? k).elim (c.made.find? k)
      fun want => if (c.tables.sessions.find? k).any (Tables.unchanged want) then c.made.find? k
        else (c.origin k want.live).or (c.made.find? k) := by
  refine SortedMap.foldl_view (fun (made : SortedMap SessionId Made) k => made.find? k)
    (fun made (e : SessionId × WantedRow) => c.remake made e.1 e.2)
    (fun id want v => if (c.tables.sessions.find? id).any (Tables.unchanged want) then v else (c.origin id want.live).or v)
    (fun made e k => ?_) c.desired c.made k
  unfold IndexState.remake
  split
  case isTrue => exact (ite_self _).symm
  case isFalse =>
    cases c.origin e.1 e.2.live with
    | none => exact (ite_self _).symm
    | some own => exact SortedMap.find?_insert ..

/-- A session that is wanted and not left as it is. -/
theorem remade_settles {want : WantedRow} {source : SessionSource} {own : Made} {shown : SessionSource}
    (wanted : c.desired.find? id = some want) (changed : (c.tables.sessions.find? id).any (Tables.unchanged want) = false)
    (named : ∀ id live s, c.source id live = some s → s.header.id = id) (found : c.source id want.live = some source)
    (origin : c.origin id want.live = some own) (step : c.next .reconcile = some c') (visible : c'.visible id = some shown)
    (header : shown.header = source.header) (events : shown.events = source.events) (live : want.live = shown.live)
    (persisted : want.persisted = shown.persisted)
    (from' : c'.tables.documentsUnder id = Tables.documentsOf source.header source.events →
      MadeFrom c' id (Tables.rowOf source.header want) own) : Settled c' id := by
  cases step
  have view := Tables.view_reconcile c.desired named c.tables id
  rw [wanted, Option.elim_some, Tables.refreshed, changed, found] at view
  have made := find_remade c id
  rw [wanted, Option.elim_some, changed, origin, Option.some_or] at made
  refine .inl ⟨shown, Tables.rowOf source.header want, own, visible, ?_, live, persisted, made, from' (congrArg Prod.snd view)⟩
  rw [header, events]
  exact view

/-- A row that is left as it is. -/
theorem left_settles {want : WantedRow} {row : IndexedRow} (tracked : Tracked c) (wanted : c.desired.find? id = some want)
    (found : c.tables.sessions.find? id = some row) (same : Tables.unchanged want row = true)
    (recognised : c.made.find? id = c.origin id want.live ∧ row.persisted = want.persisted)
    (step : c.next .reconcile = some c') : Settled c' id := by
  cases step
  have kept : (c.tables.sessions.find? id).any (Tables.unchanged want) = true := by
    rw [found]
    exact same
  have view := Tables.view_reconcile c.desired (source_named tracked.entered) c.tables id
  rw [wanted, Option.elim_some, Tables.refreshed, if_pos kept] at view
  have made := find_remade c id
  rw [wanted, Option.elim_some, if_pos kept] at made
  have documents := congrArg Prod.snd view
  obtain ⟨own, origin, from'⟩ := tracked.made id row found
  obtain ⟨revision, live⟩ := Bool.and_eq_true_iff.mp same
  rw [beq_iff_eq] at revision live
  have persisted := recognised.2
  have origin' := recognised.1.symm.trans origin
  have desired := wanted.symm.trans (find_desired c.store.state c.backend id)
  have held (events : List Event) (header : Header) (h : c.tables.documentsUnder id = Tables.documentsOf header events) :
      c.tables.view id = (some row, Tables.documentsOf header events) := Prod.ext found h
  cases known : entered? c.store.state id with
  | some s =>
      rw [known, Option.elim_some] at desired
      cases desired
      obtain ⟨i, entry, object⟩ := Option.bind_eq_some_iff.mp known
      rw [IndexState.origin, entry] at origin'
      cases origin'
      obtain ⟨-, s', n, g, object', named, short, revision', documents'⟩ := from'
      cases object.symm.trans object'
      have length : s.log.length = n := length_of_revision (revision.symm.trans revision')
      rw [← length, List.take_length] at documents'
      refine .inl ⟨liveSource c.backend id s, row, .object i, visible_entered known, view.trans (held _ _ documents'), live,
        persisted, made.trans origin, live, s, n, g, object, named, short, revision', documents.trans ?_⟩
      rw [← length, List.take_length]
      exact documents'
  | none =>
      rw [known, Option.elim_none] at desired
      obtain ⟨r, -, stored⟩ := Option.map_eq_some_iff.mp desired.symm
      cases stored
      obtain ⟨s, read, made'⟩ := Option.map_eq_some_iff.mp origin'
      cases made'
      obtain ⟨dead, documents'⟩ := from'
      refine .inl ⟨storedSource s, row, .stored s, ?_, view.trans (held _ _ documents'), live, persisted, made.trans origin,
        dead, documents.trans documents'⟩
      refine (visible_stored known).trans ?_
      rw [read]
      rfl

theorem reconcile_settles (tracked : Tracked c) (recognised : Recognised c .reconcile) (step : c.next .reconcile = some c')
    (id : SessionId) : Settled c' id := by
  have named := source_named tracked.entered
  have desired := find_desired c.store.state c.backend id
  cases wanted : c.desired.find? id with
  | none =>
      cases step
      have view := Tables.view_reconcile c.desired named c.tables id
      rw [wanted, Option.elim_none] at view
      have missing := wanted.symm.trans desired
      cases known : entered? c.store.state id with
      | some s =>
          rw [known] at missing
          cases missing
      | none =>
          rw [known, Option.elim_none] at missing
          refine .inr ⟨(visible_stored known).trans ?_, view.trans ?_⟩
          · rw [unread_of_unrevised (Option.map_eq_none_iff.mp missing.symm)]
            rfl
          · exact tracked.purged id
  | some want =>
      cases kept : (c.tables.sessions.find? id).any (Tables.unchanged want) with
      | true =>
          obtain ⟨row, found, same⟩ := (Option.any_eq_true _ _).mp kept
          exact left_settles tracked wanted found same (recognised id want row wanted found same) step
      | false =>
          have want' := wanted.symm.trans desired
          cases known : entered? c.store.state id with
          | some s =>
              rw [known, Option.elim_some] at want'
              cases want'
              obtain ⟨i, entry, object⟩ := Option.bind_eq_some_iff.mp known
              obtain ⟨own, object', keyed⟩ := tracked.entered id i entry
              cases object.symm.trans object'
              have found : c.source id true = some { header := s.header, events := s.log, live := true } := by
                unfold IndexState.source sourceOf
                rw [known]
                rfl
              have origin : c.origin id true = some (.object i) := by
                unfold IndexState.origin
                rw [entry]
                rfl
              have visible : c'.visible id = some (liveSource c.backend id s) := by
                cases step
                exact visible_entered known
              refine remade_settles wanted kept named found origin step visible rfl rfl rfl rfl fun documents => ?_
              refine ⟨rfl, s, s.log.length, s.surface.generation, ?_, keyed, le_refl _, rfl, ?_⟩
              · cases step
                exact object
              · rw [List.take_length]
                exact documents
          | none =>
              rw [known, Option.elim_none] at want'
              obtain ⟨r, -, stored⟩ := Option.map_eq_some_iff.mp want'.symm
              cases stored
              cases read : c.backend.bind (·.read id) with
              | some s =>
                  have found : c.source id false = some (storedSource s) := by
                    unfold IndexState.source sourceOf
                    rw [read]
                    rfl
                  have origin : c.origin id false = some (.stored s) := by
                    unfold IndexState.origin
                    rw [read]
                    rfl
                  have visible : c'.visible id = some (storedSource s) := by
                    cases step
                    refine (visible_stored known).trans ?_
                    rw [read]
                    rfl
                  exact remade_settles wanted kept named found origin step visible rfl rfl rfl rfl fun documents =>
                    ⟨rfl, documents⟩
              | none =>
                  cases step
                  have view := Tables.view_reconcile c.desired named c.tables id
                  have unread : c.source id false = none := by
                    unfold IndexState.source sourceOf
                    rw [read]
                    rfl
                  rw [wanted, Option.elim_some, Tables.refreshed, kept,
                    show c.source id (wantedStored r).live = none from unread] at view
                  refine .inr ⟨(visible_stored known).trans ?_, view.trans (tracked.purged id)⟩
                  rw [read]
                  rfl

theorem MadeFrom.extend {row : IndexedRow} {own : Made} (made : MadeFrom c id row own) (tables : c'.tables = c.tables)
    (grown : Extends c.store.state c'.store.state) : MadeFrom c' id row own := by
  cases own with
  | object i =>
      obtain ⟨live, s, n, g, object, named, short, revision, documents⟩ := made
      obtain ⟨s', object', header, more⟩ := grown i s object
      refine ⟨live, s', n, g, object', (congrArg Header.id header).trans named, le_trans short more.length_le, revision, ?_⟩
      obtain ⟨tail, log⟩ := more
      rw [tables, header, ← log, List.take_append_of_le_length short]
      exact documents
  | stored s => exact ⟨made.1, tables ▸ made.2⟩

theorem Tracked.extend (tracked : Tracked c) (tables : c'.tables = c.tables) (made : c'.made = c.made)
    (grown : Extends c.store.state c'.store.state) (entered : Entered c'.store.state) : Tracked c' where
  entered := entered
  made := by
    intro id row found
    obtain ⟨own, known, from'⟩ := tracked.made id row (tables ▸ found)
    exact ⟨own, made ▸ known, from'.extend tables grown⟩
  rest := by
    intro id none
    rw [tables] at none ⊢
    exact tracked.rest id none

theorem Tracked.next (tracked : Tracked c) {op : IndexOp σ} (recognised : Recognised c op) (step : c.next op = some c') :
    Tracked c' := by
  cases op with
  | session label =>
      obtain ⟨store, moved, made⟩ := Option.map_eq_some_iff.mp step
      cases made
      obtain ⟨grown, kept⟩ := step_extends moved
      exact tracked.extend rfl rfl grown (kept tracked.entered)
  | backend b =>
      cases step
      exact tracked.extend rfl rfl (.of_eq rfl) tracked.entered
  | reconcile =>
      have settled := reconcile_settles tracked recognised step
      cases step
      exact tracked_of_settled tracked.entered settled

theorem tracked_reached (h : (indexSystem σ).Reached Recognised c) : Tracked c := by
  refine h.invariant ?_ fun c op c' _ tracked step recognised => tracked.next recognised step
  rintro ⟨⟨st, stack⟩, backend, tables, made⟩ ⟨start, -, -, rfl, rfl⟩
  refine ⟨fun id i found => ?_, fun id row found => (by cases found), fun id _ => rfl⟩
  rw [show st = { bus := st.bus } from start] at found
  cases found

/-- In a run whose reconciles recognise the rows they leave, every reconcile leaves the index with what the visible
sessions hold. -/
theorem reconcile_faithful (c c' : IndexState σ) (h : (indexSystem σ).Reached Recognised c)
    (recognised : Recognised c .reconcile) (step : c.next .reconcile = some c') : c'.Faithful :=
  fun id => (reconcile_settles (tracked_reached h) recognised step id).holds

end

/-- The check of `Recognised` for sessions that are entered. -/
def recognised? {σ : Type} (c : IndexState σ) : IndexOp σ → Bool
  | .reconcile => c.desired.toList.all fun e => (c.tables.sessions.find? e.1).all fun row =>
      !Tables.unchanged e.2 row || (e.2.live && row.persisted == e.2.persisted &&
        match c.made.find? e.1, c.store.state.store.find? e.1 with
        | some (.object i), some j => i == j
        | _, _ => false)
  | _ => true

theorem recognised_of_check {σ : Type} (c : IndexState σ) (op : IndexOp σ) (h : recognised? c op = true) : Recognised c op := by
  cases op with
  | reconcile =>
      intro id want row wanted found same
      have checked := List.all_eq_true.mp h (id, want) (SortedMap.mem_toList.mpr wanted)
      dsimp only at checked
      rw [found, Option.all_some, same, Bool.not_true, Bool.false_or, Bool.and_eq_true, Bool.and_eq_true] at checked
      obtain ⟨⟨live, persisted⟩, made⟩ := checked
      refine ⟨?_, eq_of_beq persisted⟩
      split at made
      case h_1 i j object entry =>
        unfold IndexState.origin
        rw [object, live, entry, eq_of_beq made]
        rfl
      case h_2 => cases made
  | _ => trivial

def saying (text : String) : Json :=
  .obj [("id", .str "m"), ("role", .str "user"), ("content", .arr [.obj [("type", .str "text"), ("text", .str text)]])]

/-- A message, a reconcile, another message and another reconcile. -/
theorem reconcile_faithful_grown : ∃ c' : IndexState Unit, (c'.tables.documents.map (·.text)) = ["first", "second"] ∧ c'.Faithful := by
  have played : (System.follow IndexState.next recognised? (⟨⟨{}, []⟩, none, {}, ∅⟩ : IndexState Unit)
      [.session (.op (.create "s" {} 0)), .session (.op (.append 0 "user/message" (saying "first") 1 none)), .session .run,
        .reconcile, .session (.op (.append 0 "user/message" (saying "second") 2 none)), .session .run]).any (fun c =>
        recognised? c .reconcile && (c.next .reconcile).any fun c' =>
          c'.tables.documents.map (·.text) == ["first", "second"]) = true := by decide +kernel
  obtain ⟨c, hc, shown⟩ := (Option.any_eq_true _ _).mp played
  obtain ⟨known, shown⟩ := Bool.and_eq_true_iff.mp shown
  obtain ⟨c', step, texts⟩ := (Option.any_eq_true _ _).mp shown
  have reached := System.follow_reached (S := indexSystem Unit) (P := Recognised) (fun _ _ _ h => h) recognised_of_check hc
    (.start ⟨rfl, rfl, rfl, rfl, rfl⟩)
  exact ⟨c', eq_of_beq texts, reconcile_faithful c c' reached (recognised_of_check c .reconcile known) step⟩

/-- A session that is disposed of and created again with another message of its own: the index keeps the old one. -/
theorem index_keeps_disposed : ¬ ∀ c c' : IndexState Unit, (indexSystem Unit).Reached (fun _ _ => True) c →
    c.next .reconcile = some c' → c'.Faithful := by
  intro faithful
  have played : (System.follow IndexState.next (fun _ _ => true) (⟨⟨{}, []⟩, none, {}, ∅⟩ : IndexState Unit)
      [.session (.op (.create "s" {} 0)), .session (.op (.append 0 "user/message" (saying "first") 1 none)), .session .run,
        .reconcile, .session (.op (.dispose "s")), .session (.op (.create "s" {} 2)),
        .session (.op (.append 1 "user/message" (saying "second") 3 none)), .session .run]).any (fun c =>
        (c.next .reconcile).any fun c' => (entered? c'.store.state "s").any fun s => decide (
          (c'.tables.documentsUnder "s").map (·.text) = ["first"] ∧
          (Tables.documentsOf s.header s.log).map (·.text) = ["second"])) = true := by decide +kernel
  obtain ⟨c, hc, shown⟩ := (Option.any_eq_true _ _).mp played
  obtain ⟨c', step, shown⟩ := (Option.any_eq_true _ _).mp shown
  obtain ⟨s, known, shown⟩ := (Option.any_eq_true _ _).mp shown
  obtain ⟨old, new⟩ := of_decide_eq_true shown
  have reached := System.follow_reached (S := indexSystem Unit) (P := fun _ _ => True) (fun _ _ _ h => h)
    (fun _ _ _ => trivial) hc (.start ⟨rfl, rfl, rfl, rfl, rfl⟩)
  obtain ⟨documents, -⟩ := (faithful c c' reached step "s").1 _ (visible_entered known)
  rw [documents] at old
  exact absurd (old.symm.trans new) (by decide)

end Araya.Query
