import Araya.Session.Appends

/-!
The firehose of a store: the notices it dispatches, in order, beside the events
its sessions take. In the runs whose appends are clean and reach an identity
through the session entered under it, the notices of an identity since it was
last disposed are the events its session took, numbered as its log goes on.
-/

namespace Araya.Sessions

section
variable {σ : Type}
open SessionStore

/-! What a call other than an append does -/

/-- The identity and the options that a call opens a session with. -/
inductive Opening (st : SessionStore σ) : SessionOp σ → SessionId → CreateOptions → Int → Prop
  | create {id : SessionId} {options : CreateOptions} {now : Int} :
      Opening st (.create id options now) id options now
  | fork {parent child : SessionId} {cut : Option Nat} {now : Int} {h : Nat} {source : Session}
      (entered : st.store.find? parent = some h) (object : st.sessions[h]? = some source) :
      Opening st (.fork parent child cut now) child
        (forkOptions source (cut.getD source.log.length)) now

theorem prepared_spec {st : SessionStore σ} {id : SessionId} {options : CreateOptions} {now : Int}
    {s : Session} (h : st.prepared id options now = .ok s) :
    st.store.contains id = false ∧ s.header = newHeader id options now ∧
      s.log = openingLog now options
        (options.seed.map fun ev => { ev with ignorable := st.ignorable ev.type }) := by
  unfold prepared at h
  obtain ⟨_, _, h⟩ := except_bind h
  obtain ⟨_, hnew, h⟩ := except_bind h
  obtain ⟨seed, hseed, h⟩ := except_bind h
  obtain ⟨surface, _, h⟩ := except_bind h
  cases h
  have new := of_ensure hnew
  simp only [Bool.not_eq_true'] at new
  exact ⟨new, rfl, by rw [(checkSeed_eq hseed).1]⟩

theorem append_online (st : SessionStore σ) (h : Nat) (s : Session) (type : String) (data : Json)
    (now : Int) (refuses : Option String) :
    (st.append h s type data now refuses).store.alive = st.alive ∧
      (st.append h s type data now refuses).store.bus = st.bus := by
  unfold append
  simp only
  split
  · unfold publish
    split
    · exact ⟨rfl, rfl⟩
    · simp only
      split
      · exact ⟨rfl, rfl⟩
      · split
        · next hv => rw [(visitCells_rest hv).1]; exact ⟨rfl, rfl⟩
        · next hv =>
            rw [(visitCells_rest hv).1]
            split
            · split <;> exact ⟨rfl, rfl⟩
            · exact ⟨rfl, rfl⟩
  · exact ⟨rfl, rfl⟩

inductive Effect (st : SessionStore σ) (o : SessionOp σ) (d : Done σ) : Prop
  | same (sessions : d.store.sessions = st.sessions) (entries : d.store.store = st.store)
      (notices : d.notices = [] ∨ ∃ id, d.notices = [.flush id])
  | added (s : Session) (op : ∃ id options now, o = .prepare id options now)
      (sessions : d.store.sessions = st.sessions ++ [s]) (entries : d.store.store = st.store)
      (notices : d.notices = [])
  | entered (h : Nat) (s : Session) (op : o = .enter h) (object : st.sessions[h]? = some s)
      (new : st.store.contains s.id = false) (sessions : d.store.sessions = st.sessions)
      (entries : d.store.store = st.store.insert s.id h) (notices : d.notices = [])
  | announced (i h : Nat) (s e : Session) (op : o = .announce i) (object : st.sessions[i]? = some s)
      (entry : st.store.find? s.id = some h) (found : st.sessions[h]? = some e)
      (sessions : d.store.sessions = st.sessions) (entries : d.store.store = st.store)
      (notices : d.notices = [.created e.header])
  | opened (id : SessionId) (options : CreateOptions) (now : Int) (s : Session)
      (op : Opening st o id options now) (prepared : st.prepared id options now = .ok s)
      (sessions : d.store.sessions = st.sessions ++ [s])
      (entries : d.store.store = st.store.insert id st.sessions.length)
      (notices : d.notices = [] ∨ d.notices = [.created s.header])
  | disposed (id : SessionId) (op : o = .dispose id) (sessions : d.store.sessions = st.sessions)
      (entries : d.store.store = st.store.erase id) (notices : d.notices = [.disposed id])

/-- A call of a store that stays up leaves its bus alone and no frame. -/
structure Calm (st : SessionStore σ) (o : SessionOp σ) (d : Done σ) : Prop where
  online : d.store.alive = st.alive ∧ d.store.bus = st.bus
  frames : d.frames = []
  effect : Effect st o d

theorem announce_calm {st : SessionStore σ} {i : Nat} {s : Session} (hbus : st.bus = true)
    (object : st.sessions[i]? = some s) : Calm st (.announce i) (st.announce s) := by
  unfold announce
  split
  · exact ⟨⟨rfl, rfl⟩, rfl, .same rfl rfl (.inl rfl)⟩
  · next e he =>
      obtain ⟨h, hh, he⟩ := Option.bind_eq_some_iff.mp he
      split
      · next hv =>
          rw [(visitCells_rest hv).1]
          exact ⟨⟨rfl, rfl⟩, rfl, .same rfl rfl (.inl rfl)⟩
      · next hv =>
          rw [(visitCells_rest hv).1]
          simp only [hbus, if_true]
          exact ⟨⟨rfl, hbus.symm⟩, rfl, .announced i h s e rfl object hh he rfl rfl rfl⟩

theorem create_calm {st : SessionStore σ} {o : SessionOp σ} {id : SessionId} {options : CreateOptions}
    {now : Int} (hbus : st.bus = true) (op : Opening st o id options now) :
    Calm st o (st.create id options now) := by
  cases hs : st.prepared id options now with
  | error what =>
      unfold create
      simp only [hs]
      exact ⟨⟨rfl, rfl⟩, rfl, .same rfl rfl (.inl rfl)⟩
  | ok s =>
      obtain ⟨hid, new, heq⟩ := create_eq hs
      have announced := @announce_calm _
        { st.addSession s with store := st.store.insert id st.sessions.length } st.sessions.length s hbus
        (by simp [addSession])
      rw [heq]
      refine ⟨announced.online, announced.frames, ?_⟩
      cases announced.effect with
      | same sessions entries notices =>
          refine .opened id options now s op hs sessions entries ?_
          rcases notices with none | ⟨id', flushed⟩
          · exact .inl none
          · refine absurd flushed ?_
            unfold announce
            split
            · simp
            · split
              · simp
              · split <;> simp
      | announced i h s' e op' object entry found sessions entries notices =>
          refine .opened id options now s op hs sessions entries (.inr ?_)
          cases op'
          obtain rfl : s = s' := by simpa [addSession] using object
          obtain rfl : st.sessions.length = h := by simpa [hid] using entry
          obtain rfl : s = e := by simpa [addSession] using found
          exact notices
      | added _ op' | entered _ _ op' | disposed _ op' => simp at op'
      | opened _ _ _ _ op' => cases op'

theorem run_calm {st : SessionStore σ} {o : SessionOp σ} {d : Done σ} (hx : st.run o = some d)
    (hbus : st.bus = true) (expire : o ≠ .expire)
    (notAppend : ∀ h type data now refuses, o ≠ .append h type data now refuses) : Calm st o d := by
  cases o with
  | append h type data now refuses => exact absurd rfl (notAppend h type data now refuses)
  | create id options now =>
      obtain rfl := of_alive hx
      exact create_calm hbus .create
  | prepare id options now =>
      obtain rfl := of_alive hx
      unfold SessionStore.prepare
      split
      · exact ⟨⟨rfl, rfl⟩, rfl, .same rfl rfl (.inl rfl)⟩
      · next s hs => exact ⟨⟨rfl, rfl⟩, rfl, .added s ⟨id, options, now, rfl⟩ rfl rfl rfl⟩
  | enter h =>
      obtain ⟨_, hx⟩ := Option.ite_none_right_eq_some.mp hx
      obtain ⟨s, hs, rfl⟩ := Option.map_eq_some_iff.mp hx
      unfold enter
      split
      · exact ⟨⟨rfl, rfl⟩, rfl, .same rfl rfl (.inl rfl)⟩
      · next new => exact ⟨⟨rfl, rfl⟩, rfl, .entered h s rfl hs (by simpa using new) rfl rfl rfl⟩
  | announce h =>
      obtain ⟨_, hx⟩ := Option.ite_none_right_eq_some.mp hx
      obtain ⟨s, hs, rfl⟩ := Option.map_eq_some_iff.mp hx
      exact announce_calm hbus hs
  | fork parent child cut now =>
      obtain rfl := of_alive hx
      unfold fork
      split
      · exact ⟨⟨rfl, rfl⟩, rfl, .same rfl rfl (.inl rfl)⟩
      · next source hs =>
          obtain ⟨h, hh, hs⟩ := Option.bind_eq_some_iff.mp hs
          simp only
          split
          · exact ⟨⟨rfl, rfl⟩, rfl, .same rfl rfl (.inl rfl)⟩
          · exact create_calm hbus (.fork hh hs)
  | dispose id =>
      obtain rfl := of_alive hx
      unfold dispose
      split
      · exact ⟨⟨rfl, rfl⟩, rfl, .disposed id rfl rfl rfl rfl⟩
      · exact ⟨⟨rfl, rfl⟩, rfl, .same rfl rfl (.inl rfl)⟩
  | expire => exact absurd rfl expire
  | flush id =>
      obtain rfl := of_alive hx
      unfold flush
      split
      · exact ⟨⟨rfl, rfl⟩, rfl, .same rfl rfl (.inr ⟨id, rfl⟩)⟩
      · exact ⟨⟨rfl, rfl⟩, rfl, .same rfl rfl (.inl rfl)⟩
  | registerMessageProjection p =>
      obtain rfl := of_alive hx
      unfold registerMessageProjection
      split <;> exact ⟨⟨rfl, rfl⟩, rfl, .same rfl rfl (.inl rfl)⟩
  | registerProjection spec =>
      obtain rfl := of_alive hx
      exact ⟨⟨rfl, rfl⟩, rfl, .same rfl rfl (.inl rfl)⟩
  | dropMessageProjection type | dropProjection pid =>
      cases hx
      exact ⟨⟨rfl, rfl⟩, rfl, .same rfl rfl (.inl rfl)⟩

/-! Observed runs -/

/-- The store with a record of what its calls dispatched and took. -/
structure Observed (σ : Type) where
  store : SessionStore σ
  dispatched : List Notice := []
  taken : List SessionFrame := []

def observedMachine (σ : Type) : StackMachine (Observed σ) SessionFrame (SessionOp σ) where
  start o := o = { store := {} }
  exec f o := .call { o with store := o.store.commit f } []
  op i o := (o.store.run i).map fun d =>
    ({ store := d.store, dispatched := o.dispatched ++ d.notices, taken := o.taken ++ d.frames },
      d.frames)
  nested _ := true

abbrev ObservedConfig (σ : Type) := Config (Observed σ) SessionFrame

def unobserved (c : ObservedConfig σ) : SessionConfig σ := ⟨c.state.store, c.stack⟩

/-- What an observed step does: the last event enters its log, or the store is called. -/
theorem observed_cases {c c' : ObservedConfig σ} {a : Label (SessionOp σ)}
    (h : (observedMachine σ).next c a = some c') :
    (∃ f rest, a = .run ∧ c.stack = f :: rest ∧
      c' = ⟨{ c.state with store := c.state.store.commit f }, rest⟩) ∨
    (∃ o d, a = .op o ∧ c.state.store.run o = some d ∧
      c' = ⟨{ store := d.store, dispatched := c.state.dispatched ++ d.notices,
              taken := c.state.taken ++ d.frames }, d.frames ++ c.stack⟩) := by
  rcases StackMachine.next_cases h with ⟨f, rest, s', fs, ha, hst, hx, rfl⟩ |
    ⟨f, rest, s', ha, hst, hx, rfl⟩ | ⟨o, s', fs, ha, _, hx, rfl⟩
  · cases hx
    exact .inl ⟨f, rest, ha, hst, rfl⟩
  · cases hx
  · obtain ⟨d, hrun, hd⟩ := Option.map_eq_some_iff.mp hx
    cases hd
    exact .inr ⟨o, d, ha, hrun, rfl⟩

theorem unobserved_step {c c' : ObservedConfig σ} {a : Label (SessionOp σ)}
    (h : (observedMachine σ).next c a = some c') :
    (sessionMachine σ).next (unobserved c) a = some (unobserved c') := by
  rcases observed_cases h with ⟨f, rest, rfl, hst, rfl⟩ | ⟨o, d, rfl, hrun, rfl⟩
  · simp [unobserved, StackMachine.next, hst, sessionMachine]
  · simp [unobserved, StackMachine.next, sessionMachine, hrun]

/-! The notices of an identity -/

def Notice.heard (id : SessionId) (acc : List Event) : Notice → List Event
  | .appended id' ev => if id' = id then acc ++ [ev] else acc
  | .disposed id' => if id' = id then [] else acc
  | _ => acc

/-- The appended events of an identity since it was last disposed. -/
def firehose (id : SessionId) (notices : List Notice) : List Event :=
  notices.foldl (Notice.heard id) []

theorem firehose_concat (id : SessionId) (notices : List Notice) (n : Notice) :
    firehose id (notices ++ [n]) = n.heard id (firehose id notices) := by
  simp [firehose]

/-- The events that a session took, in order. -/
def takenBy (h : Nat) (frames : List SessionFrame) : List Event := pending h frames

theorem takenBy_append (h : Nat) (a b : List SessionFrame) :
    takenBy h (a ++ b) = takenBy h a ++ takenBy h b := List.filterMap_append

/-- Appends are clean and reach an entered identity through its session. The
sessions are created or forked, and leave by disposal. -/
def Orderly (c : ObservedConfig σ) (a : Label (SessionOp σ)) : Prop :=
  Clean (unobserved c) a ∧
    match a with
    | .op (.append h _ _ _ _) => ∀ s, c.state.store.sessions[h]? = some s →
        ∀ h', c.state.store.store.find? s.id = some h' → h' = h
    | .op (.prepare _ _ _) | .op (.enter _) | .op (.announce _) | .op .expire => False
    | _ => True

structure Heard (c : ObservedConfig σ) : Prop where
  online : c.state.store.alive = true ∧ c.state.store.bus = true
  unknown : ∀ h, c.state.store.sessions.length ≤ h → takenBy h c.state.taken = []
  entered : ∀ id h, c.state.store.store.find? id = some h →
    ∃ s, c.state.store.sessions[h]? = some s ∧ s.id = id ∧
      firehose id c.state.dispatched = takenBy h c.state.taken
  silent : ∀ id, c.state.store.store.find? id = none → firehose id c.state.dispatched = []
  suffix : ∀ h s, c.state.store.sessions[h]? = some s →
    takenBy h c.state.taken <:+ s.log ++ pending h c.stack

theorem commit_heard {o : Observed σ} {f : SessionFrame} {rest : List SessionFrame}
    (inv : Heard ⟨o, f :: rest⟩) : Heard ⟨{ o with store := o.store.commit f }, rest⟩ := by
  obtain ⟨h, ev⟩ := f
  obtain ⟨entries, online⟩ := commit_entries o.store (.commit h ev)
  refine ⟨?_, ?_, ?_, ?_, ?_⟩
  · simp only [online]
    exact inv.online
  · intro i hi
    simp only [commit_length] at hi
    exact inv.unknown i hi
  · intro id i hi
    simp only [entries] at hi
    obtain ⟨b, hb, hid, heq⟩ := inv.entered id i hi
    obtain ⟨hlt, _⟩ := List.getElem?_eq_some_iff.mp hb
    have ha := List.getElem?_eq_getElem (l := (o.store.commit (.commit h ev)).sessions) (i := i)
      (by rw [commit_length]; exact hlt)
    obtain ⟨b', hb', header, _⟩ := commit_session rest ha
    obtain rfl : b = b' := Option.some.inj (hb.symm.trans hb')
    exact ⟨_, ha, by rw [Session.id, header]; exact hid, heq⟩
  · intro id hi
    simp only [entries] at hi
    exact inv.silent id hi
  · intro i a ha
    obtain ⟨b, hb, _, _, _, heq⟩ := commit_session rest ha
    simp only [heq]
    exact inv.suffix i b hb

theorem append_heard {c : ObservedConfig σ} (inv : Heard c) {h : Nat} {s : Session} {type : String}
    {data : Json} {now : Int} {refuses : Option String} (hs : c.state.store.sessions[h]? = some s)
    (accepts : c.state.store.Accepts s type data now refuses)
    (through : ∀ h', c.state.store.store.find? s.id = some h' → h' = h)
    (alone : pending h c.stack = []) {d : Done σ}
    (hd : c.state.store.append h s type data now refuses = d) :
    Heard ⟨{ store := d.store, dispatched := c.state.dispatched ++ d.notices,
             taken := c.state.taken ++ d.frames }, d.frames ++ c.stack⟩ := by
  subst hd
  have spec := append_appended c.state.store h s type data now refuses
  have taken := spec.accepted (append_threw_iff.mpr accepts)
  have online := append_online c.state.store h s type data now refuses
  obtain ⟨s', hsessions, hlog, _, header⟩ := spec.sessions
  obtain ⟨frames, notices⟩ := taken
  generalize c.state.store.logged s type data now = ev at frames notices
  generalize c.state.store.append h s type data now refuses = d at *
  simp only [inv.online.1, inv.online.2, Bool.true_and] at notices
  obtain ⟨hlt, _⟩ := List.getElem?_eq_some_iff.mp hs
  have own : takenBy h d.frames = [ev] := by simp [frames, takenBy, pending]
  have other : ∀ i, i ≠ h → takenBy i d.frames = [] := fun i hi => by
    simp [frames, takenBy, pending, Ne.symm hi]
  refine ⟨?_, ?_, ?_, ?_, ?_⟩
  · simp only [online.1, spec.entered.2]
    exact inv.online
  · intro i hi
    simp only [hsessions, List.length_set] at hi
    simp only [takenBy_append, inv.unknown i hi, other i (by omega), List.append_nil]
  · intro id i hi
    simp only [spec.entered.1] at hi
    obtain ⟨b, hb, hid, heq⟩ := inv.entered id i hi
    by_cases hi' : i = h
    · subst hi'
      obtain rfl : b = s := Option.some.inj (hb.symm.trans hs)
      have entered : c.state.store.store.contains b.id = true := by
        rw [hid, SortedMap.contains, hi]
        rfl
      refine ⟨s', by simp only [hsessions]; exact List.getElem?_set_self hlt, ?_, ?_⟩
      · rw [Session.id, header]; exact hid
      · simp only [notices, entered, if_true, takenBy_append, own, ← heq, firehose_concat,
          Notice.heard, if_pos hid]
    · have hne : s.id ≠ id := by
        rintro rfl
        exact hi' (through i hi)
      refine ⟨b, by simp only [hsessions]; rw [List.getElem?_set_ne (Ne.symm hi')]; exact hb, hid, ?_⟩
      simp only [takenBy_append, other i hi', List.append_nil, ← heq, notices]
      split
      · rw [firehose_concat, Notice.heard, if_neg hne]
      · rw [List.append_nil]
  · intro id hi
    simp only [spec.entered.1] at hi
    have hsilent := inv.silent id hi
    simp only [notices]
    split
    · next entered =>
        have hne : s.id ≠ id := by
          rintro rfl
          simp [SortedMap.contains, hi] at entered
        rw [firehose_concat, Notice.heard, if_neg hne]
        exact hsilent
    · rw [List.append_nil]; exact hsilent
  · intro i a ha
    simp only [hsessions] at ha
    simp only [takenBy_append, frames]
    by_cases hi : i = h
    · subst hi
      rw [List.getElem?_set_self hlt, Option.some.injEq] at ha
      subst ha
      have tail := inv.suffix i s hs
      rw [alone, List.append_nil] at tail
      have pend : pending i ([SessionFrame.commit i ev] ++ c.stack) = [ev] := by
        simp only [pending, List.filterMap_append] at alone ⊢
        simp [alone]
      obtain ⟨opening, heq⟩ := tail
      have last : takenBy i [.commit i ev] = [ev] := by simp [takenBy, pending]
      exact ⟨opening, by rw [pend, hlog, last, ← heq, List.append_assoc]⟩
    · rw [List.getElem?_set_ne (Ne.symm hi)] at ha
      have tail := inv.suffix i a ha
      simpa [takenBy, pending, Ne.symm hi] using tail

theorem calm_heard {c : ObservedConfig σ} (inv : Heard c) {o : SessionOp σ} {d : Done σ}
    (calm : Calm c.state.store o d) (orderly : Orderly c (.op o)) :
    Heard ⟨{ store := d.store, dispatched := c.state.dispatched ++ d.notices,
             taken := c.state.taken ++ d.frames }, d.frames ++ c.stack⟩ := by
  obtain ⟨online, frames, effect⟩ := calm
  have online' : d.store.alive = true ∧ d.store.bus = true := by
    rw [online.1, online.2]
    exact inv.online
  rw [frames]
  simp only [List.append_nil, List.nil_append]
  cases effect with
  | same sessions entries notices =>
      have heard : ∀ id, firehose id (c.state.dispatched ++ d.notices) =
          firehose id c.state.dispatched := by
        intro id
        rcases notices with hn | ⟨id', hn⟩
        · rw [hn, List.append_nil]
        · rw [hn, firehose_concat]
          rfl
      refine ⟨online', ?_, ?_, ?_, ?_⟩
      · simpa only [sessions] using inv.unknown
      · simpa only [sessions, entries, heard] using inv.entered
      · simpa only [entries, heard] using inv.silent
      · simpa only [sessions] using inv.suffix
  | added _ op =>
      obtain ⟨_, _, _, rfl⟩ := op
      exact orderly.2.elim
  | entered _ _ op | announced _ _ _ _ op =>
      subst op
      exact orderly.2.elim
  | opened id options now s op prepared sessions entries notices =>
      obtain ⟨new, header, _⟩ := prepared_spec prepared
      have absent : c.state.store.store.find? id = none := by
        simpa [SortedMap.contains] using new
      have heard : ∀ id', firehose id' (c.state.dispatched ++ d.notices) =
          firehose id' c.state.dispatched := by
        intro id'
        rcases notices with hn | hn
        · rw [hn, List.append_nil]
        · rw [hn, firehose_concat]
          rfl
      have untaken := inv.unknown _ (Nat.le_refl _)
      refine ⟨online', ?_, ?_, ?_, ?_⟩
      · intro i hi
        simp only [sessions, List.length_append, List.length_singleton] at hi
        exact inv.unknown i (by omega)
      · intro id' i hi
        simp only [entries, SortedMap.find?_insert] at hi
        simp only [sessions, heard]
        split at hi
        · next heq =>
            obtain rfl := Option.some.inj hi
            refine ⟨s, by simp, by rw [Session.id, header, heq]; rfl, ?_⟩
            rw [heq, inv.silent id absent, untaken]
        · obtain ⟨b, hb, hid, heq⟩ := inv.entered id' i hi
          obtain ⟨hlt, _⟩ := List.getElem?_eq_some_iff.mp hb
          exact ⟨b, by rw [List.getElem?_append_left hlt]; exact hb, hid, heq⟩
      · intro id' hi
        simp only [entries, SortedMap.find?_insert] at hi
        split at hi
        · cases hi
        · rw [heard]
          exact inv.silent id' hi
      · intro i a ha
        simp only [sessions] at ha
        rcases Nat.lt_trichotomy i c.state.store.sessions.length with hi | hi | hi
        · rw [List.getElem?_append_left hi] at ha
          exact inv.suffix i a ha
        · subst hi
          simp only [untaken]
          exact List.nil_suffix
        · rw [List.getElem?_eq_none (by simp; omega)] at ha
          cases ha
  | disposed id op sessions entries notices =>
      refine ⟨online', ?_, ?_, ?_, ?_⟩
      · simpa only [sessions] using inv.unknown
      · intro id' i hi
        simp only [entries, SortedMap.find?_erase] at hi
        split at hi
        · cases hi
        · next hne =>
            obtain ⟨b, hb, hid, heq⟩ := inv.entered id' i hi
            refine ⟨b, by simpa only [sessions] using hb, hid, ?_⟩
            simp only [notices, firehose_concat, Notice.heard, if_neg (Ne.symm hne), heq]
      · intro id' hi
        simp only [entries, SortedMap.find?_erase] at hi
        simp only [notices, firehose_concat, Notice.heard]
        split
        · rfl
        · next hne =>
            rw [if_neg (Ne.symm hne)] at hi
            exact inv.silent id' hi
      · simpa only [sessions] using inv.suffix

theorem orderly_reached {c : ObservedConfig σ} (h : (observedMachine σ).system.Reached Orderly c) :
    (sessionMachine σ).system.Reached Clean (unobserved c) := by
  refine h.project unobserved ?_ fun c a c' step orderly =>
    .inr ⟨a, unobserved_step step, orderly.1⟩
  rintro ⟨o, stack⟩ ⟨ho, hstack⟩
  simp only at ho hstack
  rw [ho, hstack]
  exact ⟨rfl, rfl⟩

theorem step_heard {c c' : ObservedConfig σ} {a : Label (SessionOp σ)} (inv : Heard c)
    (hs : (observedMachine σ).next c a = some c') (orderly : Orderly c a) : Heard c' := by
  rcases observed_cases hs with ⟨f, rest, rfl, hst, rfl⟩ | ⟨o, d, rfl, hrun, rfl⟩
  · obtain ⟨o, stack⟩ := c
    subst hst
    exact commit_heard inv
  · by_cases happ : ∃ h type data now refuses, o = .append h type data now refuses
    · obtain ⟨h, type, data, now, refuses, rfl⟩ := happ
      obtain ⟨s, hget, hd⟩ := Option.map_eq_some_iff.mp hrun
      obtain ⟨⟨alone, accepts⟩, through⟩ := orderly
      exact append_heard inv hget (accepts s hget).2 (through s hget) alone hd
    · refine calm_heard inv (run_calm hrun inv.online.2 ?_ ?_) orderly
      · rintro rfl
        exact orderly.2
      · exact fun h type data now refuses heq => happ ⟨h, type, data, now, refuses, heq⟩

theorem heard_reached {c : ObservedConfig σ} (h : (observedMachine σ).system.Reached Orderly c) :
    Heard c := by
  refine h.invariant ?_ fun _ _ _ _ inv step orderly => step_heard inv step orderly
  rintro ⟨o, stack⟩ ⟨ho, hstack⟩
  simp only at ho hstack
  rw [ho, hstack]
  exact ⟨⟨rfl, rfl⟩, fun _ _ => rfl, fun id h hf => (by cases hf), fun _ _ => rfl,
    fun h s hs => (by simp at hs)⟩

/-- The log of a live session is numbered by position, and its identity was
announced exactly what the session took, each event once and in order. -/
structure InOrder (c : ObservedConfig σ) (id : SessionId) (h : Nat) (s : Session) : Prop where
  numbered : ∀ (i : Nat) (ev : Event), s.log[i]? = some ev → ev.seq = i
  heard : firehose id c.state.dispatched = takenBy h c.state.taken
  logged : takenBy h c.state.taken <:+ s.log ++ pending h c.stack
  rising : ((firehose id c.state.dispatched).map (·.seq)).Pairwise (· < ·)

theorem Canonical.rising {log : List Event} (h : Canonical log) :
    (log.map (·.seq)).Pairwise (· < ·) := by
  rw [List.pairwise_map, List.pairwise_iff_getElem]
  intro i j hi hj hij
  rw [(h i _ (List.getElem?_eq_getElem hi)).1, (h j _ (List.getElem?_eq_getElem hj)).1]
  exact hij

theorem firehose_in_order {c : ObservedConfig σ} (h : (observedMachine σ).system.Reached Orderly c)
    {id : SessionId} {i : Nat} {s : Session} (entered : c.state.store.store.find? id = some i)
    (object : c.state.store.sessions[i]? = some s) : InOrder c id i s := by
  have canonical := (aligned_reached (orderly_reached h)).canonical i s object
  have inv := heard_reached h
  obtain ⟨_, _, _, heard⟩ := inv.entered id i entered
  have suffix := inv.suffix i s object
  refine ⟨fun j ev hev => (canonical.left j ev hev).1, heard, suffix, ?_⟩
  rw [heard]
  exact canonical.rising.sublist (suffix.sublist.map _)

/-! Two schedules -/

def orderly? (c : ObservedConfig σ) (a : Label (SessionOp σ)) : Bool :=
  clean? (unobserved c) a &&
    match a with
    | .op (.append h _ _ _ _) => (c.state.store.sessions[h]?).all fun s =>
        (c.state.store.store.find? s.id).all (· == h)
    | .op (.prepare _ _ _) | .op (.enter _) | .op (.announce _) | .op .expire => false
    | _ => true

theorem orderly_of_check (c : ObservedConfig σ) (a : Label (SessionOp σ)) (h : orderly? c a = true) :
    Orderly c a := by
  obtain ⟨clean, h⟩ := Bool.and_eq_true_iff.mp h
  refine ⟨clean_of_check _ _ clean, ?_⟩
  cases a with
  | run => trivial
  | op o =>
      cases o with
      | append i type data now refuses =>
          intro s hs h' hh
          simp only [Option.all_eq_true, beq_iff_eq] at h
          exact h s hs h' hh
      | prepare _ _ _ | enter _ | announce _ | expire => cases h
      | _ => trivial

/-- Creations, appends and disposals, in any order and nesting. -/
def Routine (_ : ObservedConfig σ) : Label (SessionOp σ) → Prop
  | .op (.create _ _ _) | .op (.append _ _ _ _ _) | .op (.dispose _) | .run => True
  | _ => False

def routine? (_ : ObservedConfig σ) : Label (SessionOp σ) → Bool
  | .op (.create _ _ _) | .op (.append _ _ _ _ _) | .op (.dispose _) | .run => true
  | _ => false

theorem routine_of_check (c : ObservedConfig σ) (a : Label (SessionOp σ)) (h : routine? c a = true) :
    Routine c a := by
  unfold routine? at h
  split at h
  · trivial
  · trivial
  · trivial
  · trivial
  · cases h

end

/-- A session disposed and created again under its identity. -/
theorem firehose_in_order_again : ∃ (c : ObservedConfig Unit) (s : Session),
    (firehose "s" c.state.dispatched).map (·.seq) = [0, 1] ∧ InOrder c "s" 1 s := by
  have played : (System.follow (observedMachine Unit).next orderly? ⟨{ store := {} }, []⟩
      [.op (.create "s" {} 0), .op (.append 0 "user/message" (userMessage "m1") 1 none), .run,
        .op (.dispose "s"), .op (.append 0 "user/message" (userMessage "m2") 2 none), .run,
        .op (.create "s" {} 3), .op (.append 1 "user/message" (userMessage "m3") 4 none), .run,
        .op (.append 1 "user/message" (userMessage "m4") 5 none), .run]).any (fun c =>
        decide ((firehose "s" c.state.dispatched).map (·.seq) = [0, 1]) &&
          (decide (c.state.store.store.find? "s" = some 1) &&
            (c.state.store.sessions[1]?).isSome)) = true := by decide +kernel
  obtain ⟨c, hc, hplayed⟩ := (Option.any_eq_true _ _).mp played
  obtain ⟨hheard, hplayed⟩ := Bool.and_eq_true_iff.mp hplayed
  obtain ⟨hentry, hobject⟩ := Bool.and_eq_true_iff.mp hplayed
  obtain ⟨s, hs⟩ := Option.isSome_iff_exists.mp hobject
  have reached := System.follow_reached (S := (observedMachine Unit).system) (P := Orderly)
    (fun _ _ _ h => h) orderly_of_check hc (.start ⟨rfl, rfl⟩)
  exact ⟨c, s, of_decide_eq_true hheard,
    firehose_in_order reached (of_decide_eq_true hentry) hs⟩

/-- A listener that appends while an event is announced puts its own first. -/
theorem firehose_reversed : ¬ ∀ (c : ObservedConfig Unit),
    (observedMachine Unit).system.Reached Routine c → ∀ (id : SessionId) (h : Nat) (s : Session),
      c.state.store.store.find? id = some h → c.state.store.sessions[h]? = some s →
        InOrder c id h s := by
  intro ordered
  have played : (System.follow (observedMachine Unit).next routine? ⟨{ store := {} }, []⟩
      [.op (.create "s" {} 0), .op (.append 0 "user/message" (userMessage "m1") 1 none),
        .op (.append 0 "user/message" (userMessage "m2") 2 none), .run, .run]).any (fun c =>
        decide (c.state.store.store.find? "s" = some 0) &&
          (c.state.store.sessions[0]?).any fun s => (s.log[0]?).any fun ev => decide (ev.seq = 1)) =
        true := by decide +kernel
  obtain ⟨c, hc, hplayed⟩ := (Option.any_eq_true _ _).mp played
  obtain ⟨hentry, hlog⟩ := Bool.and_eq_true_iff.mp hplayed
  obtain ⟨s, hs, hlog⟩ := (Option.any_eq_true _ _).mp hlog
  obtain ⟨ev, hev, hseq⟩ := (Option.any_eq_true _ _).mp hlog
  have reached := System.follow_reached (S := (observedMachine Unit).system) (P := Routine)
    (fun _ _ _ h => h) routine_of_check hc (.start ⟨rfl, rfl⟩)
  have hzero := (ordered c reached "s" 0 s (of_decide_eq_true hentry) hs).numbered 0 ev hev
  rw [of_decide_eq_true hseq] at hzero
  cases hzero

end Araya.Sessions
