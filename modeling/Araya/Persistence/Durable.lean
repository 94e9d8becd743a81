import Araya.Persistence.Jsonl
import Araya.Session.Firehose

/-!
The store with the backend behind its bus. The notices of a call wait on the
stack until the backend is served, so that other listeners may call the store
first. A session's file keeps up with its log in the runs that open each
identity with what its file already holds; a fork's prefix, the closers of a
repair and the marker of a cut never reach the file.
-/

namespace Araya.Persistence
open Sessions SessionStore

/-! One identity of the backend -/

/-- Whether an identity is attached, and its file followed by its buffer. -/
structure Slot where
  attached : Bool
  text : Option Text

def Backend.slot (b : Backend) (id : SessionId) : Slot :=
  match b.writers.find? id with
  | none => ⟨false, b.files.find? (sessionFile id)⟩
  | some buffer => ⟨true, some ((b.files.find? (sessionFile id)).getD [] ++ buffer)⟩

/-- The identity whose writer or file a notice is about; a flush moves nothing. -/
def about : Notice → Option SessionId
  | .created header => some header.id
  | .appended id _ => some id
  | .disposed id => some id
  | .flush _ => none

/-- The backend's listeners. The bus contains what they throw. -/
def serve (codec : Codec) (b : Backend) : Notice → Backend
  | .created header => (b.attach codec header).toOption.getD b
  | .appended id ev => b.append codec id ev
  | .disposed id => b.detach id
  | .flush id => b.flush id

def Slot.serve (codec : Codec) (s : Slot) : Notice → Slot
  | .created header =>
    if s.attached then s
    else ⟨true, some (match s.text with
      | none => recordLine codec (headerRecord header)
      | some contents => truncateTornTail contents)⟩
  | .appended _ ev =>
    if s.attached then { s with text := s.text.map (· ++ recordLine codec (eventRecord ev)) } else s
  | .disposed _ => { s with attached := false }
  | .flush _ => s

section
variable {codec : Codec} {b : Backend} {id other : SessionId}

theorem slot_drain (buffer : Text) : (b.drain id buffer).slot other =
    if other = id then ⟨true, some ((b.files.find? (sessionFile id)).getD [] ++ buffer)⟩
    else b.slot other := by
  by_cases h : other = id
  · subst h
    simp [Backend.slot, Backend.drain]
  · have hf : sessionFile other ≠ sessionFile id := fun heq => h (sessionFile_injective heq)
    simp [Backend.slot, Backend.drain, h, hf]

theorem slot_flush : (b.flush id).slot other = b.slot other := by
  unfold Backend.flush
  split
  · rfl
  · next buffer hw =>
      rw [slot_drain]
      split
      · next h => subst h; simp [Backend.slot, hw]
      · rfl

theorem slot_attach (header : Header) : ((b.attach codec header).toOption.getD b).slot id =
    if header.id = id then (b.slot id).serve codec (.created header) else b.slot id := by
  unfold Backend.attach
  by_cases h : header.id = id
  · subst h
    rw [if_pos rfl]
    cases hw : b.writers.find? header.id with
    | none =>
        cases hf : b.files.find? (sessionFile header.id) <;>
          simp [SortedMap.contains, hw, hf, Except.toOption, Slot.serve, Backend.slot]
    | some buffer =>
        simp [SortedMap.contains, hw, Except.toOption, Slot.serve, Backend.slot]
  · rw [if_neg h]
    split
    · rfl
    · have hf : sessionFile id ≠ sessionFile header.id := fun heq => h (sessionFile_injective heq).symm
      simp [Except.toOption, Backend.slot, Ne.symm h, hf]

theorem slot_append (ev : Event) : (b.append codec id ev).slot other =
    if id = other then (b.slot other).serve codec (.appended id ev) else b.slot other := by
  unfold Backend.append
  cases hw : b.writers.find? id with
  | none =>
      simp only
      split
      · next h => subst h; simp [Slot.serve, Backend.slot, hw]
      · rfl
  | some buffer =>
      have grown : id = other → (b.slot other).serve codec (.appended id ev) =
          ⟨true, some ((b.files.find? (sessionFile id)).getD [] ++
            (buffer ++ recordLine codec (eventRecord ev)))⟩ := by
        rintro rfl
        simp [Slot.serve, Backend.slot, hw]
      simp only
      split
      · rw [slot_drain]
        by_cases h : id = other
        · rw [if_pos h.symm, if_pos h, grown h]
        · rw [if_neg (Ne.symm h), if_neg h]
      · by_cases h : id = other
        · rw [if_pos h, grown h]
          subst h
          simp [Backend.slot]
        · rw [if_neg h]
          simp [Backend.slot, Ne.symm h]

theorem slot_detach : (b.detach id).slot other =
    if id = other then (b.slot other).serve codec (.disposed id) else b.slot other := by
  unfold Backend.detach
  by_cases h : id = other
  · subst h
    rw [if_pos rfl]
    cases hw : b.writers.find? id with
    | none => simp [SortedMap.contains, hw, Slot.serve, Backend.slot]
    | some buffer =>
        have flushed : (b.flush id).files.find? (sessionFile id) =
            some ((b.files.find? (sessionFile id)).getD [] ++ buffer) := by
          simp [Backend.flush, hw, Backend.drain]
        simp [SortedMap.contains, hw, Slot.serve, Backend.slot, flushed]
  · rw [if_neg h]
    split
    · have flushed : (b.flush id).slot other = b.slot other := slot_flush
      have hf : (b.flush id).writers.find? other = b.writers.find? other := by
        unfold Backend.flush
        split
        · rfl
        · simp [Backend.drain, Ne.symm h]
      rw [← flushed]
      simp [Backend.slot, Ne.symm h, hf]
    · rfl

/-- A notice moves the slot of the identity it is about, and no other. -/
theorem slot_serve (n : Notice) : (serve codec b n).slot id =
    if about n = some id then (b.slot id).serve codec n else b.slot id := by
  cases n with
  | created header =>
      simp only [serve, about, Option.some.injEq]
      exact slot_attach header
  | appended id' ev =>
      simp only [serve, about, Option.some.injEq]
      exact slot_append ev
  | disposed id' =>
      simp only [serve, about, Option.some.injEq]
      exact slot_detach
  | flush id' => simp [serve, about, slot_flush]

end

/-! The machine -/

structure Persisted (σ : Type) where
  store : SessionStore σ
  dispatched : List Notice := []
  backend : Backend := {}

/-- A pending append of the store, or a notice the backend has yet to hear. -/
inductive Frame where
  | store (f : SessionFrame)
  | serve (n : Notice)

def durableMachine (σ : Type) (codec : Codec) : StackMachine (Persisted σ) Frame (SessionOp σ) where
  start p := p.store = {} ∧ p.dispatched = [] ∧ p.backend.writers = ∅
  exec
    | .store f, p => .call { p with store := p.store.commit f } []
    | .serve n, p => .call { p with backend := serve codec p.backend n } []
  op o p := (p.store.run o).map fun d =>
    ({ p with store := d.store, dispatched := p.dispatched ++ d.notices },
      d.notices.map .serve ++ d.frames.map .store)
  nested _ := true

abbrev DurableConfig (σ : Type) := Config (Persisted σ) Frame

section
variable {σ : Type} {codec : Codec}

def Frame.session : Frame → Option SessionFrame
  | .store f => some f
  | .serve _ => none

def unpersisted (c : DurableConfig σ) : SessionConfig σ :=
  ⟨c.state.store, c.stack.filterMap Frame.session⟩

def Frame.awaits (id : SessionId) : Frame → Option Notice
  | .store _ => none
  | .serve n => if about n = some id then some n else none

/-- The notices about an identity that the backend has yet to hear. -/
def awaited (id : SessionId) (stack : List Frame) : List Notice := stack.filterMap (Frame.awaits id)

/-- The slot of an identity once the backend has heard them. -/
def settled (codec : Codec) (id : SessionId) (b : Backend) (stack : List Frame) : Slot :=
  (awaited id stack).foldl (Slot.serve codec) (b.slot id)

theorem durable_cases {c c' : DurableConfig σ} {a : Label (SessionOp σ)}
    (h : (durableMachine σ codec).next c a = some c') :
    (∃ f rest, a = .run ∧ c.stack = .store f :: rest ∧
      c' = ⟨{ c.state with store := c.state.store.commit f }, rest⟩) ∨
    (∃ n rest, a = .run ∧ c.stack = .serve n :: rest ∧
      c' = ⟨{ c.state with backend := serve codec c.state.backend n }, rest⟩) ∨
    (∃ o d, a = .op o ∧ c.state.store.run o = some d ∧
      c' = ⟨{ c.state with store := d.store, dispatched := c.state.dispatched ++ d.notices },
        d.notices.map .serve ++ d.frames.map .store ++ c.stack⟩) := by
  rcases StackMachine.next_cases h with ⟨f, rest, s', fs, ha, hst, hx, rfl⟩ |
    ⟨f, rest, s', ha, hst, hx, rfl⟩ | ⟨o, s', fs, ha, _, hx, rfl⟩
  · cases f with
    | store f => cases hx; exact .inl ⟨f, rest, ha, hst, rfl⟩
    | serve n => cases hx; exact .inr (.inl ⟨n, rest, ha, hst, rfl⟩)
  · cases f <;> cases hx
  · obtain ⟨d, hrun, hd⟩ := Option.map_eq_some_iff.mp hx
    cases hd
    exact .inr (.inr ⟨o, d, ha, hrun, rfl⟩)

theorem unpersisted_op (store : SessionStore σ) (dispatched ns : List Notice) (b : Backend)
    (fs : List SessionFrame) (stack : List Frame) :
    unpersisted ⟨⟨store, dispatched, b⟩, ns.map .serve ++ fs.map .store ++ stack⟩ =
      ⟨store, fs ++ stack.filterMap Frame.session⟩ := by
  have served : (ns.map Frame.serve).filterMap Frame.session = [] := by
    simp [List.filterMap_map, Function.comp_def, Frame.session]
  have stored : (fs.map Frame.store).filterMap Frame.session = fs := by
    simp [List.filterMap_map, Function.comp_def, Frame.session]
  simp [unpersisted, served, stored]

/-- The backend aside, a step is a step of the store. -/
theorem unpersisted_step {c c' : DurableConfig σ} {a : Label (SessionOp σ)}
    (h : (durableMachine σ codec).next c a = some c') :
    unpersisted c' = unpersisted c ∨
      (sessionMachine σ).next (unpersisted c) a = some (unpersisted c') := by
  rcases durable_cases h with ⟨f, rest, rfl, hst, rfl⟩ | ⟨n, rest, rfl, hst, rfl⟩ | ⟨o, d, rfl, hrun, rfl⟩
  · refine .inr ?_
    simp [unpersisted, StackMachine.next, hst, sessionMachine, Frame.session]
  · refine .inl ?_
    simp only [unpersisted, hst]
    rfl
  · refine .inr ?_
    rw [unpersisted_op]
    simp [unpersisted, StackMachine.next, sessionMachine, hrun]

/-! Texts that keep up with a log -/

/-- What of an event the file keeps; the rest is the store's to mark. -/
def content (ev : Event) : Nat × Int × String × Json := (ev.seq, ev.time, ev.type, ev.data)

/-- The events of a file are those of a log, in order. -/
def Recorded (stored live : List Event) : Prop :=
  stored.map content = live.map fun ev => content ev.readBack

/-- The text reads as the header and the log, and ends in a newline. -/
def Follows (codec : Codec) (header : Header) (log : List Event) (text : Option Text) : Prop :=
  ∃ t stored, text = some t ∧ Whole t ∧ readText codec (sessionFile header.id) t = .ok stored ∧
    stored.header = header ∧ Recorded stored.events log

/-- The file of an identity, when there is one, holds what a session opens with. -/
def Stored (codec : Codec) (slot : Slot) (header : Header) (log : List Event) : Prop :=
  match slot.text with
  | none => log = [] ∧ codec.Keeps (headerRecord header)
  | some t => Follows codec header log (some (truncateTornTail t))

theorem Stored.congr {slot : Slot} {header : Header} {log log' : List Event}
    (h : Stored codec slot header log)
    (same : log'.map (fun ev => content ev.readBack) = log.map fun ev => content ev.readBack) :
    Stored codec slot header log' := by
  unfold Stored at h ⊢
  cases ht : slot.text with
  | none =>
      rw [ht] at h
      obtain ⟨rfl, keeps⟩ := h
      exact ⟨List.map_eq_nil_iff.mp same, keeps⟩
  | some t =>
      rw [ht] at h
      obtain ⟨t', stored, htext, whole, reads, header, recorded⟩ := h
      exact ⟨t', stored, htext, whole, reads, header, recorded.trans same.symm⟩

/-- The record of the event is kept, and can be told from a header. -/
structure Writable (codec : Codec) (ev : Event) : Prop where
  keeps : codec.Keeps (eventRecord ev)
  type : ev.type ≠ "session"
  seq : ev.seq < 2 ^ 63

theorem Follows.concat {header : Header} {log : List Event} {text : Option Text} {ev : Event}
    (h : Follows codec header log text) (writable : Writable codec ev) :
    Follows codec header (log ++ [ev])
      (text.map (· ++ recordLine codec (eventRecord ev))) := by
  obtain ⟨t, stored, rfl, whole, reads, hheader, recorded⟩ := h
  refine ⟨_, _, rfl, recordLine_whole t _,
    readText_event whole reads writable.keeps writable.type writable.seq, hheader, ?_⟩
  simp only [Recorded] at recorded
  simp [Recorded, recorded, Event.readBack]

theorem Follows.attach {slot : Slot} {header : Header} {log : List Event}
    (h : Stored codec slot header log) (detached : slot.attached = false) :
    Follows codec header log (slot.serve codec (.created header)).text := by
  obtain ⟨attached, text⟩ := slot
  subst detached
  cases text with
  | none =>
      obtain ⟨rfl, keeps⟩ := h
      exact ⟨_, _, rfl, recordLine_whole [] _, readText_header keeps, rfl, rfl⟩
  | some t => exact h

theorem recorded_canonical {stored live : List Event} (h : Recorded stored live)
    (canonical : Canonical live) : Canonical stored := by
  intro i ev hev
  have hc : (stored.map content)[i]? = some (content ev) := by simp [hev]
  rw [h, List.getElem?_map, Option.map_eq_some_iff] at hc
  obtain ⟨a, ha, heq⟩ := hc
  obtain ⟨seq, valid⟩ := canonical i a ha
  simp only [content, Prod.mk.injEq] at heq
  exact ⟨heq.1 ▸ seq, (Event.valid_congr heq.1 heq.2.2.1 heq.2.2.2).mp valid.readBack⟩

theorem openingLog_mark {now : Int} {options : CreateOptions} {seed : List Event}
    (mark : Event → Bool) :
    (openingLog now options (seed.map fun ev => { ev with ignorable := mark ev })).map
        (fun ev => content ev.readBack) =
      (openingLog now options seed).map fun ev => content ev.readBack := by
  have last : lastTime now (seed.map fun ev => { ev with ignorable := mark ev }) = lastTime now seed := by
    simp [lastTime, List.getLast?_map, Function.comp_def]
  have repaired : (repairInterruptedTurns now (seed.map fun ev => { ev with ignorable := mark ev })).map
      (fun ev => content ev.readBack) =
        (repairInterruptedTurns now seed).map fun ev => content ev.readBack := by
    simp only [repairInterruptedTurns, last, openCalls_mark, List.length_map, List.map_append,
      List.map_map]
    rfl
  have time : lastTime now (repairInterruptedTurns now (seed.map fun ev => { ev with ignorable := mark ev })) =
      lastTime now (repairInterruptedTurns now seed) := by
    have times := congrArg (fun l => (l.map fun c => c.2.1).getLast?) repaired
    simp only [List.map_map, List.getLast?_map, Function.comp_def, content] at times
    exact congrArg (fun t => t.getD now) times
  have length := congrArg List.length repaired
  simp only [List.length_map] at length
  unfold openingLog
  simp only
  split
  · simp only [List.map_append, repaired, List.map_cons, List.map_nil, endSeed, time, length]
  · exact repaired

/-! Runs -/

/-- The call finds the backend up to date with the identities it reaches, and
what it opens or announces is what their files hold. -/
def Fits (codec : Codec) (c : DurableConfig σ) : SessionOp σ → Prop
  | .append h type data now _ => ∀ s, c.state.store.sessions[h]? = some s →
      ∀ h', c.state.store.store.find? s.id = some h' → awaited s.id c.stack = [] ∧
        ((c.state.backend.slot s.id).attached = true →
          h' = h ∧ Writable codec (c.state.store.logged s type data now))
  | .announce i => ∀ s h e, c.state.store.sessions[i]? = some s →
      c.state.store.store.find? s.id = some h → c.state.store.sessions[h]? = some e →
        awaited s.id c.stack = [] ∧ ((c.state.backend.slot s.id).attached = false →
          pending h (unpersisted c).stack = [] ∧
            Stored codec (c.state.backend.slot s.id) e.header e.log)
  | .dispose id => awaited id c.stack = []
  | .expire => False
  | o => ∀ id options now, Opening c.state.store o id options now →
      (c.state.store.prepared id options now).isOk = true → awaited id c.stack = [] ∧
        Stored codec (c.state.backend.slot id) (newHeader id options now)
          (openingLog now options options.seed)

def Covered (codec : Codec) (c : DurableConfig σ) : Label (SessionOp σ) → Prop
  | .run => True
  | .op o => Clean (unpersisted c) (.op o) ∧ Fits codec c o

def heardOf (id : SessionId) (on : Bool) : Notice → Bool
  | .created header => if header.id = id then true else on
  | .disposed id' => if id' = id then false else on
  | _ => on

/-- The identity was announced, and not disposed since. -/
def announced (id : SessionId) (notices : List Notice) : Bool := notices.foldl (heardOf id) false

structure Mirrored (codec : Codec) (c : DurableConfig σ) : Prop where
  online : c.state.store.alive = true ∧ c.state.store.bus = true
  entered : ∀ id h, c.state.store.store.find? id = some h →
    ∃ s, c.state.store.sessions[h]? = some s ∧ s.id = id
  follows : ∀ id, (settled codec id c.state.backend c.stack).attached = true →
    ∃ h s, c.state.store.store.find? id = some h ∧ c.state.store.sessions[h]? = some s ∧
      Follows codec s.header (s.log ++ pending h (unpersisted c).stack)
        (settled codec id c.state.backend c.stack).text
  heard : ∀ id, announced id c.state.dispatched = (settled codec id c.state.backend c.stack).attached

theorem settled_serve {id : SessionId} {b : Backend} {n : Notice} {rest : List Frame} :
    settled codec id (serve codec b n) rest = settled codec id b (.serve n :: rest) := by
  unfold settled
  rw [slot_serve]
  by_cases h : about n = some id
  · rw [if_pos h]
    simp [awaited, Frame.awaits, h]
  · rw [if_neg h]
    simp [awaited, Frame.awaits, h]

theorem awaited_op {id : SessionId} {ns : List Notice} {fs : List SessionFrame} {stack : List Frame} :
    awaited id (ns.map .serve ++ fs.map .store ++ stack) =
      ns.filter (fun n => about n = some id) ++ awaited id stack := by
  have stores : (fs.map Frame.store).filterMap (Frame.awaits id) = [] := by
    simp [List.filterMap_map, Function.comp_def, Frame.awaits]
  have serves : (ns.map Frame.serve).filterMap (Frame.awaits id) =
      ns.filter fun n => about n = some id := by
    rw [List.filterMap_map, ← List.filterMap_eq_filter]
    congr 1
    funext n
    simp [Frame.awaits, Option.guard]
  simp only [awaited, List.filterMap_append, stores, serves, List.append_nil]

/-- A notice about another identity leaves a slot where it was going. -/
theorem settled_other {id : SessionId} {b : Backend} {ns : List Notice} {fs : List SessionFrame}
    {stack : List Frame} (h : ∀ n ∈ ns, about n ≠ some id) :
    settled codec id b (ns.map .serve ++ fs.map .store ++ stack) = settled codec id b stack := by
  have none : ns.filter (fun n => about n = some id) = [] := by
    simpa [List.filter_eq_nil_iff] using h
  rw [settled, awaited_op, none]
  rfl

theorem settled_own {id : SessionId} {b : Backend} {n : Notice} {fs : List SessionFrame}
    {stack : List Frame} (h : about n = some id) (quiet : awaited id stack = []) :
    settled codec id b ([n].map .serve ++ fs.map .store ++ stack) = (b.slot id).serve codec n := by
  rw [settled, awaited_op, quiet]
  simp [h]

theorem settled_quiet {id : SessionId} {b : Backend} {stack : List Frame}
    (quiet : awaited id stack = []) : settled codec id b stack = b.slot id := by
  rw [settled, quiet]
  rfl

/-- A step that leaves the slots and the logs of the entered sessions alone. -/
theorem Mirrored.same {c c' : DurableConfig σ} (inv : Mirrored codec c)
    (online : c'.state.store.alive = true ∧ c'.state.store.bus = true)
    (slots : ∀ id, settled codec id c'.state.backend c'.stack =
      settled codec id c.state.backend c.stack)
    (heard : ∀ id, announced id c'.state.dispatched = announced id c.state.dispatched)
    (back : ∀ id h, c'.state.store.store.find? id = some h →
      ∃ s, c'.state.store.sessions[h]? = some s ∧ s.id = id)
    (kept : ∀ id h s, c.state.store.store.find? id = some h → c.state.store.sessions[h]? = some s →
      c'.state.store.store.find? id = some h ∧ ∃ s', c'.state.store.sessions[h]? = some s' ∧
        s'.header = s.header ∧ s'.log ++ pending h (unpersisted c').stack =
          s.log ++ pending h (unpersisted c).stack) : Mirrored codec c' := by
  refine ⟨online, back, ?_, ?_⟩
  · intro id attached
    rw [slots] at attached ⊢
    obtain ⟨h, s, hh, hs, follows⟩ := inv.follows id attached
    obtain ⟨hh', s', hs', header, log⟩ := kept id h s hh hs
    exact ⟨h, s', hh', hs', by rw [header, log]; exact follows⟩
  · intro id
    rw [heard, slots]
    exact inv.heard id

theorem serve_mirrored {p : Persisted σ} {n : Notice} {rest : List Frame}
    (inv : Mirrored codec ⟨p, .serve n :: rest⟩) :
    Mirrored codec ⟨{ p with backend := serve codec p.backend n }, rest⟩ :=
  inv.same inv.online (fun _ => settled_serve) (fun _ => rfl) inv.entered
    fun _ _ s hh hs => ⟨hh, s, hs, rfl, rfl⟩

theorem commit_mirrored {p : Persisted σ} {f : SessionFrame} {rest : List Frame}
    (inv : Mirrored codec ⟨p, .store f :: rest⟩) :
    Mirrored codec ⟨{ p with store := p.store.commit f }, rest⟩ := by
  obtain ⟨h, ev⟩ := f
  obtain ⟨entries, online⟩ := commit_entries p.store (.commit h ev)
  have object : ∀ (i : Nat) (s : Session), p.store.sessions[i]? = some s →
      ∃ s', (p.store.commit (.commit h ev)).sessions[i]? = some s' ∧ s'.header = s.header ∧
        s'.log ++ pending i (rest.filterMap Frame.session) =
          s.log ++ pending i (.commit h ev :: rest.filterMap Frame.session) := by
    intro i s hs
    obtain ⟨hlt, _⟩ := List.getElem?_eq_some_iff.mp hs
    have ha := List.getElem?_eq_getElem (l := (p.store.commit (.commit h ev)).sessions) (i := i)
      (by rw [commit_length]; exact hlt)
    obtain ⟨b, hb, header, _, _, log⟩ := commit_session (rest.filterMap Frame.session) ha
    obtain rfl : s = b := Option.some.inj (hs.symm.trans hb)
    exact ⟨_, ha, header, log⟩
  refine inv.same ?_ (fun id => rfl) (fun _ => rfl) ?_ ?_
  · exact ⟨online.1.trans inv.online.1, online.2.trans inv.online.2⟩
  · intro id i hi
    simp only [entries] at hi
    obtain ⟨b, hb, hid⟩ := inv.entered id i hi
    obtain ⟨s', hs', header, _⟩ := object i b hb
    exact ⟨s', hs', by rw [Session.id, header]; exact hid⟩
  · intro id i s hi hs
    obtain ⟨s', hs', header, log⟩ := object i s hs
    exact ⟨by simpa only [entries] using hi, s', hs', header, log⟩

theorem append_mirrored {c : DurableConfig σ} (inv : Mirrored codec c) {h : Nat} {s : Session}
    {type : String} {data : Json} {now : Int} {refuses : Option String}
    (hs : c.state.store.sessions[h]? = some s)
    (clean : Clean (unpersisted c) (.op (.append h type data now refuses)))
    (fits : Fits codec c (.append h type data now refuses)) {d : Done σ}
    (hd : c.state.store.append h s type data now refuses = d) :
    Mirrored codec ⟨{ c.state with store := d.store, dispatched := c.state.dispatched ++ d.notices },
      d.notices.map .serve ++ d.frames.map .store ++ c.stack⟩ := by
  subst hd
  have spec := append_appended c.state.store h s type data now refuses
  have online := append_online c.state.store h s type data now refuses
  obtain ⟨alone, accepts⟩ := clean
  obtain ⟨frames, notices⟩ := spec.accepted (append_threw_iff.mpr (accepts s hs).2)
  obtain ⟨s', hsessions, hlog, _, header⟩ := spec.sessions
  have fits := fits s hs
  generalize c.state.store.logged s type data now = ev at fits frames notices
  generalize c.state.store.append h s type data now refuses = d at *
  simp only [inv.online.1, inv.online.2, Bool.true_and] at notices
  obtain ⟨hlt, _⟩ := List.getElem?_eq_some_iff.mp hs
  have alone : pending h (c.stack.filterMap Frame.session) = [] := alone
  have own : d.store.sessions[h]? = some s' := by
    rw [hsessions, List.getElem?_set_self hlt]
  have other : ∀ {id : SessionId} {i : Nat} {a : Session}, s.id ≠ id →
      c.state.store.store.find? id = some i → c.state.store.sessions[i]? = some a →
        d.store.sessions[i]? = some a ∧
          pending i (d.frames ++ c.stack.filterMap Frame.session) =
            pending i (c.stack.filterMap Frame.session) := by
    intro id i a hne hi ha
    have hih : i ≠ h := by
      rintro rfl
      obtain ⟨b, hb, hid⟩ := inv.entered id i hi
      rw [hs, Option.some.injEq] at hb
      exact hne (hb ▸ hid)
    exact ⟨by rw [hsessions, List.getElem?_set_ne (Ne.symm hih)]; exact ha,
      by simp [frames, pending, Ne.symm hih]⟩
  have far : ∀ {id : SessionId}, s.id ≠ id →
      settled codec id c.state.backend (d.notices.map .serve ++ d.frames.map .store ++ c.stack) =
        settled codec id c.state.backend c.stack := by
    intro id hne
    refine settled_other fun n hn => ?_
    rw [notices] at hn
    split at hn
    · rw [List.mem_singleton.mp hn]
      simpa [about] using hne
    · cases hn
  refine ⟨⟨online.1.trans inv.online.1, online.2.trans inv.online.2⟩, ?_, ?_, ?_⟩
  · intro id i hi
    simp only [spec.entered.1] at hi
    obtain ⟨b, hb, hid⟩ := inv.entered id i hi
    by_cases hih : i = h
    · subst hih
      rw [hs, Option.some.injEq] at hb
      exact ⟨s', own, by rw [Session.id, header, hb]; exact hid⟩
    · exact ⟨b, by rw [hsessions, List.getElem?_set_ne (Ne.symm hih)]; exact hb, hid⟩
  · intro id attached
    rw [unpersisted_op]
    simp only [spec.entered.1]
    by_cases hid : s.id = id
    · subst hid
      cases hentry : c.state.store.store.find? s.id with
      | none =>
          have none : d.notices = [] := by
            rw [notices, SortedMap.contains, hentry]
            rfl
          rw [settled_other (by simp [none])] at attached
          obtain ⟨i, a, hi, _⟩ := inv.follows s.id attached
          rw [hentry] at hi
          cases hi
      | some i =>
          obtain ⟨quiet, through⟩ := fits i hentry
          have sent : d.notices = [.appended s.id ev] := by
            rw [notices, SortedMap.contains, hentry]
            rfl
          simp only [sent] at attached ⊢
          rw [settled_own rfl quiet] at attached ⊢
          have before : (c.state.backend.slot s.id).attached = true := by
            simp only [Slot.serve] at attached
            split at attached <;> exact attached
          obtain ⟨rfl, writable⟩ := through before
          have follows := inv.follows s.id (by rw [settled_quiet quiet]; exact before)
          rw [settled_quiet quiet] at follows
          obtain ⟨j, a, hj, ha, follows⟩ := follows
          obtain rfl : i = j := Option.some.inj (hentry.symm.trans hj)
          obtain rfl : s = a := Option.some.inj (hs.symm.trans ha)
          refine ⟨i, s', rfl, own, ?_⟩
          have text := follows.concat writable
          simp only [unpersisted, alone, List.append_nil] at text
          have pend : pending i (d.frames ++ c.stack.filterMap Frame.session) = [ev] := by
            simp only [pending] at alone
            simp [frames, pending, alone]
          rw [header, pend, hlog]
          simpa [Slot.serve, before] using text
    · rw [far hid] at attached ⊢
      obtain ⟨i, a, hi, ha, follows⟩ := inv.follows id attached
      obtain ⟨ha', pend⟩ := other hid hi ha
      exact ⟨i, a, hi, ha', by rw [pend]; exact follows⟩
  · intro id
    have heard := inv.heard id
    simp only [announced] at heard ⊢
    by_cases hid : s.id = id
    · subst hid
      cases hentry : c.state.store.store.find? s.id with
      | none =>
          have none : d.notices = [] := by
            rw [notices, SortedMap.contains, hentry]
            rfl
          rw [settled_other (by simp [none]), none, List.append_nil]
          exact heard
      | some i =>
          obtain ⟨quiet, _⟩ := fits i hentry
          have sent : d.notices = [.appended s.id ev] := by
            rw [notices, SortedMap.contains, hentry]
            rfl
          simp only [sent]
          rw [settled_own rfl quiet, List.foldl_append]
          rw [settled_quiet quiet] at heard
          simp only [List.foldl_cons, List.foldl_nil, heardOf, heard, Slot.serve]
          split <;> rfl
    · rw [far hid, ← heard, notices]
      split
      · rw [List.foldl_append]; rfl
      · rw [List.append_nil]

/-- A session that comes to stand under an identity without a writer is followed
from what its file holds. -/
theorem Mirrored.announce {c c' : DurableConfig σ} (inv : Mirrored codec c) {header : Header}
    {h : Nat} {s : Session} (quiet : awaited header.id c.stack = []) (hheader : s.header = header)
    (stack : c'.stack = [Notice.created header].map .serve ++ ([] : List SessionFrame).map .store ++ c.stack)
    (backend : c'.state.backend = c.state.backend)
    (dispatched : c'.state.dispatched = c.state.dispatched ++ [.created header])
    (online : c'.state.store.alive = true ∧ c'.state.store.bus = true)
    (entry : c'.state.store.store.find? header.id = some h)
    (object : c'.state.store.sessions[h]? = some s)
    (stored : (c.state.backend.slot header.id).attached = false →
      pending h (unpersisted c).stack = [] ∧ Stored codec (c.state.backend.slot header.id) header s.log)
    (back : ∀ id h, c'.state.store.store.find? id = some h →
      ∃ s, c'.state.store.sessions[h]? = some s ∧ s.id = id)
    (kept : ∀ id h s, c.state.store.store.find? id = some h → c.state.store.sessions[h]? = some s →
      c'.state.store.store.find? id = some h ∧ c'.state.store.sessions[h]? = some s) :
    Mirrored codec c' := by
  obtain ⟨⟨store, dispatched', backend'⟩, stack'⟩ := c'
  simp only at stack backend dispatched online entry object back kept
  subst stack backend dispatched
  have waits : (unpersisted ⟨⟨store, c.state.dispatched ++ [.created header], c.state.backend⟩,
      [Notice.created header].map .serve ++ ([] : List SessionFrame).map .store ++ c.stack⟩).stack =
      (unpersisted c).stack := by
    rw [unpersisted_op]
    rfl
  have far : ∀ {id : SessionId}, header.id ≠ id → settled codec id c.state.backend
      ([Notice.created header].map .serve ++ ([] : List SessionFrame).map .store ++ c.stack) =
        settled codec id c.state.backend c.stack := fun hne =>
    settled_other (by simpa [about] using hne)
  have near : settled codec header.id c.state.backend
      ([Notice.created header].map .serve ++ ([] : List SessionFrame).map .store ++ c.stack) =
        (c.state.backend.slot header.id).serve codec (.created header) := settled_own rfl quiet
  refine ⟨online, back, ?_, ?_⟩
  · intro id attached
    simp only [waits]
    by_cases hid : header.id = id
    · subst hid
      rw [near]
      cases before : (c.state.backend.slot header.id).attached with
      | false =>
          obtain ⟨alone, stored⟩ := stored before
          refine ⟨h, s, entry, object, ?_⟩
          rw [alone, List.append_nil, hheader]
          exact Follows.attach stored before
      | true =>
          have follows := inv.follows header.id (by rw [settled_quiet quiet]; exact before)
          rw [settled_quiet quiet] at follows
          obtain ⟨i, a, hi, ha, follows⟩ := follows
          obtain ⟨hi', ha'⟩ := kept _ i a hi ha
          exact ⟨i, a, hi', ha', by simpa [Slot.serve, before] using follows⟩
    · rw [far hid] at attached ⊢
      obtain ⟨i, a, hi, ha, follows⟩ := inv.follows id attached
      obtain ⟨hi', ha'⟩ := kept _ i a hi ha
      exact ⟨i, a, hi', ha', follows⟩
  · intro id
    have heard := inv.heard id
    simp only [announced, List.foldl_append] at heard ⊢
    by_cases hid : header.id = id
    · subst hid
      rw [near]
      simp only [List.foldl_cons, List.foldl_nil, heardOf, if_true, Slot.serve]
      split
      · next before => exact before.symm
      · rfl
    · rw [far hid, ← heard]
      simp [heardOf, hid]

theorem calm_mirrored {c : DurableConfig σ} (inv : Mirrored codec c) (aligned : Aligned (unpersisted c))
    {o : SessionOp σ} {d : Done σ} (calm : Calm c.state.store o d) (fits : Fits codec c o) :
    Mirrored codec ⟨{ c.state with store := d.store, dispatched := c.state.dispatched ++ d.notices },
      d.notices.map .serve ++ d.frames.map .store ++ c.stack⟩ := by
  obtain ⟨online, frames, effect⟩ := calm
  have online' : d.store.alive = true ∧ d.store.bus = true := by
    rw [online.1, online.2]
    exact inv.online
  have silent : ∀ id, (∀ n ∈ d.notices, about n = none) →
      settled codec id c.state.backend (d.notices.map .serve ++ d.frames.map .store ++ c.stack) =
        settled codec id c.state.backend c.stack ∧
      announced id (c.state.dispatched ++ d.notices) = announced id c.state.dispatched := by
    intro id none
    refine ⟨settled_other fun n hn => by rw [none n hn]; simp, ?_⟩
    rw [announced, List.foldl_append]
    refine List.foldlRecOn (motive := fun on => on = announced id c.state.dispatched) _ _ rfl ?_
    intro on hon n hn
    have quiet := none n hn
    cases n with
    | flush _ => exact hon
    | _ => cases quiet
  have waits : (unpersisted ⟨⟨d.store, c.state.dispatched ++ d.notices, c.state.backend⟩,
      d.notices.map .serve ++ d.frames.map .store ++ c.stack⟩).stack = (unpersisted c).stack := by
    rw [unpersisted_op, frames]
    rfl
  have appended : ∀ {s : Session}, d.store.sessions = c.state.store.sessions ++ [s] →
      ∀ {i : Nat} {a : Session}, c.state.store.sessions[i]? = some a → d.store.sessions[i]? = some a := by
    intro s sessions i a ha
    obtain ⟨hlt, _⟩ := List.getElem?_eq_some_iff.mp ha
    rw [sessions, List.getElem?_append_left hlt]
    exact ha
  cases effect with
  | same sessions entries notices =>
      have none : ∀ n ∈ d.notices, about n = none := by
        rcases notices with hn | ⟨id, hn⟩ <;> simp [hn, about]
      refine inv.same online' (fun id => (silent id none).1) (fun id => (silent id none).2) ?_ ?_
      · simpa only [sessions, entries] using inv.entered
      · intro id h s hh hs
        simp only [waits, sessions, entries]
        exact ⟨hh, s, hs, rfl, rfl⟩
  | added s op sessions entries notices =>
      have none : ∀ n ∈ d.notices, about n = none := by simp [notices]
      refine inv.same online' (fun id => (silent id none).1) (fun id => (silent id none).2) ?_ ?_
      · intro id h hh
        simp only [entries] at hh
        obtain ⟨a, ha, hid⟩ := inv.entered id h hh
        exact ⟨a, appended sessions ha, hid⟩
      · intro id h a hh ha
        simp only [waits, entries]
        exact ⟨hh, a, appended sessions ha, rfl, rfl⟩
  | entered h s op object new sessions entries notices =>
      have none : ∀ n ∈ d.notices, about n = none := by simp [notices]
      refine inv.same online' (fun id => (silent id none).1) (fun id => (silent id none).2) ?_ ?_
      · intro id i hi
        simp only [entries, SortedMap.find?_insert] at hi
        simp only [sessions]
        split at hi
        · next hid =>
            obtain rfl := Option.some.inj hi
            exact ⟨s, object, hid.symm⟩
        · exact inv.entered id i hi
      · intro id i a hi ha
        simp only [waits, sessions, entries, SortedMap.find?_insert]
        have hne : id ≠ s.id := by
          rintro rfl
          simp [SortedMap.contains, hi] at new
        rw [if_neg hne]
        exact ⟨hi, a, ha, rfl, rfl⟩
  | announced i h s e op object entry found sessions entries notices =>
      subst op
      obtain ⟨quiet, stored⟩ := fits s h e object entry found
      obtain ⟨e', he', hid⟩ := inv.entered s.id h entry
      obtain rfl : e = e' := Option.some.inj (found.symm.trans he')
      have hid : e.header.id = s.id := hid
      refine @Mirrored.announce _ _ _ _ inv e.header h e (by rw [hid]; exact quiet) rfl
        (by rw [notices, frames]) rfl (by rw [notices]) online' (by simpa only [hid, entries] using entry)
        (by simpa only [sessions] using found) (by rw [hid]; exact stored) ?_ ?_
      · simpa only [sessions, entries] using inv.entered
      · intro id i a hi ha
        simp only [sessions, entries]
        exact ⟨hi, ha⟩
  | opened id options now s op prepared sessions entries notices =>
      obtain ⟨new, header, log⟩ := prepared_spec prepared
      have absent : c.state.store.store.find? id = none := by
        simpa [SortedMap.contains] using new
      have fits : awaited id c.stack = [] ∧ Stored codec (c.state.backend.slot id)
          (newHeader id options now) (openingLog now options options.seed) := by
        have ok : (c.state.store.prepared id options now).isOk = true := by rw [prepared]; rfl
        cases op with
        | create => exact fits _ _ _ .create ok
        | fork hh hs => exact fits _ _ _ (.fork hh hs) ok
      obtain ⟨quiet, stored⟩ := fits
      have back : ∀ id' h', d.store.store.find? id' = some h' →
          ∃ a, d.store.sessions[h']? = some a ∧ a.id = id' := by
        intro id' i hi
        simp only [entries, SortedMap.find?_insert] at hi
        split at hi
        · next hid =>
            obtain rfl := Option.some.inj hi
            exact ⟨s, by rw [sessions]; simp, by rw [Session.id, header, hid]; rfl⟩
        · obtain ⟨a, ha, hid⟩ := inv.entered id' i hi
          exact ⟨a, appended sessions ha, hid⟩
      have kept : ∀ id' i a, c.state.store.store.find? id' = some i →
          c.state.store.sessions[i]? = some a →
            d.store.store.find? id' = some i ∧ d.store.sessions[i]? = some a := by
        intro id' i a hi ha
        have hne : id' ≠ id := by
          rintro rfl
          rw [absent] at hi
          cases hi
        exact ⟨by rw [entries, SortedMap.find?_insert, if_neg hne]; exact hi, appended sessions ha⟩
      rcases notices with none | sent
      · have none' : ∀ n ∈ d.notices, about n = Option.none := by simp [none]
        refine inv.same online' (fun id => (silent id none').1) (fun id => (silent id none').2) back ?_
        intro id' i a hi ha
        obtain ⟨hi', ha'⟩ := kept id' i a hi ha
        rw [waits]
        exact ⟨hi', a, ha', rfl, rfl⟩
      · have hid : s.header.id = id := by rw [header]; rfl
        refine @Mirrored.announce _ _ _ _ inv s.header c.state.store.sessions.length s
          (by rw [hid]; exact quiet) rfl (by rw [sent, frames]) rfl (by rw [sent]) online'
          (by simp [entries, hid]) (by simp [sessions]) ?_ back kept
        intro _
        refine ⟨pending_unknown aligned, ?_⟩
        rw [hid, header, log]
        exact stored.congr (openingLog_mark _)
  | disposed id op sessions entries notices =>
      subst op
      have quiet : awaited id c.stack = [] := fits
      have far : ∀ {id' : SessionId}, id ≠ id' → settled codec id' c.state.backend
          (d.notices.map .serve ++ d.frames.map .store ++ c.stack) =
            settled codec id' c.state.backend c.stack := fun hne =>
        settled_other (by simpa [notices, about] using hne)
      have near : settled codec id c.state.backend
          (d.notices.map .serve ++ d.frames.map .store ++ c.stack) =
            (c.state.backend.slot id).serve codec (.disposed id) := by
        rw [notices]
        exact settled_own rfl quiet
      refine ⟨online', ?_, ?_, ?_⟩
      · intro id' i hi
        simp only [entries, SortedMap.find?_erase] at hi
        simp only [sessions]
        split at hi
        · cases hi
        · exact inv.entered id' i hi
      · intro id' attached
        by_cases hid : id = id'
        · subst hid
          rw [near] at attached
          cases attached
        · simp only [waits, sessions, entries, SortedMap.find?_erase, if_neg (Ne.symm hid)]
          rw [far hid] at attached ⊢
          exact inv.follows id' attached
      · intro id'
        have heard := inv.heard id'
        simp only [announced, List.foldl_append, notices, List.foldl_cons, List.foldl_nil, heardOf]
          at heard ⊢
        rw [← notices]
        by_cases hid : id = id'
        · subst hid
          rw [near, if_pos rfl]
          rfl
        · rw [far hid, if_neg hid]
          exact heard

theorem covered_reached {c : DurableConfig σ}
    (h : (durableMachine σ codec).system.Reached (Covered codec) c) :
    (sessionMachine σ).system.Reached Clean (unpersisted c) := by
  refine h.project unpersisted ?_ ?_
  · rintro ⟨⟨store, dispatched, backend⟩, stack⟩ ⟨⟨hst, _⟩, hstack⟩
    simp only at hst hstack
    rw [hst, hstack]
    exact ⟨rfl, rfl⟩
  · intro c a c' step covered
    refine (unpersisted_step step).imp_right fun step => ⟨a, step, ?_⟩
    cases a with
    | run => trivial
    | op o => exact covered.1

theorem step_mirrored {c c' : DurableConfig σ} {a : Label (SessionOp σ)} (inv : Mirrored codec c)
    (aligned : Aligned (unpersisted c)) (hs : (durableMachine σ codec).next c a = some c')
    (covered : Covered codec c a) : Mirrored codec c' := by
  rcases durable_cases hs with ⟨f, rest, rfl, hst, rfl⟩ | ⟨n, rest, rfl, hst, rfl⟩ |
    ⟨o, d, rfl, hrun, rfl⟩
  · obtain ⟨p, stack⟩ := c
    subst hst
    exact commit_mirrored inv
  · obtain ⟨p, stack⟩ := c
    subst hst
    exact serve_mirrored inv
  · obtain ⟨clean, fits⟩ := covered
    by_cases happ : ∃ h type data now refuses, o = .append h type data now refuses
    · obtain ⟨h, type, data, now, refuses, rfl⟩ := happ
      obtain ⟨s, hget, hd⟩ := Option.map_eq_some_iff.mp hrun
      exact append_mirrored inv hget clean fits hd
    · refine calm_mirrored inv aligned (run_calm hrun inv.online.2 ?_ ?_) fits
      · rintro rfl
        exact fits
      · exact fun h type data now refuses heq => happ ⟨h, type, data, now, refuses, heq⟩

theorem mirrored_reached {c : DurableConfig σ}
    (h : (durableMachine σ codec).system.Reached (Covered codec) c) : Mirrored codec c := by
  refine h.invariant ?_ fun c a c' reached inv step covered =>
    step_mirrored inv (aligned_reached (covered_reached reached)) step covered
  rintro ⟨⟨store, dispatched, backend⟩, stack⟩ ⟨⟨hst, hd, hw⟩, hstack⟩
  simp only at hst hd hw hstack
  subst hst hd hstack
  have free : ∀ id, (settled codec id backend []).attached = false := fun id => by
    simp [settled, awaited, Backend.slot, hw]
  refine ⟨⟨rfl, rfl⟩, fun id h hh => (by cases hh), fun id attached => ?_, fun id => (free id).symm⟩
  rw [free] at attached
  cases attached

/-- Once flushed, the file of the session reads back as its header and its log,
and only an interpreter may refuse to prepare a session from it. -/
def Durable (codec : Codec) (b : Backend) (s : Session) : Prop :=
  ∃ stored, (b.flush s.id).read codec s.id = .ok (some stored) ∧ stored.header = s.header ∧
    Recorded stored.events s.log ∧
    ∀ (st : SessionStore σ) id options now what, options.seed = stored.events → id ≠ "" →
      st.store.contains id = false → (st.prepare id options now).threw = some what → Raises st what

/-- The session is announced, and nothing of it is on its way into log or file. -/
structure Resting (c : DurableConfig σ) (h : Nat) (s : Session) : Prop where
  entry : c.state.store.store.find? s.id = some h
  object : c.state.store.sessions[h]? = some s
  announced : announced s.id c.state.dispatched = true
  served : awaited s.id c.stack = []
  taken : pending h (unpersisted c).stack = []

theorem read_flushed {b : Backend} {id : SessionId} {t : Text} (attached : (b.slot id).attached = true)
    (text : (b.slot id).text = some t) :
    (b.flush id).read codec id = (readText codec (sessionFile id) t).map some := by
  cases hw : b.writers.find? id with
  | none => simp [Backend.slot, hw] at attached
  | some buffer =>
      simp only [Backend.slot, hw, Option.some.injEq] at text
      simp [Backend.read, Backend.flush, hw, Backend.drain, text]

theorem durable_log {c : DurableConfig σ}
    (reached : (durableMachine σ codec).system.Reached (Covered codec) c) {h : Nat} {s : Session}
    (resting : Resting c h s) : Durable (σ := σ) codec c.state.backend s := by
  have inv := mirrored_reached reached
  have canonical := (aligned_reached (covered_reached reached)).canonical h s resting.object
  have attached := (inv.heard s.id).symm.trans resting.announced
  obtain ⟨i, a, hi, ha, follows⟩ := inv.follows s.id attached
  obtain rfl : h = i := Option.some.inj (resting.entry.symm.trans hi)
  obtain rfl : s = a := Option.some.inj (resting.object.symm.trans ha)
  rw [settled_quiet resting.served] at attached follows
  rw [resting.taken, List.append_nil] at follows canonical
  obtain ⟨t, stored, text, _, reads, header, recorded⟩ := follows
  have reads : readText codec (sessionFile s.id) t = .ok stored := reads
  refine ⟨stored, ?_, header, recorded, ?_⟩
  · rw [read_flushed attached text, reads]
    rfl
  · exact fun st => (reaccepted_of_canonical (s := { header := stored.header, log := stored.events })
      (recorded_canonical recorded canonical) : Reaccepted st _).prepare

/-! Two schedules -/

/-- The text form of the given records, which alone are read back. -/
def tableCodec (records : List Json.Members) : Codec where
  serialize := Json.render fun _ => []
  parse t := (records.find? fun r => Json.render (fun _ => []) (.obj r) == t).map fun r =>
    (Json.obj r).normal

def keeps? (codec : Codec) (record : Json.Members) : Bool :=
  (codec.parse (codec.serialize (.obj record))).any (Json.same · (Json.obj record).normal) &&
    (!(codec.serialize (.obj record)).contains '\n' && !(codec.serialize (.obj record)).isEmpty)

theorem keeps_of_check {record : Json.Members} (h : keeps? codec record = true) :
    codec.Keeps record := by
  simp only [keeps?, Bool.and_eq_true, Bool.not_eq_true', List.isEmpty_eq_false_iff] at h
  obtain ⟨parses, line, filled⟩ := h
  obtain ⟨v, hv, same⟩ := (Option.any_eq_true _ _).mp parses
  exact ⟨by rw [hv, Json.eq_of_same _ _ same], by simpa using line, filled⟩

/-- The check of `Covered` for sessions that open empty on no file. -/
def covered? (codec : Codec) (c : DurableConfig σ) : Label (SessionOp σ) → Bool
  | .run => true
  | .op o => clean? (unpersisted c) (.op o) &&
      match o with
      | .append h type data now _ => (c.state.store.sessions[h]?).all fun s =>
          (awaited s.id c.stack).isEmpty && ((c.state.store.store.find? s.id).all (· == h) &&
            (keeps? codec (eventRecord (c.state.store.logged s type data now)) &&
              (type != "session" && decide (s.nextSeq < 2 ^ 63))))
      | .create id options now => (awaited id c.stack).isEmpty &&
          ((c.state.backend.slot id).text.isNone &&
            ((openingLog now options options.seed).isEmpty &&
              keeps? codec (headerRecord (newHeader id options now))))
      | .dispose id => (awaited id c.stack).isEmpty
      | .flush _ => true
      | _ => false

theorem covered_of_check (c : DurableConfig σ) (a : Label (SessionOp σ))
    (h : covered? codec c a = true) : Covered codec c a := by
  cases a with
  | run => trivial
  | op o =>
      obtain ⟨clean, h⟩ := Bool.and_eq_true_iff.mp h
      refine ⟨clean_of_check _ _ clean, ?_⟩
      cases o with
      | append i type data now refuses =>
          intro s hs h' hh
          have checked := Option.all_eq_true _ _ |>.mp h s hs
          simp only [Bool.and_eq_true, List.isEmpty_iff, Option.all_eq_true, beq_iff_eq,
            decide_eq_true_eq, bne_iff_ne] at checked
          obtain ⟨quiet, through, keeps, type, seq⟩ := checked
          exact ⟨quiet, fun _ => ⟨through h' hh, keeps_of_check keeps, type, seq⟩⟩
      | create id options now =>
          intro id' options' now' op _
          cases op
          simp only [Bool.and_eq_true, List.isEmpty_iff, Option.isNone_iff_eq_none] at h
          obtain ⟨quiet, none, empty, keeps⟩ := h
          refine ⟨quiet, ?_⟩
          rw [Stored, none]
          exact ⟨empty, keeps_of_check keeps⟩
      | dispose id => exact List.isEmpty_iff.mp h
      | flush id => intro _ _ _ op _; cases op
      | _ => cases h

/-- The calls that make, restore and extend sessions, in any nesting. -/
def written? (_ : DurableConfig σ) : Label (SessionOp σ) → Bool
  | .run | .op (.append _ _ _ _ _) | .op (.create _ _ _) | .op (.fork _ _ _ _)
  | .op (.prepare _ _ _) | .op (.enter _) | .op (.announce _) | .op (.flush _) => true
  | _ => false

end

def firstMessage : Event := { seq := 0, time := 1, type := "user/message", data := userMessage "m1" }

def secondMessage : Event := { seq := 1, time := 2, type := "user/message", data := userMessage "m2" }

def witnessCodec : Codec :=
  tableCodec [headerRecord { id := "s" }, headerRecord { id := "t", parentSession := some "s", isSeeded := true },
    eventRecord firstMessage, eventRecord secondMessage]

theorem keeps_messages {events : List Event} (h : ∀ ev ∈ events, keeps? witnessCodec (eventRecord ev) = true) :
    ∀ ev ∈ events, witnessCodec.Keeps (eventRecord ev) := fun ev hev => keeps_of_check (h ev hev)

theorem durable_log_twice : ∃ (c : DurableConfig Unit) (s : Session),
    s.log.map (·.type) = ["user/message", "user/message"] ∧
      Durable (σ := Unit) witnessCodec c.state.backend s := by
  have played : (System.follow (durableMachine Unit witnessCodec).next (covered? witnessCodec)
      ⟨{ store := {} }, []⟩
      [.op (.create "s" {} 0), .run, .op (.append 0 "user/message" (userMessage "m1") 1 none), .run, .run,
        .op (.append 0 "user/message" (userMessage "m2") 2 none), .run, .run]).any (fun c =>
        c.stack.isEmpty && (announced "s" c.state.dispatched &&
          (decide (c.state.store.store.find? "s" = some 0) && (c.state.store.sessions[0]?).any fun s =>
            decide (s.id = "s" ∧ s.log.map (·.type) = ["user/message", "user/message"])))) = true := by
    decide +kernel
  obtain ⟨c, hc, hplayed⟩ := (Option.any_eq_true _ _).mp played
  simp only [Bool.and_eq_true, List.isEmpty_iff] at hplayed
  obtain ⟨hstack, hannounced, hentry, hobject⟩ := hplayed
  obtain ⟨s, hs, hlog⟩ := (Option.any_eq_true _ _).mp hobject
  obtain ⟨hid, hlog⟩ := of_decide_eq_true hlog
  have reached := System.follow_reached (S := (durableMachine Unit witnessCodec).system)
    (P := Covered witnessCodec) (fun _ _ _ h => h) covered_of_check hc (.start ⟨⟨rfl, rfl, rfl⟩, rfl⟩)
  refine ⟨c, s, hlog, durable_log reached (h := 0) ⟨?_, hs, ?_, ?_, ?_⟩⟩
  · rw [hid]; exact of_decide_eq_true hentry
  · rw [hid]; exact hannounced
  · rw [hstack]; rfl
  · rw [unpersisted, hstack]; rfl

/-- The prefix of a fork never reaches its file. -/
theorem fork_not_durable : ¬ ∀ c : DurableConfig Unit,
    (durableMachine Unit witnessCodec).system.Reached (fun c a => written? c a = true) c →
      ∀ (h : Nat) (s : Session), Resting c h s → Durable (σ := Unit) witnessCodec c.state.backend s := by
  intro durable
  have played : (System.follow (durableMachine Unit witnessCodec).next written? ⟨{ store := {} }, []⟩
      [.op (.create "s" {} 0), .run, .op (.append 0 "user/message" (userMessage "m1") 1 none), .run, .run,
        .op (.fork "s" "t" none 0), .run, .op (.flush "t"), .run]).any (fun c =>
        c.stack.isEmpty && (announced "t" c.state.dispatched &&
          (decide (c.state.store.store.find? "t" = some 1) &&
            ((c.state.store.sessions[1]?).any (fun s => decide (s.id = "t" ∧ s.log.length = 2)) &&
              match (c.state.backend.flush "t").read witnessCodec "t" with
              | .ok (some stored) => stored.events.isEmpty
              | .ok none => false
              | .error _ => false)))) = true := by decide +kernel
  obtain ⟨c, hc, hplayed⟩ := (Option.any_eq_true _ _).mp played
  simp only [Bool.and_eq_true, List.isEmpty_iff] at hplayed
  obtain ⟨hstack, hannounced, hentry, hobject, hread⟩ := hplayed
  obtain ⟨s, hs, hlog⟩ := (Option.any_eq_true _ _).mp hobject
  obtain ⟨hid, hlog⟩ := of_decide_eq_true hlog
  have reached := System.follow_reached (S := (durableMachine Unit witnessCodec).system)
    (P := fun c a => written? c a = true) (fun _ _ _ h => h) (fun _ _ h => h) hc
    (.start ⟨⟨rfl, rfl, rfl⟩, rfl⟩)
  obtain ⟨stored, reads, _, recorded, _⟩ := durable c reached 1 s
    ⟨by rw [hid]; exact of_decide_eq_true hentry, hs, by rw [hid]; exact hannounced,
      by rw [hstack]; rfl, by rw [unpersisted, hstack]; rfl⟩
  rw [hid] at reads
  rw [reads] at hread
  have length := congrArg List.length recorded
  simp only [List.length_map, hlog, List.isEmpty_iff.mp hread, List.length_nil] at length
  cases length

end Araya.Persistence
