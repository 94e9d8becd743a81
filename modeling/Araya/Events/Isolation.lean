import Araya.Events.Bus

/-!
Snapshot isolation: what a dispatch still owes can be read off the vectors it
holds, and it is what was due when it started less what it called. A removal
breaks this for a dispatch that holds the current vector, since it empties the
other slots in place; the runs in which no removal does so are isolated.
-/

namespace Araya
namespace EventEntry
open EventBus (called typedDone advance)

/-- The raw slots a dispatch among the typed listeners has still to call. -/
def rawAhead (e : EventEntry) (d : Dispatch) : List ListenerSlot :=
  match d.mode with
  | .emit | .parallel => e.raw.get d.raw
  | .serial => e.raw.now
  | .waterfall | .bail => []

/-- The calls a dispatch has still to make, as the vectors it holds stand. -/
def ahead (c : Contexts) (e : EventEntry) (d : Dispatch) : List Call :=
  match d.phase with
  | .typed =>
    (((e.listeners.get d.listeners).drop d.next).filter (deliver c d.event d.scope) ++
      e.rawAhead d).map ListenerSlot.call
  | .raw => ((e.raw.get d.raw).drop d.next).map ListenerSlot.call
  | .finished | .stopped => []

/-- The removal empties no slot that the dispatch has still to call, and takes
none from the raw listeners a serial dispatch has not read yet. -/
structure Spares (c : Contexts) (e : EventEntry) (token : Token) (d : Dispatch) : Prop where
  listeners : d.phase = .typed → d.listeners = e.listeners.current →
    ∀ s ∈ e.listeners.now.drop d.next, deliver c d.event d.scope s = true → s.token = token
  shared : d.phase = .typed → d.mode = .emit ∨ d.mode = .parallel → d.raw = e.raw.current →
    ∀ s ∈ e.raw.now, s.token = token
  unread : d.phase = .typed → d.mode = .serial → ∀ s ∈ e.raw.now, s.token ≠ token
  raw : d.phase = .raw → d.raw = e.raw.current → ∀ s ∈ e.raw.now.drop d.next, s.token = token

theorem spares_iff {c : Contexts} {e : EventEntry} {token : Token} {d : Dispatch} :
    e.Spares c token d ↔
      (d.phase = .typed → d.listeners = e.listeners.current →
        ∀ s ∈ e.listeners.now.drop d.next, deliver c d.event d.scope s = true → s.token = token) ∧
      (d.phase = .typed → d.mode = .emit ∨ d.mode = .parallel → d.raw = e.raw.current →
        ∀ s ∈ e.raw.now, s.token = token) ∧
      (d.phase = .typed → d.mode = .serial → ∀ s ∈ e.raw.now, s.token ≠ token) ∧
      (d.phase = .raw → d.raw = e.raw.current → ∀ s ∈ e.raw.now.drop d.next, s.token = token) :=
  ⟨fun h => ⟨h.listeners, h.shared, h.unread, h.raw⟩, fun h => ⟨h.1, h.2.1, h.2.2.1, h.2.2.2⟩⟩

instance (c : Contexts) (e : EventEntry) (token : Token) (d : Dispatch) :
    Decidable (e.Spares c token d) := decidable_of_iff _ spares_iff.symm

/-- The dispatch holds vectors of the entry. -/
structure Holds (e : EventEntry) (d : Dispatch) : Prop where
  mode : d.mode = e.mode
  listeners : d.listeners < e.listeners.vectors.length
  raw : d.raw < e.raw.vectors.length

section
variable {c : Contexts} {e : EventEntry} {d : Dispatch} {token : Token}

/-! What the operations of an entry leave of the calls ahead -/

theorem ahead_add {slot : ListenerSlot} {atFront : Bool} (h : e.Holds d) :
    (e.add slot atFront).ahead c d = e.ahead c d := by
  have hl : (e.add slot atFront).listeners.get d.listeners = e.listeners.get d.listeners :=
    ListenerStore.get_publish h.listeners
  have hr : (e.add slot atFront).raw = e.raw := rfl
  simp only [ahead, rawAhead, hl, hr]

theorem ahead_addRaw {slot : ListenerSlot} (h : e.Holds d)
    (read : ¬(d.mode = .serial ∧ d.phase = .typed)) :
    (e.addRaw slot).ahead c d = e.ahead c d := by
  have hl : (e.addRaw slot).listeners = e.listeners := rfl
  have hr : (e.addRaw slot).raw.get d.raw = e.raw.get d.raw := ListenerStore.get_publish h.raw
  unfold ahead
  cases hp : d.phase with
  | typed =>
      have ha : (e.addRaw slot).rawAhead d = e.rawAhead d := by
        unfold rawAhead
        cases hm : d.mode with
        | serial => exact absurd ⟨hm, hp⟩ read
        | emit | parallel => exact hr
        | waterfall | bail => rfl
      simp only [hl, ha]
  | raw => simp only [hr]
  | finished | stopped => rfl

theorem ahead_keep {v : List ListenerSlot} (h : e.Holds d) :
    ahead c { e with listeners := e.listeners.keep v } d = e.ahead c d := by
  have hl : (e.listeners.keep v).get d.listeners = e.listeners.get d.listeners :=
    ListenerStore.get_keep h.listeners
  simp only [ahead, rawAhead, hl]

theorem map_movedFrom {l : List ListenerSlot} (h : ∀ s ∈ l, s.token = token) :
    l.map (ListenerStore.movedFrom token) = l := by
  refine (List.map_congr_left fun s hs => ?_).trans l.map_id
  simp [ListenerStore.movedFrom, h s hs]

theorem filter_movedFrom (l : List ListenerSlot) :
    (l.map (ListenerStore.movedFrom token)).filter (deliver c d.event d.scope) =
      (l.filter (deliver c d.event d.scope)).map (ListenerStore.movedFrom token) := by
  rw [List.filter_map]
  congr 1
  refine List.filter_congr fun s _ => ?_
  simp only [Function.comp_apply, ListenerStore.movedFrom]
  split <;> rfl

theorem filter_remove (h : e.Holds d) (hp : d.phase = .typed) (spares : e.Spares c token d) :
    (((e.remove token).listeners.get d.listeners).drop d.next).filter (deliver c d.event d.scope) =
      ((e.listeners.get d.listeners).drop d.next).filter (deliver c d.event d.scope) := by
  have hl : (e.remove token).listeners.get d.listeners = _ := ListenerStore.get_remove h.listeners
  rw [hl]
  split
  · next hc =>
      rw [← List.map_drop, filter_movedFrom]
      apply map_movedFrom
      intro s hs
      obtain ⟨hs, hdel⟩ := List.mem_filter.mp hs
      rw [hc] at hs
      exact spares.listeners hp hc s hs hdel
  · rfl

theorem rawAhead_remove (h : e.Holds d) (hp : d.phase = .typed) (spares : e.Spares c token d) :
    (e.remove token).rawAhead d = e.rawAhead d := by
  have shared : d.mode = .emit ∨ d.mode = .parallel →
      (e.remove token).raw.get d.raw = e.raw.get d.raw := by
    intro hm
    have hr : (e.remove token).raw.get d.raw = _ := ListenerStore.get_remove h.raw
    rw [hr]
    split
    · next hc =>
        rw [hc]
        exact map_movedFrom (spares.shared hp hm hc)
    · rfl
  unfold rawAhead
  cases hm : d.mode with
  | emit => exact shared (.inl hm)
  | parallel => exact shared (.inr hm)
  | serial =>
      have hn : (e.remove token).raw.now = _ := ListenerStore.now_remove
      refine hn.trans (List.filter_eq_self.mpr fun s hs => ?_)
      simpa using spares.unread hp hm s hs
  | waterfall | bail => rfl

theorem ahead_remove (h : e.Holds d) (spares : e.Spares c token d) :
    (e.remove token).ahead c d = e.ahead c d := by
  unfold ahead
  cases hp : d.phase with
  | typed => simp only [filter_remove h hp spares, rawAhead_remove h hp spares]
  | raw =>
      have hr : (e.remove token).raw.get d.raw = _ := ListenerStore.get_remove h.raw
      simp only [hr]
      split
      · next hc =>
          rw [hc, ← List.map_drop]
          exact congrArg _ (map_movedFrom (spares.raw hp hc))
      · rfl
  | finished | stopped => rfl

end

/-! The account of one dispatch -/

/-- A dispatch called what was due so far, in order, and what is ahead is the rest. -/
structure Accounts (c : Contexts) (e : EventEntry) (d : Dispatch) : Prop extends e.Holds d where
  intact : ∀ call ∈ d.due, call.2.isSome = true
  once : (d.due.map Prod.fst).Nodup
  rest : ∃ l, d.due = d.invoked ++ l ∧ (d.phase ≠ .stopped → l = e.ahead c d)

section
variable {c : Contexts} {e e' : EventEntry} {d d' : Dispatch}

theorem Accounts.congr (h : e.Accounts c d) (mode : e'.mode = e.mode)
    (listeners : e.listeners.vectors.length ≤ e'.listeners.vectors.length)
    (raw : e.raw.vectors.length ≤ e'.raw.vectors.length) (same : e'.ahead c d = e.ahead c d) :
    e'.Accounts c d where
  mode := h.mode.trans mode.symm
  listeners := Nat.lt_of_lt_of_le h.listeners listeners
  raw := Nat.lt_of_lt_of_le h.raw raw
  intact := h.intact
  once := h.once
  rest := same ▸ h.rest

/-- The dispatch moved on: it called the first of the calls ahead. -/
theorem Accounts.calls {s : ListenerSlot} {r : List ListenerSlot} (h : e.Accounts c d)
    (live : d.phase ≠ .stopped) (ahead : e.ahead c d = s.call :: r.map ListenerSlot.call)
    (moved : (called d s).phase = d.phase → e.ahead c (called d s) = r.map ListenerSlot.call) :
    e.Accounts c (called d s) := by
  obtain ⟨l, hdue, hl⟩ := h.rest
  have hl := hl live
  rw [ahead] at hl
  have hs : s.fn.isSome = true := h.intact s.call (by simp [hdue, hl])
  have hp : (called d s).phase = d.phase := by
    cases hf : s.fn with
    | none => simp [hf] at hs
    | some fn => simp [called, hf]
  refine ⟨⟨h.mode, h.listeners, h.raw⟩, h.intact, h.once, r.map ListenerSlot.call, ?_, ?_⟩
  · simp [called, hdue, hl]
  · intro _
    exact (moved hp).symm

/-- The dispatch moved on without a call. -/
theorem Accounts.moves (h : e.Accounts c d) (live : d.phase ≠ .stopped)
    (due : d'.due = d.due) (invoked : d'.invoked = d.invoked) (holds : e.Holds d')
    (same : e.ahead c d' = e.ahead c d) : e.Accounts c d' := by
  obtain ⟨l, hdue, hl⟩ := h.rest
  refine ⟨holds, due ▸ h.intact, due ▸ h.once, l, ?_, ?_⟩
  · rw [due, invoked, hdue]
  · intro _
    rw [hl live, same]

theorem drop_of_getElem? {l : List ListenerSlot} {n : Nat} {s : ListenerSlot} (h : l[n]? = some s) :
    l.drop n = s :: l.drop (n + 1) := by
  obtain ⟨hn, rfl⟩ := List.getElem?_eq_some_iff.mp h
  exact List.drop_eq_getElem_cons hn

theorem drop_of_getElem?_none {l : List ListenerSlot} {n : Nat} (h : l[n]? = none) :
    l.drop n = [] := List.drop_eq_nil_of_le (List.getElem?_eq_none_iff.mp h)

theorem typedDone_accounts (h : e.Accounts c d) (hp : d.phase = .typed)
    (hn : (e.listeners.get d.listeners)[d.next]? = none) : e.Accounts c (typedDone e d) := by
  have live : d.phase ≠ .stopped := by rw [hp]; decide
  have hd := drop_of_getElem?_none hn
  have mode : (typedDone e d).mode = e.mode := by rw [← h.mode]; unfold typedDone; split <;> rfl
  have listeners : (typedDone e d).listeners = d.listeners := by unfold typedDone; split <;> rfl
  have raw : (typedDone e d).raw < e.raw.vectors.length := by
    unfold typedDone
    split
    · exact h.raw
    · exact h.raw
    · exact e.raw.bound
    · exact h.raw
    · exact h.raw
  refine h.moves live ?_ ?_ ⟨mode, listeners ▸ h.listeners, raw⟩ ?_
  · unfold typedDone; split <;> rfl
  · unfold typedDone; split <;> rfl
  · unfold typedDone
    split <;> next hm => simp [ahead, hp, hd, rawAhead, hm, ListenerStore.now]

theorem typedDone_event : (typedDone e d).event = d.event := by
  unfold typedDone; split <;> rfl

theorem advance_event {t : Option Token} (hx : advance c e d = some (d', t)) : d'.event = d.event := by
  unfold advance at hx
  split at hx
  · split at hx
    · split at hx <;> (cases hx; rfl)
    · cases hx; exact typedDone_event
  · split at hx <;> (cases hx; rfl)
  · cases hx
  · cases hx

theorem advance_accounts {t : Option Token} (h : e.Accounts c d)
    (hx : advance c e d = some (d', t)) : e.Accounts c d' := by
  unfold advance at hx
  cases hp : d.phase with
  | typed =>
      have live : d.phase ≠ .stopped := by rw [hp]; decide
      simp only [hp] at hx
      cases hs : (e.listeners.get d.listeners)[d.next]? with
      | none =>
          simp only [hs] at hx
          cases hx
          exact typedDone_accounts h hp hs
      | some s =>
          have hdrop := drop_of_getElem? hs
          simp only [hs] at hx
          split at hx
          · next hdel =>
              cases hx
              refine h.calls (r := ((e.listeners.get d.listeners).drop (d.next + 1)).filter
                (deliver c d.event d.scope) ++ e.rawAhead d) live ?_ ?_
              · simp [ahead, hp, hdrop, hdel]
              · intro hphase
                simp only [ahead, hphase, hp]
                simp [called, rawAhead]
          · next hdel =>
              cases hx
              refine h.moves live rfl rfl ⟨h.mode, h.listeners, h.raw⟩ ?_
              simp [ahead, hp, hdrop, hdel, rawAhead]
  | raw =>
      have live : d.phase ≠ .stopped := by rw [hp]; decide
      simp only [hp] at hx
      cases hs : (e.raw.get d.raw)[d.next]? with
      | none =>
          have hdrop := drop_of_getElem?_none hs
          simp only [hs] at hx
          cases hx
          refine h.moves live rfl rfl ⟨h.mode, h.listeners, h.raw⟩ ?_
          simp [ahead, hp, hdrop]
      | some s =>
          have hdrop := drop_of_getElem? hs
          simp only [hs] at hx
          cases hx
          refine h.calls (r := (e.raw.get d.raw).drop (d.next + 1)) live ?_ ?_
          · simp [ahead, hp, hdrop]
          · intro hphase
            simp only [ahead, hphase, hp]
            simp [called]
  | finished | stopped => simp [hp] at hx

end

/-! Entries -/

def slots (e : EventEntry) : List ListenerSlot := e.listeners.now ++ e.raw.now

/-- The current slots hold their callables, under distinct tokens already drawn. -/
structure Sound (e : EventEntry) (bound : Token) : Prop where
  intact : ∀ s ∈ e.slots, s.fn.isSome = true
  drawn : ∀ s ∈ e.slots, s.token < bound
  distinct : (e.slots.map (·.token)).Nodup

section
variable {e e' : EventEntry} {bound token : Token} {slot : ListenerSlot}

theorem Sound.mono (h : e.Sound bound) {bound' : Token} (hb : bound ≤ bound') : e.Sound bound' :=
  ⟨h.intact, fun s hs => Nat.lt_of_lt_of_le (h.drawn s hs) hb, h.distinct⟩

theorem Sound.grows (h : e.Sound bound) (perm : e'.slots.Perm (slot :: e.slots))
    (token : slot.token = bound) (fn : slot.fn.isSome = true) : e'.Sound (bound + 1) where
  intact s hs := by
    rcases List.mem_cons.mp (perm.mem_iff.mp hs) with rfl | hs
    · exact fn
    · exact h.intact s hs
  drawn s hs := by
    rcases List.mem_cons.mp (perm.mem_iff.mp hs) with rfl | hs
    · exact token ▸ Nat.lt_succ_self _
    · exact Nat.lt_succ_of_lt (h.drawn s hs)
  distinct := by
    refine (perm.map _).nodup_iff.mpr (List.nodup_cons.mpr ⟨?_, h.distinct⟩)
    intro hmem
    obtain ⟨s, hs, heq⟩ := List.mem_map.mp hmem
    exact absurd (h.drawn s hs) (Nat.not_lt.mpr (token ▸ heq ▸ Nat.le_refl _))

theorem slots_add (atFront : Bool) : (e.add slot atFront).slots.Perm (slot :: e.slots) := by
  have hn : (e.add slot atFront).slots =
      (if atFront then slot :: e.listeners.now else e.listeners.now ++ [slot]) ++ e.raw.now := by
    simp [slots, add]
  rw [hn]
  split
  · exact .refl _
  · simp only [slots, List.append_assoc, List.singleton_append]
    exact List.perm_middle

theorem slots_addRaw : (e.addRaw slot).slots.Perm (slot :: e.slots) := by
  have hn : (e.addRaw slot).slots = e.slots ++ [slot] := by simp [slots, addRaw]
  rw [hn]
  exact List.perm_append_singleton _ _

theorem slots_remove : (e.remove token).slots = e.slots.filter fun s => s.token != token := by
  simp [slots, remove, ListenerStore.kept]

theorem Sound.remove (h : e.Sound bound) : (e.remove token).Sound bound where
  intact s hs := h.intact s (List.mem_of_mem_filter (slots_remove ▸ hs))
  drawn s hs := h.drawn s (List.mem_of_mem_filter (slots_remove ▸ hs))
  distinct := by
    rw [slots_remove]
    exact h.distinct.sublist (List.filter_sublist.map _)

theorem sound_new (mode : DispatchMode) : EventEntry.Sound { mode } bound := by
  constructor <;> simp [slots, ListenerStore.now, ListenerStore.get]

end

/-! The start of a dispatch -/

section
variable {c : Contexts} {e : EventEntry} {id : ServiceId} {scope : Option ScopeId} {bound : Token}
  {d : Dispatch}

theorem delivering_intact (h : e.Sound bound) :
    ∀ call ∈ e.delivering c id scope, call.2.isSome = true := by
  intro call hcall
  obtain ⟨s, hs, rfl⟩ := List.mem_map.mp hcall
  refine h.intact s ?_
  rcases List.mem_append.mp hs with hs | hs
  · exact List.mem_append_left _ (List.mem_of_mem_filter hs)
  · split at hs
    · exact List.mem_append_right _ hs
    · cases hs

theorem delivering_once (h : e.Sound bound) : ((e.delivering c id scope).map Prod.fst).Nodup := by
  have sub : (e.listeners.now.filter (deliver c id scope) ++
      if reachesRaw e.mode then e.raw.now else []).Sublist e.slots := by
    refine List.filter_sublist.append ?_
    split
    · exact .refl _
    · exact List.nil_sublist _
  have tokens : (e.delivering c id scope).map Prod.fst =
      (e.listeners.now.filter (deliver c id scope) ++
        if reachesRaw e.mode then e.raw.now else []).map (·.token) := by
    rw [delivering, List.map_map]
    rfl
  rw [tokens]
  exact h.distinct.sublist (sub.map _)

theorem started_accounts (h : e.Sound bound) (holds : e.Holds d)
    (due : d.due = e.delivering c d.event d.scope) (fresh : d.phase = .typed ∧ d.next = 0 ∧ d.invoked = [])
    (listeners : (e.listeners.get d.listeners).filter (deliver c d.event d.scope) =
      e.listeners.now.filter (deliver c d.event d.scope))
    (raw : d.raw = e.raw.current) : e.Accounts c d := by
  obtain ⟨hp, hn, hi⟩ := fresh
  refine ⟨holds, due ▸ delivering_intact h, due ▸ delivering_once h, d.due, by simp [hi], ?_⟩
  intro _
  have hraw : e.rawAhead d = if reachesRaw e.mode then e.raw.now else [] := by
    rw [rawAhead, ← holds.mode, raw]
    cases d.mode <;> rfl
  simp only [due, delivering, ahead, hp, hn, List.drop_zero, listeners, hraw]

end

end EventEntry

namespace EventBus
open EventEntry

/-! The runs a removal does not disturb -/

def Spares (c : Contexts) (b : EventBus) (id : ServiceId) (token : Token) : Prop :=
  ∀ e ∈ b.entries.find? id, ∀ d ∈ b.dispatches, d.event = id → e.Spares c token d

/-- Removals spare the dispatches in flight, a serial dispatch reads the raw
listeners it started with, and a waterfall listener calls its continuation once. -/
def Quiet (c : Contexts) (b : EventBus) : BusOp → Prop
  | .removeListener id token => b.Spares c id token
  | .visit n => ∀ r ∈ b.visiting c n, ∀ t ∈ r.2, r.1.Spares c t.1 t.2
  | .addRawListener id _ _ _ =>
    ∀ d ∈ b.dispatches, d.event = id → ¬(d.mode = .serial ∧ d.phase = .typed)
  | .callAgain _ _ => False
  | .addListener .. | .dispatch .. | .stop _ => True

instance (c : Contexts) (b : EventBus) (id : ServiceId) (token : Token) :
    Decidable (b.Spares c id token) :=
  inferInstanceAs (Decidable (∀ e ∈ b.entries.find? id, ∀ d ∈ b.dispatches, d.event = id → e.Spares c token d))

instance (c : Contexts) (b : EventBus) : (o : BusOp) → Decidable (b.Quiet c o)
  | .removeListener id token => inferInstanceAs (Decidable (b.Spares c id token))
  | .visit n => inferInstanceAs (Decidable (∀ r ∈ b.visiting c n, ∀ t ∈ r.2, r.1.Spares c t.1 t.2))
  | .addRawListener id _ _ _ =>
    inferInstanceAs (Decidable (∀ d ∈ b.dispatches, d.event = id → ¬(d.mode = .serial ∧ d.phase = .typed)))
  | .callAgain _ _ => inferInstanceAs (Decidable False)
  | .addListener .. | .dispatch .. | .stop _ => inferInstanceAs (Decidable True)

/-! The account of the bus -/

structure Accounted (c : Contexts) (b : EventBus) : Prop where
  entries : ∀ id e, b.entries.find? id = some e → e.Sound b.nextToken
  dispatches : ∀ d ∈ b.dispatches, ∃ e, b.entries.find? d.event = some e ∧ e.Accounts c d

section
variable {c : Contexts} {b b' : EventBus}

/-- An entry may be replaced by one under which its dispatches stay accounted. -/
theorem Accounted.replace (h : b.Accounted c) {id : ServiceId} {e' : EventEntry} {next : Token}
    (hn : b.nextToken ≤ next) (sound : e'.Sound next)
    (keeps : ∀ e d, b.entries.find? id = some e → d ∈ b.dispatches → d.event = id → e.Accounts c d →
      e'.Accounts c d) :
    Accounted c ⟨b.entries.insert id e', next, b.dispatches⟩ where
  entries i e he := by
    rw [SortedMap.find?_insert] at he
    split at he
    · cases he; exact sound
    · exact (h.entries i e he).mono hn
  dispatches d hd := by
    obtain ⟨e, he, hacc⟩ := h.dispatches d hd
    by_cases hi : d.event = id
    · exact ⟨e', by simp [hi], keeps e d (hi ▸ he) hd hi hacc⟩
    · exact ⟨e, by simpa [hi] using he, hacc⟩

theorem addListener_accounted {id : ServiceId} {mode : DispatchMode} {fn : Callable} {owner : Nat}
    {opts : ListenerOptions} (h : b.Accounted c) (hx : b.addListener id mode fn owner opts = some b') :
    b'.Accounted c := by
  simp only [addListener] at hx
  split at hx
  · cases hx
    have sound : ((b.entries.find? id).getD { mode }).Sound b.nextToken := by
      cases he : b.entries.find? id with
      | none => exact sound_new mode
      | some e => exact h.entries id e he
    refine h.replace (Nat.le_succ _) (sound.grows (slots_add _) rfl rfl) ?_
    intro e d he _ _ hacc
    simp only [he, Option.getD_some]
    exact hacc.congr rfl (by simp [add]) (Nat.le_refl _) (ahead_add hacc.toHolds)
  · cases hx

theorem addRawListener_accounted {id : ServiceId} {mode : DispatchMode} {fn : Callable} {owner : Nat}
    (h : b.Accounted c) (quiet : b.Quiet c (.addRawListener id mode fn owner))
    (hx : b.addRawListener id mode fn owner = some b') : b'.Accounted c := by
  unfold addRawListener at hx
  split at hx
  · cases hx
  · split at hx
    · cases hx
    · next e he =>
        split at hx
        · cases hx
          refine h.replace (Nat.le_succ _) ((h.entries id e he).grows slots_addRaw rfl rfl) ?_
          intro e₀ d he₀ hd hid hacc
          cases he.symm.trans he₀
          exact hacc.congr rfl (Nat.le_refl _) (by simp [addRaw]) (ahead_addRaw hacc.toHolds (quiet d hd hid))
        · cases hx

theorem removeListener_accounted {id : ServiceId} {token : Token} (h : b.Accounted c)
    (spares : b.Spares c id token) : (b.removeListener id token).Accounted c := by
  unfold removeListener
  split
  · exact h
  · next e he =>
      refine h.replace (Nat.le_refl _) (h.entries id e he).remove ?_
      intro e₀ d he₀ hd hid hacc
      cases he.symm.trans he₀
      exact hacc.congr rfl (by simp [EventEntry.remove]) (by simp [EventEntry.remove])
        (ahead_remove hacc.toHolds (spares e he d hd hid))

theorem Accounted.start (h : b.Accounted c) {d : Dispatch} {e : EventEntry}
    (he : b.entries.find? d.event = some e) (hacc : e.Accounts c d) : (b.start d).Accounted c where
  entries := h.entries
  dispatches d' hd' := by
    rcases List.mem_append.mp hd' with hd' | hd'
    · exact h.dispatches d' hd'
    · rw [List.mem_singleton.mp hd']
      exact ⟨e, he, hacc⟩

theorem dispatch_accounted {id : ServiceId} {mode : DispatchMode} {scope : Option ScopeId}
    (h : b.Accounted c) (hx : b.dispatch c id mode scope = some b') : b'.Accounted c := by
  unfold dispatch at hx
  split at hx
  · cases hx; exact h
  · next e he =>
      split at hx
      · next hm =>
          have sound := h.entries id e he
          simp only at hx
          split at hx
          · cases hx
            have kept : Accounted c (b.setEntry id { e with
                listeners := e.listeners.keep (e.listeners.now.filter (deliver c id scope)) }) := by
              refine h.replace (Nat.le_refl _) ?_ ?_
              · have hs : slots { e with
                    listeners := e.listeners.keep (e.listeners.now.filter (deliver c id scope)) } =
                    e.slots := by simp [slots]
                exact ⟨hs ▸ sound.intact, hs ▸ sound.drawn, hs ▸ sound.distinct⟩
              · intro e₀ d he₀ _ _ hacc
                cases he.symm.trans he₀
                exact hacc.congr rfl (by simp) (Nat.le_refl _) (ahead_keep hacc.toHolds)
            have he' := SortedMap.find?_insert b.entries id id { e with
              listeners := e.listeners.keep (e.listeners.now.filter (deliver c id scope)) }
            rw [if_pos rfl] at he'
            refine kept.start he' ?_
            refine started_accounts (kept.entries id _ he')
              ⟨hm.symm, by simp, e.raw.bound⟩ ?_ ⟨rfl, rfl, rfl⟩ ?_ rfl
            · simp [delivering]
            · simp [ListenerStore.get_keep_new]
          · cases hx
            refine h.start he ?_
            exact started_accounts sound ⟨hm.symm, e.listeners.bound, e.raw.bound⟩ rfl ⟨rfl, rfl, rfl⟩ rfl rfl
      · cases hx

theorem Accounted.setDispatch (h : b.Accounted c) {n : Nat} {d d' : Dispatch} {e : EventEntry}
    (he : b.entries.find? d.event = some e) (event : d'.event = d.event) (hacc : e.Accounts c d') :
    (b.setDispatch n d').Accounted c where
  entries := h.entries
  dispatches a ha := by
    rcases List.mem_or_eq_of_mem_set ha with ha | rfl
    · exact h.dispatches a ha
    · exact ⟨e, event ▸ he, hacc⟩

theorem visiting_accounted {n : Nat} {r : EventBus × Option (ServiceId × Token)}
    (h : b.Accounted c) (hx : b.visiting c n = some r) : r.1.Accounted c := by
  unfold visiting at hx
  split at hx
  · cases hx
  · next d hd =>
      split at hx
      · cases hx
      · next e he =>
          obtain ⟨⟨d', t⟩, ha, rfl⟩ := Option.map_eq_some_iff.mp hx
          obtain ⟨e₀, he₀, hacc⟩ := h.dispatches d (List.mem_of_getElem? hd)
          cases he.symm.trans he₀
          exact h.setDispatch he (advance_event ha) (advance_accounts hacc ha)

theorem visit_accounted {n : Nat} (h : b.Accounted c) (quiet : b.Quiet c (.visit n))
    (hx : b.visit c n = some b') : b'.Accounted c := by
  obtain ⟨⟨b₁, t⟩, hv, rfl⟩ := Option.map_eq_some_iff.mp hx
  have h₁ := visiting_accounted h hv
  cases t with
  | none => exact h₁
  | some t => exact removeListener_accounted h₁ (quiet _ hv t rfl)

theorem stop_accounted {n : Nat} (h : b.Accounted c) (hx : b.stop n = some b') : b'.Accounted c := by
  unfold stop at hx
  split at hx
  · cases hx
  · next d hd =>
      split at hx
      · cases hx
        obtain ⟨e, he, hacc⟩ := h.dispatches d (List.mem_of_getElem? hd)
        obtain ⟨l, hdue, _⟩ := hacc.rest
        refine h.setDispatch (n := n) he rfl ⟨⟨hacc.mode, hacc.listeners, hacc.raw⟩, hacc.intact, hacc.once, l, hdue, ?_⟩
        intro hp
        exact absurd rfl hp
      · cases hx

theorem run_accounted {o : BusOp} (h : b.Accounted c) (quiet : b.Quiet c o)
    (hx : b.run c o = some b') : b'.Accounted c := by
  cases o with
  | addListener id mode fn owner opts => exact addListener_accounted h hx
  | addRawListener id mode fn owner => exact addRawListener_accounted h quiet hx
  | removeListener id token => cases hx; exact removeListener_accounted h quiet
  | dispatch id mode scope => exact dispatch_accounted h hx
  | visit n => exact visit_accounted h quiet hx
  | stop n => exact stop_accounted h hx
  | callAgain n i => exact quiet.elim

theorem accounted_reached (h : (busSystem c).Reached (Quiet c) b) : b.Accounted c := by
  refine h.invariant ?_ fun _ _ _ _ inv step quiet => run_accounted inv quiet step
  rintro b rfl
  exact ⟨fun id e he => (by cases he), fun d hd => (by cases hd)⟩

/-! What the calls of a dispatch are measured by -/

/-- A dispatch called what was due so far, each once and with its callable, and
nothing is left of it once it ran to its end. -/
structure Isolated (d : Dispatch) : Prop where
  order : d.invoked <+: d.due
  intact : ∀ call ∈ d.due, call.2.isSome = true
  once : (d.due.map Prod.fst).Nodup
  complete : d.phase = .finished → d.invoked = d.due

end

/-! Two schedules -/

end EventBus
end Araya
