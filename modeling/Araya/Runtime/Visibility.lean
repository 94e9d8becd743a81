import Araya.Runtime.Roster
import Araya.Runtime.Withdrawal

/-!
Who hears of a change. A notification takes up every fiber that declares the key, one after the other, and evaluates
it if the scope the notification names is on the chain of the fiber's own scope. A lookup also finds what a
pass-through scope handed to its parent, so a fiber in a scope beside the provider's resolves to the binding and is
passed over: of the fibers that resolve to a changed binding those are evaluated whose scope descends from the
provider's own.
-/

namespace Araya

/-- The lookup of a key from a scope ends at the slot that a context has for it in a realm. -/
def Contexts.Resolves (c : Contexts) (s : ScopeId) (k : ServiceId) (stored : ScopeId) (r : Realm) : Prop :=
  c.realmFor s k = r ∧ (c.findOn k r (c.tree.chain s)).map Prod.fst = some stored

instance (c : Contexts) (s : ScopeId) (k : ServiceId) (stored : ScopeId) (r : Realm) :
    Decidable (c.Resolves s k stored r) :=
  inferInstanceAs (Decidable (_ ∧ _))

theorem Contexts.Resolves.onChain {c : Contexts} {s stored : ScopeId} {k : ServiceId} {r : Realm}
    (h : c.Resolves s k stored r) : stored ∈ c.tree.chain s := by
  obtain ⟨⟨d, b⟩, found, rfl⟩ := Option.map_eq_some_iff.mp h.2
  exact (Contexts.findOn_some found).1

/-! Calls -/

/-- The arguments of a call of `notify`. -/
structure Notification where
  key : ServiceId
  scope : ScopeId
  realm : Realm

abbrev Notification.call (n : Notification) : Frame := .notify n.key n.scope n.realm

abbrev Notification.loop (n : Notification) (ids stale : List FiberId) : Frame :=
  .notifyLoop n.key n.scope n.realm ids stale

/-- The steps of a call made above `rest`, none of which throws. -/
def Inside (rest : List Frame) (u : EngineConfig) (a : Label Op) : Prop :=
  engine.NoThrow u a ∧ rest.length < u.stack.length

/-- A call of `notify` in a run, from its first step to the state it returns in. -/
structure NotifyCall (n : Notification) (rest : List Frame) (c e d : EngineConfig) : Prop where
  reached : engine.system.Reached (fun _ _ => True) c
  top : c.stack = n.call :: rest
  call : engine.next c .run = some e
  later : engine.system.Later (Inside rest) e d
  back : d.stack.length ≤ rest.length

/-- The step of a call in which its loop takes up the fiber. -/
structure TakesUp (n : Notification) (rest : List Frame) (e d : EngineConfig) (id : FiberId)
    (u v : EngineConfig) : Prop where
  before : engine.system.Later (Inside rest) e u
  turn : ∃ ids stale, u.stack = n.loop (id :: ids) stale :: rest
  step : engine.next u .run = some v
  after : engine.system.Later (Inside rest) v d

/-- The next call evaluates the fiber. -/
def Evaluates (id : FiberId) (v : EngineConfig) : Prop := ∃ fs, v.stack = .evaluate id :: fs

/-! Changes -/

/-- A change of the binding that a context stores for a key in a realm, with the
bindings before it. -/
structure Change where
  key : ServiceId
  stored : ScopeId
  realm : Realm
  before : SortedMap Slot Binding

namespace Change

/-- The step makes the change. -/
def MadeBy (ch : Change) (b b' : EngineConfig) : Prop :=
  ch.before = b.state.contexts.bindings ∧
    b'.state.contexts.bindings.find? (slot ch.stored ch.key ch.realm) ≠ ch.before.find? (slot ch.stored ch.key ch.realm)

/-- The fiber's own lookup resolves to the changed binding, before the change or now. -/
def Concerns (ch : Change) (rt : Runtime) (g : FiberRecord) : Prop :=
  { rt.contexts with bindings := ch.before }.Resolves g.scope ch.key ch.stored ch.realm ∨
    rt.contexts.Resolves g.scope ch.key ch.stored ch.realm

variable {ch : Change} {rt : Runtime} {g : FiberRecord}

theorem Concerns.realm (h : ch.Concerns rt g) : rt.contexts.realmFor g.scope ch.key = ch.realm :=
  h.elim (·.1) (·.1)

theorem Concerns.onChain (h : ch.Concerns rt g) : ch.stored ∈ rt.contexts.tree.chain g.scope := by
  obtain before | now := h
  · exact before.onChain
  · exact now.onChain

/-- The notification names the key and the realm of the binding, from a scope on
the chain of the fiber's own. -/
def Reaches (ch : Change) (n : Notification) (rt : Runtime) (g : FiberRecord) : Prop :=
  n.realm = ch.realm ∧ n.scope ∈ rt.contexts.tree.chain g.scope

end Change

/-- The call re-evaluates every mounted fiber that declares the key and resolves
to the changed binding when its turn comes. -/
def Notified (n : Notification) (ch : Change) (rest : List Frame) (c e d : EngineConfig) : Prop :=
  ∀ id f, c.state.find id = some f → n.key ∈ f.descriptor.injectKeys →
    (∃ u v, TakesUp n rest e d id u v) ∧
    ∀ u v g, TakesUp n rest e d id u v → u.state.find id = some g → ch.Concerns u.state g → Evaluates id v

/-! Turns -/

section
variable {k : ServiceId} {s : ScopeId} {r : Realm} {rest : List Frame} {u v d : EngineConfig} {id : FiberId}
  {ids stale : List FiberId}

/-- A turn evaluates the fiber or does not, and leaves the rest of the loop. -/
theorem turn_cases (top : u.stack = .notifyLoop k s r (id :: ids) stale :: rest) (step : engine.next u .run = some v) :
    ∃ stale', v = ⟨u.state, .notifyLoop k s r ids stale' :: rest⟩ ∨
      v = ⟨u.state, .evaluate id :: .notifyLoop k s r ids stale' :: rest⟩ := by
  simp only [StackMachine.next, top] at step
  obtain ⟨-, calls⟩ | ⟨g, -, ⟨-, calls⟩ | ⟨-, calls⟩⟩ := u.state.notifyLoop_cases k s r id ids stale
  · have exec : engine.exec (.notifyLoop k s r (id :: ids) stale) u.state = _ := calls
    rw [exec] at step
    cases step
    exact ⟨_, .inl rfl⟩
  · have exec : engine.exec (.notifyLoop k s r (id :: ids) stale) u.state = _ := calls
    rw [exec] at step
    cases step
    exact ⟨_, .inr rfl⟩
  · have exec : engine.exec (.notifyLoop k s r (id :: ids) stale) u.state = _ := calls
    rw [exec] at step
    cases step
    exact ⟨_, .inl rfl⟩

/-- A turn evaluates the fiber exactly if its scope and realm let it see the change. -/
theorem evaluates_iff_sees (top : u.stack = .notifyLoop k s r (id :: ids) stale :: rest)
    (step : engine.next u .run = some v) {g : FiberRecord} (hf : u.state.find id = some g) :
    Evaluates id v ↔ u.state.sees g k s r = true := by
  simp only [StackMachine.next, top] at step
  obtain ⟨lost, -⟩ | ⟨g', found, ⟨seen, calls⟩ | ⟨unseen, calls⟩⟩ := u.state.notifyLoop_cases k s r id ids stale
  · rw [hf] at lost
    cases lost
  · cases hf.symm.trans found
    have exec : engine.exec (.notifyLoop k s r (id :: ids) stale) u.state = _ := calls
    rw [exec] at step
    cases step
    exact iff_of_true ⟨_, rfl⟩ seen
  · cases hf.symm.trans found
    have exec : engine.exec (.notifyLoop k s r (id :: ids) stale) u.state = _ := calls
    rw [exec] at step
    cases step
    refine iff_of_false ?_ (Bool.eq_false_iff.mp unseen)
    rintro ⟨fs, evaluated⟩
    cases evaluated

/-- Every fiber in the list of a loop gets its turn before the call returns. -/
theorem loop_turns {before after : List FiberId} {fs : List Frame}
    (pending : u.stack = fs ++ .notifyLoop k s r (before ++ id :: after) stale :: rest)
    (later : engine.system.Later (Inside rest) u d) (back : d.stack.length ≤ rest.length) :
    ∃ v w stale', engine.system.Later (Inside rest) u v ∧ v.stack = .notifyLoop k s r (id :: after) stale' :: rest ∧
      engine.next v .run = some w ∧ engine.system.Later (Inside rest) w d := by
  obtain ⟨v, w, first, top, step, ok, rest'⟩ := StackMachine.makes (fun _ _ h => h.1) pending later back
  induction before generalizing u fs stale v w with
  | nil => exact ⟨v, w, stale, first, top, step, rest'⟩
  | cons i before ih =>
      have continues (gs : List Frame) (stale' : List FiberId)
          (left : w.stack = gs ++ .notifyLoop k s r (before ++ id :: after) stale' :: rest) :
          ∃ v' w' stale'', engine.system.Later (Inside rest) u v' ∧
            v'.stack = .notifyLoop k s r (id :: after) stale'' :: rest ∧ engine.next v' .run = some w' ∧
            engine.system.Later (Inside rest) w' d := by
        obtain ⟨v', w', first', top', step', ok', rest''⟩ := StackMachine.makes (fun _ _ h => h.1) left rest' back
        obtain ⟨x, y, stale'', before', turn, next, after'⟩ := ih left rest' v' w' first' top' step' ok' rest''
        exact ⟨x, y, stale'', (first.step step ok).trans before', turn, next, after'⟩
      obtain ⟨stale', rfl | rfl⟩ := turn_cases top step
      · exact continues [] stale' rfl
      · exact continues [.evaluate i] stale' rfl

/-- The call has the listed fibers before it, or it is over. -/
theorem call_cases {c e : EngineConfig} (top : c.stack = .notify k s r :: rest) (call : engine.next c .run = some e) :
    c.state.consumersOf.find? k = none ∨
      ∃ all, c.state.consumersOf.find? k = some all ∧ e = ⟨c.state, .notifyLoop k s r all.toList [] :: rest⟩ := by
  simp only [StackMachine.next, top, engine, Runtime.exec, Runtime.notify] at call
  cases listed : c.state.consumersOf.find? k with
  | none => exact .inl rfl
  | some all =>
      rw [listed] at call
      cases call
      exact .inr ⟨all, rfl, rfl⟩

end

section
variable {n : Notification} {ch : Change} {rest : List Frame} {c d e u v : EngineConfig} {id : FiberId}

/-- The index lists every mounted fiber that declares the key, so each gets its turn. -/
theorem NotifyCall.takes_up (call : NotifyCall n rest c e d) {f : FiberRecord} (hf : c.state.find id = some f)
    (declares : n.key ∈ f.descriptor.injectKeys) : ∃ u v, TakesUp n rest e d id u v := by
  obtain ⟨all, listed, member⟩ := (enrolled_reached call.reached).1.lists id f hf n.key declares
  obtain unlisted | ⟨all', listed', rfl⟩ := call_cases call.top call.call
  · rw [listed] at unlisted
    cases unlisted
  · cases listed.symm.trans listed'
    obtain ⟨before, after, split⟩ := List.append_of_mem (SortedSet.mem_def.mp member)
    have pending : (⟨c.state, n.loop all.toList [] :: rest⟩ : EngineConfig).stack =
        [] ++ n.loop (before ++ id :: after) [] :: rest := by
      rw [← split]
      rfl
    obtain ⟨u, v, stale, first, turn, step, last⟩ := loop_turns pending call.later call.back
    exact ⟨u, v, first, ⟨after, stale, turn⟩, step, last⟩

/-- A fiber that resolves to the changed binding is evaluated in its turn exactly
if the notification reaches it. -/
theorem TakesUp.evaluates_iff (turn : TakesUp n rest e d id u v) (same : n.key = ch.key) {g : FiberRecord}
    (hf : u.state.find id = some g) (concerned : ch.Concerns u.state g) :
    Evaluates id v ↔ ch.Reaches n u.state g := by
  obtain ⟨ids, stale, top⟩ := turn.turn
  rw [evaluates_iff_sees top turn.step hf, Runtime.sees, same, concerned.realm, Bool.and_eq_true, beq_iff_eq]
  exact (and_congr decide_eq_true_iff eq_comm).trans and_comm

/-- A notification re-evaluates every mounted fiber that declares the key and
resolves to the changed binding, exactly if it reaches each of them. -/
theorem notified_iff_reaches (call : NotifyCall n rest c e d) (same : n.key = ch.key) :
    Notified n ch rest c e d ↔
      ∀ id f, c.state.find id = some f → n.key ∈ f.descriptor.injectKeys →
        ∀ u v g, TakesUp n rest e d id u v → u.state.find id = some g → ch.Concerns u.state g →
          ch.Reaches n u.state g := by
  constructor
  · intro notified id f hf declares u v g turn hg concerned
    exact (turn.evaluates_iff same hg concerned).mp ((notified id f hf declares).2 u v g turn hg concerned)
  · intro reaches id f hf declares
    refine ⟨call.takes_up hf declares, fun u v g turn hg concerned => ?_⟩
    exact (turn.evaluates_iff same hg concerned).mpr (reaches id f hf declares u v g turn hg concerned)

/-- A binding stored in the scope the notification names is announced to every fiber that resolves to it. -/
theorem NotifyCall.notified_of_own (call : NotifyCall n rest c e d) (same : n.key = ch.key) (realm : n.realm = ch.realm)
    (own : n.scope = ch.stored) : Notified n ch rest c e d := by
  intro id f hf declares
  refine ⟨call.takes_up hf declares, fun u v g turn hg concerned => ?_⟩
  exact (turn.evaluates_iff same hg concerned).mpr ⟨realm, own ▸ concerned.onChain⟩

/-- What a scope that is not pass-through binds, it stores itself. -/
theorem NotifyCall.notified_of_plain (call : NotifyCall n rest c e d) (same : n.key = ch.key)
    (realm : n.realm = ch.realm) (plain : c.state.contexts.tree.passThroughBind n.scope = false)
    (target : c.state.contexts.tree.bindTarget n.scope = some ch.stored) : Notified n ch rest c e d := by
  refine call.notified_of_own same realm ?_
  rw [ScopeTree.bindTarget, ScopeTree.chain_eq, List.find?_cons_of_pos (by simp [plain])] at target
  exact Option.some.inj target

end

/-! Announcements -/

section
variable {p : FiberId} {keys : List ServiceId} {fs rest : List Frame} {c d : EngineConfig}

/-- Each key the fiber provides is announced from the scope the fiber is in by
then, in the realm the key has there, as long as the fiber is mounted. -/
theorem provided_announced (pending : c.stack = fs ++ .notifyProvided p keys :: rest)
    (later : engine.system.Later (Inside rest) c d) (back : d.stack.length ≤ rest.length) :
    ∀ k ∈ keys, ∃ u v, engine.system.Later (Inside rest) c u ∧ engine.next u .run = some v ∧
      engine.system.Later (Inside rest) v d ∧
      (u.state.find p = none ∨ ∃ g ks, u.state.find p = some g ∧
        v = ⟨u.state, .notify k g.scope (u.state.contexts.realmFor g.scope k) :: .notifyProvided p ks :: rest⟩) := by
  obtain ⟨u, v, first, top, step, ok, last⟩ := StackMachine.makes (fun _ _ h => h.1) pending later back
  induction keys generalizing c fs u v with
  | nil => simp
  | cons key keys ih =>
      intro k hk
      have next := step
      simp only [StackMachine.next, top, engine, Runtime.exec, Runtime.notifyProvided] at next
      cases mounted : u.state.find p with
      | none => exact ⟨u, v, first, step, last, .inl mounted⟩
      | some g =>
          rw [mounted] at next
          cases next
          rcases List.mem_cons.mp hk with rfl | behind
          · exact ⟨u, _, first, step, last, .inr ⟨g, keys, mounted, rfl⟩⟩
          · have left : ([.notify key g.scope (u.state.contexts.realmFor g.scope key), .notifyProvided p keys] ++
                rest : List Frame) = [.notify key g.scope (u.state.contexts.realmFor g.scope key)] ++
                  .notifyProvided p keys :: rest := rfl
            obtain ⟨u', v', first', top', step', ok', last'⟩ := StackMachine.makes (fun _ _ h => h.1) left last back
            obtain ⟨x, y, before, made, after, outcome⟩ := ih left last u' v' first' top' step' ok' last' k behind
            exact ⟨x, y, (first.step step ok).trans before, made, after, outcome⟩

end
/-! Two scopes that share a realm -/

def inside? (n : Nat) (u : EngineConfig) (a : Label Op) : Bool :=
  decide (n < u.stack.length) &&
    match a, u.stack with
    | .run, fr :: _ =>
      match u.state.exec fr with
      | .call .. => true
      | .throw _ => false
    | _, _ => true

theorem inside_of_check (rest : List Frame) (u : EngineConfig) (a : Label Op) (h : inside? rest.length u a = true) :
    Inside rest u a := by
  obtain ⟨longer, returns⟩ := Bool.and_eq_true_iff.mp h
  refine ⟨?_, of_decide_eq_true longer⟩
  cases a with
  | op o => trivial
  | run =>
      intro fr below s' hst hx
      have threw : u.state.exec fr = .throw s' := hx
      rw [hst] at returns
      simp [threw] at returns

/-- A consumer and a provider of one key, mounted as entries with the same realm tags. -/
def besideEachOther (isolate : SortedMap String Realm) : List DesiredComponent :=
  [⟨"c", { descriptor := { name := "c", inject := [⟨⟨"a", 1⟩, true⟩] }, isolate }⟩,
    ⟨"p", { descriptor := { name := "p", provide := [⟨"a", 1⟩] }, isolate }⟩]

/-- The consumer is parked, and the provider has bound the key and is about to be published. -/
def upToPublication (isolate : SortedMap String Realm) : List (Label Op) :=
  [.op (.reconcile (besideEachOther isolate)), .run, .run, .run, .op (.deliver 0), .run, .run, .run,
    .op (.deliver 0), .run, .run, .run, .op (.provide 2 ⟨"a", 1⟩ 10 true)]

/-- The next call is the notification of the published binding, and the consumer resolves to it. -/
def announced (realm : Realm) (seen : Bool) (b c : EngineConfig) : Bool :=
  match c.stack with
  | .notify k s r :: rest =>
    k == ⟨"a", 1⟩ && r == realm && (b.state.find 2).any (·.scope == s) &&
      (c.state.find 1).any (fun g => g.descriptor.injectKeys.contains k && c.state.sees g k s r == seen &&
        decide (c.state.contexts.Resolves g.scope k 0 r)) &&
      (c.state.consumersOf.find? k).any (·.toList == [1]) &&
      (engine.next c .run).any fun e =>
        (System.follow engine.next (inside? rest.length) e (List.replicate (if seen then 3 else 2) .run)).any
          (·.stack.length == rest.length)
  | _ => false

def published (realm : Realm) (seen : Bool) (b : EngineConfig) : Bool :=
  (engine.next b (.op (.complete 2 none))).any fun b' =>
    b'.state.contexts.bindings.find? (slot 0 ⟨"a", 1⟩ realm) !=
        b.state.contexts.bindings.find? (slot 0 ⟨"a", 1⟩ realm) &&
      (engine.next b' .run).any (announced realm seen b)

theorem announced_cases {realm : Realm} {seen : Bool} {b c : EngineConfig} (h : announced realm seen b c = true) :
    ∃ s rest f g e d, c.stack = .notify ⟨"a", 1⟩ s realm :: rest ∧ b.state.find 2 = some f ∧ s = f.scope ∧
      c.state.find 1 = some g ∧ ⟨"a", 1⟩ ∈ g.descriptor.injectKeys ∧ c.state.sees g ⟨"a", 1⟩ s realm = seen ∧
      c.state.contexts.Resolves g.scope ⟨"a", 1⟩ 0 realm ∧
      e = ⟨c.state, .notifyLoop ⟨"a", 1⟩ s realm [1] [] :: rest⟩ ∧ engine.next c .run = some e ∧
      System.follow engine.next (inside? rest.length) e (List.replicate (if seen then 3 else 2) .run) = some d ∧
      d.stack.length = rest.length := by
  unfold announced at h
  split at h
  · next k s r rest top =>
      simp only [Bool.and_eq_true, beq_iff_eq] at h
      obtain ⟨⟨⟨⟨⟨rfl, rfl⟩, provider⟩, consumer⟩, alone⟩, call⟩ := h
      obtain ⟨f, hf, place⟩ := (Option.any_eq_true _ _).mp provider
      obtain ⟨g, hg, facts⟩ := (Option.any_eq_true _ _).mp consumer
      obtain ⟨all, listed, one⟩ := (Option.any_eq_true _ _).mp alone
      obtain ⟨e, he, returns⟩ := (Option.any_eq_true _ _).mp call
      obtain ⟨d, hd, back⟩ := (Option.any_eq_true _ _).mp returns
      simp only [Bool.and_eq_true, beq_iff_eq, List.contains_iff_mem, decide_eq_true_eq] at facts place one back
      obtain ⟨⟨declares, sees⟩, resolves⟩ := facts
      have loop : e = ⟨c.state, .notifyLoop ⟨"a", 1⟩ s r [1] [] :: rest⟩ := by
        obtain unlisted | ⟨all', listed', shape⟩ := call_cases top he
        · rw [listed] at unlisted
          cases unlisted
        · cases listed.symm.trans listed'
          rw [shape, one]
      exact ⟨s, rest, f, g, e, d, top, hf, place.symm, hg, declares, sees, resolves, loop, he, hd, back⟩
  · cases h

theorem published_cases {isolate : SortedMap String Realm} {realm : Realm} {seen : Bool}
    (played : (System.follow engine.next (fun _ _ => true) ⟨{}, []⟩ (upToPublication isolate)).any
      (published realm seen) = true) :
    ∃ b b' c, engine.system.Reached (fun _ _ => True) b ∧ engine.next b (.op (.complete 2 none)) = some b' ∧
      b'.state.contexts.bindings.find? (slot 0 ⟨"a", 1⟩ realm) ≠
        b.state.contexts.bindings.find? (slot 0 ⟨"a", 1⟩ realm) ∧
      engine.next b' .run = some c ∧ announced realm seen b c = true := by
  obtain ⟨b, hb, next⟩ := (Option.any_eq_true _ _).mp played
  obtain ⟨b', hb', both⟩ := (Option.any_eq_true _ _).mp next
  obtain ⟨changed, next⟩ := Bool.and_eq_true_iff.mp both
  obtain ⟨c, hc, heard⟩ := (Option.any_eq_true _ _).mp next
  have reached := System.follow_reached (S := engine.system) (P := fun _ _ => True) (fun _ _ _ h => h)
    (fun _ _ _ => trivial) hb (.start engine_start)
  exact ⟨b, b', c, reached, hb', bne_iff_ne.mp changed, hc, heard⟩

/-- Beside a provider in the root scope the consumer is evaluated. -/
theorem notified_iff_reaches_root : ∃ n ch rest c e d, NotifyCall n rest c e d ∧ n.key = ch.key ∧
    (∃ g, c.state.find 1 = some g ∧ n.key ∈ g.descriptor.injectKeys ∧ ch.Concerns c.state g) ∧
    (Notified n ch rest c e d ↔
      ∀ id f, c.state.find id = some f → n.key ∈ f.descriptor.injectKeys →
        ∀ u v g, TakesUp n rest e d id u v → u.state.find id = some g → ch.Concerns u.state g →
          ch.Reaches n u.state g) := by
  have played : (System.follow engine.next (fun _ _ => true) ⟨{}, []⟩ (upToPublication ∅)).any
      (published "" true) = true := by decide +kernel
  obtain ⟨b, b', c, reached, hb', -, hc, heard⟩ := published_cases played
  obtain ⟨s, rest, f, g, e, d, top, -, -, hg, declares, -, resolves, -, he, hd, back⟩ := announced_cases heard
  have later := System.follow_later (S := engine.system) (fun _ _ _ h => h) (inside_of_check rest) hd
  have call : NotifyCall ⟨⟨"a", 1⟩, s, ""⟩ rest c e d :=
    ⟨.step (.step reached hb' trivial) hc trivial, top, he, later, back.le⟩
  exact ⟨_, ⟨⟨"a", 1⟩, 0, "", b.state.contexts.bindings⟩, rest, c, e, d, call, rfl,
    ⟨g, hg, declares, .inr resolves⟩, notified_iff_reaches call rfl⟩

/-- A consumer whose entry shares a realm with its provider's resolves to the
published binding and is not evaluated. -/
theorem notified_beside : ¬ ∀ (n : Notification) (ch : Change) (p : FiberId) (f : FiberRecord) (b b' : EngineConfig)
    (rest : List Frame) (c e d : EngineConfig), engine.system.Reached (fun _ _ => True) b → b.state.find p = some f →
    engine.next b (.op (.complete p none)) = some b' → ch.MadeBy b b' →
    n = ⟨ch.key, f.scope, ch.realm⟩ → engine.system.Later (fun _ _ => True) b' c → NotifyCall n rest c e d →
    Notified n ch rest c e d := by
  intro complete
  have played : (System.follow engine.next (fun _ _ => true) ⟨{}, []⟩
      (upToPublication (SortedMap.insert ∅ "a" "r"))).any (published "r" false) = true := by decide +kernel
  obtain ⟨b, b', c, reached, hb', changed, hc, heard⟩ := published_cases played
  obtain ⟨s, rest, f, g, e, d, top, hf, place, hg, declares, unseen, resolves, loop, he, hd, back⟩ :=
    announced_cases heard
  have later := System.follow_later (S := engine.system) (fun _ _ _ h => h) (inside_of_check rest) hd
  have call : NotifyCall ⟨⟨"a", 1⟩, s, "r"⟩ rest c e d :=
    ⟨.step (.step reached hb' trivial) hc trivial, top, he, later, back.le⟩
  have notified := complete _ ⟨⟨"a", 1⟩, 0, "r", b.state.contexts.bindings⟩ 2 f b b' rest c e d reached hf hb'
    ⟨rfl, changed⟩ (by rw [place]) (.step .refl hc trivial) call
  simp only [Bool.false_eq_true, if_false, List.replicate, System.follow] at hd
  split at hd
  · obtain ⟨v, hv, next⟩ := Option.bind_eq_some_iff.mp hd
    have after := System.follow_later (S := engine.system) (fun _ _ _ h => h) (inside_of_check rest)
      (show System.follow engine.next (inside? rest.length) v [.run] = some d from next)
    have shape : e.stack = .notifyLoop ⟨"a", 1⟩ s "r" [1] [] :: rest := by rw [loop]
    have same : e.state = c.state := by rw [loop]
    have turn : TakesUp ⟨⟨"a", 1⟩, s, "r"⟩ rest e d 1 e v := ⟨.refl, ⟨[], [], shape⟩, hv, after⟩
    have evaluated := (notified 1 g hg declares).2 e v g turn (same ▸ hg) (.inr (same ▸ resolves))
    have seen := (evaluates_iff_sees shape hv (same ▸ hg)).mp evaluated
    rw [same, unseen] at seen
    cases seen
  · cases hd

end Araya
