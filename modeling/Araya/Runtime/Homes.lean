import Araya.Runtime.Routine

/-!
The homes of the bindings. In any tree of contexts the bindings of a mounted fiber are all stored where a binding made
in its scope goes, so a lookup from that scope finds each of them first: what its publication and its withdrawal mark,
and what its teardown takes back, is every binding it has.
-/

namespace Araya

/-! One home -/

namespace Contexts
variable {c : Contexts} {s d : ScopeId} {k k' : ServiceId} {r : Realm} {b : Binding} {id : FiberId}

/-- No binding is stored in a context that hands its bindings on. -/
def Targeted (c : Contexts) : Prop :=
  ∀ d k r b, c.bindings.find? (slot d k r) = some b → c.tree.passThroughBind d = false

/-- The bindings of the fiber are stored where a binding made in the scope goes. -/
def Housed (c : Contexts) (id : FiberId) (s : ScopeId) : Prop :=
  ∀ d k r b, c.bindings.find? (slot d k r) = some b → b.provider = id →
    c.tree.bindTarget s = some d ∧ r = c.realmFor s k

theorem bindTarget_stores {t : ScopeTree} (target : t.bindTarget s = some d) : t.passThroughBind d = false := by
  have found := List.find?_some target
  simpa using found

theorem Targeted.findOn (h : c.Targeted) {chain : List ScopeId}
    (first : chain.find? (fun e => !c.tree.passThroughBind e) = some d)
    (stored : c.bindings.find? (slot d k r) = some b) : c.findOn k r chain = some (d, b) := by
  induction chain with
  | nil => cases first
  | cons e es ih =>
      simp only [Contexts.findOn]
      cases found : c.bindings.find? (slot e k r) with
      | some b' =>
          rw [List.find?_cons_of_pos (by simp [h e k r b' found])] at first
          cases first
          rw [stored] at found
          cases found
          rfl
      | none =>
          refine ih ?_
          by_cases hands : c.tree.passThroughBind e = true
          · rwa [List.find?_cons_of_neg (by simp [hands])] at first
          · rw [List.find?_cons_of_pos (by simp [hands])] at first
            cases first
            rw [stored] at found
            cases found

/-- A lookup from its scope finds each binding of the fiber. -/
theorem Housed.found (h : c.Housed id s) (targeted : c.Targeted) (stored : c.bindings.find? (slot d k r) = some b)
    (own : b.provider = id) : c.findOn k (c.realmFor s k) (c.tree.chain s) = some (d, b) ∧ r = c.realmFor s k := by
  obtain ⟨target, realm⟩ := h d k r b stored own
  subst realm
  exact ⟨targeted.findOn target stored, rfl⟩

theorem Housed.lookup (h : c.Housed id s) (targeted : c.Targeted) (stored : c.bindings.find? (slot d k r) = some b)
    (own : b.provider = id) : c.lookup s k = some b := by
  rw [Contexts.lookup, lookupRealm, (h.found targeted stored own).1]
  rfl

/-- A write through a found binding changes the one slot it was found in. -/
theorem modifyLookup_slot (f : Binding → Binding) {e : ScopeId}
    (found : c.findOn k' (c.realmFor s k') (c.tree.chain s) = some (e, b)) :
    (c.modifyLookup s k' f).bindings.find? (slot d k r) =
      if slot d k r = slot e k' (c.realmFor s k') then some (f b) else c.bindings.find? (slot d k r) := by
  unfold modifyLookup
  rw [found]
  dsimp only
  rw [SortedMap.find?_insert]
  by_cases same : slot d k r = slot e k' (c.realmFor s k')
  · rw [if_pos same, if_pos same]
  · rw [if_neg same, if_neg same]

theorem Targeted.of_bindings {c' : Contexts} (h : c.Targeted) (tree : c'.tree = c.tree)
    (sub : ∀ t b, c'.bindings.find? t = some b → ∃ b', c.bindings.find? t = some b') : c'.Targeted := by
  intro d k r b stored
  obtain ⟨b', was⟩ := sub _ b stored
  rw [tree]
  exact h d k r b' was

theorem Housed.of_bindings {c' : Contexts} (h : c.Housed id s) (tree : c'.tree = c.tree) (realms : c'.realms = c.realms)
    (sub : ∀ t b, c'.bindings.find? t = some b → ∃ b', c.bindings.find? t = some b' ∧ b'.provider = b.provider) :
    c'.Housed id s := by
  intro d k r b stored own
  obtain ⟨b', was, same⟩ := sub _ b stored
  rw [tree, Runtime.realmFor_congr tree realms]
  exact h d k r b' was (same.trans own)

theorem modifyLookup_sub {f : Binding → Binding} (kept : ∀ b, (f b).provider = b.provider) (t : Slot) (b : Binding)
    (stored : (c.modifyLookup s k f).bindings.find? t = some b) :
    ∃ b', c.bindings.find? t = some b' ∧ b'.provider = b.provider := by
  unfold modifyLookup at stored
  split at stored
  · exact ⟨b, stored, rfl⟩
  · next e b' found =>
      dsimp only at stored
      rw [SortedMap.find?_insert] at stored
      split at stored
      · next same =>
          cases stored
          exact ⟨b', same ▸ (findOn_some found).2, (kept b').symm⟩
      · exact ⟨b, stored, rfl⟩

theorem bind_slot (b' : Binding) : (c.bind s k' b').bindings.find? (slot d k r) =
    if k = k' ∧ c.tree.bindTarget s = some d ∧ r = c.realmFor s k' then some b' else c.bindings.find? (slot d k r) := by
  unfold Contexts.bind bindRealm
  cases target : c.tree.bindTarget s with
  | none => rw [if_neg (by rintro ⟨-, none, -⟩; cases none)]
  | some t =>
      dsimp only
      rw [SortedMap.find?_insert]
      by_cases same : slot d k r = slot t k' (c.realmFor s k')
      · obtain ⟨rfl, rfl, rfl⟩ := slot_inj.mp same
        rw [if_pos rfl, if_pos ⟨rfl, rfl, rfl⟩]
      · rw [if_neg same, if_neg]
        rintro ⟨rfl, there, rfl⟩
        cases there
        exact same rfl

end Contexts

namespace Runtime
open Contexts

section
variable {c : Contexts} {s d : ScopeId} {k : ServiceId} {r : Realm} {id : FiberId} {state : ProviderState}
  {keys : List ServiceId}

theorem restate_provider (state : ProviderState) (b : Binding) : ({ b with state } : Binding).provider = b.provider := rfl

theorem markProvided_sub (t : Slot) (b : Binding) (stored : (markProvided c id s state keys).bindings.find? t = some b) :
    ∃ b', c.bindings.find? t = some b' ∧ b'.provider = b.provider := by
  induction keys generalizing c with
  | nil => exact ⟨b, stored, rfl⟩
  | cons key keys ih =>
      rw [markProvided_cons] at stored
      obtain ⟨b', was, same⟩ := ih stored
      split at was
      · exact ⟨b', was, same⟩
      · split at was
        · obtain ⟨b'', before, same'⟩ := modifyLookup_sub (restate_provider state) t b' was
          exact ⟨b'', before, same'.trans same⟩
        · exact ⟨b', was, same⟩

/-- A mark reaches every binding of the fiber under its keys, and no other. -/
theorem markProvided_slot (targeted : c.Targeted) (housed : c.Housed id s) :
    (markProvided c id s state keys).bindings.find? (slot d k r) =
      (c.bindings.find? (slot d k r)).map (marked id state keys k) := by
  induction keys generalizing c with
  | nil =>
      have same : marked id state [] k = fun b => b := funext fun b => if_neg fun h => List.not_mem_nil h.2
      rw [same, Option.map_id']
      rfl
  | cons key keys ih =>
      have finish {c' : Contexts} (targeted' : c'.Targeted) (housed' : c'.Housed id s)
          (one : c'.bindings.find? (slot d k r) = (c.bindings.find? (slot d k r)).map (marked id state [key] k)) :
          (markProvided c' id s state keys).bindings.find? (slot d k r) =
            (c.bindings.find? (slot d k r)).map (marked id state (key :: keys) k) := by
        rw [ih targeted' housed', one, Option.map_map]
        congr 1
        funext b
        by_cases own : b.provider = id <;> by_cases first : k = key <;> by_cases later : k ∈ keys <;>
          simp [marked, own, first, later]
      have idle (off : ∀ b, c.bindings.find? (slot d k r) = some b → ¬ (b.provider = id ∧ k = key)) :
          c.bindings.find? (slot d k r) = (c.bindings.find? (slot d k r)).map (marked id state [key] k) := by
        cases stored : c.bindings.find? (slot d k r) with
        | none => rfl
        | some b => rw [Option.map_some, marked, if_neg fun h => off b stored ⟨h.1, List.mem_singleton.mp h.2⟩]
      rw [markProvided_cons]
      cases found : c.lookup s key with
      | none =>
          refine finish targeted housed (idle ?_)
          rintro b stored ⟨own, rfl⟩
          rw [housed.lookup targeted stored own] at found
          cases found
      | some b =>
          dsimp only
          by_cases own : b.provider = id
          · rw [if_pos own]
            obtain ⟨⟨e, b'⟩, there, rfl⟩ := Option.map_eq_some_iff.mp found
            refine finish (targeted.of_bindings (modifyLookup_tree ..) fun t b₁ stored => ?_)
              (housed.of_bindings (modifyLookup_tree ..) (modifyLookup_realms ..) fun t b₁ stored => ?_) ?_
            · obtain ⟨b₂, before, -⟩ := modifyLookup_sub (restate_provider state) t b₁ stored
              exact ⟨b₂, before⟩
            · exact modifyLookup_sub (restate_provider state) t b₁ stored
            · rw [modifyLookup_slot _ there]
              split
              · next same =>
                  obtain ⟨rfl, rfl, rfl⟩ := slot_inj.mp same
                  rw [(findOn_some there).2, Option.map_some, marked, if_pos ⟨own, List.mem_singleton.mpr rfl⟩]
              · next away =>
                  refine idle ?_
                  rintro b₁ stored ⟨own', rfl⟩
                  obtain ⟨there', realm⟩ := housed.found targeted stored own'
                  rw [there] at there'
                  cases there'
                  exact away (by rw [realm])
          · rw [if_neg own]
            refine finish targeted housed (idle ?_)
            rintro b₁ stored ⟨own', rfl⟩
            rw [housed.lookup targeted stored own'] at found
            cases found
            exact own own'

end

section
variable {rt : Runtime} {id : FiberId} {f : FiberRecord}

/-- A teardown makes no binding. -/
theorem teardownOf_sub (t : Slot) (b : Binding) (stored : (rt.teardownOf id f).contexts.bindings.find? t = some b) :
    rt.contexts.bindings.find? t = some b := by
  unfold Runtime.teardownOf at stored
  split at stored
  · exact stored
  · next act _ =>
      unfold teardown at stored
      generalize act.effects.reverse = effects at stored
      induction effects generalizing rt with
      | nil => exact stored
      | cons e es ih =>
          rw [List.foldl_cons] at stored
          have was := ih stored
          cases e with
          | retireChild child => exact was
          | unbind key =>
              simp only [runEffect] at was
              split at was
              · exact was
              · split at was
                · exact unbind_sub was
                · exact was

end
/-! What the steps do to the bindings -/

/-- The activation of every fiber is in the fiber's scope, and every binding that a mounted fiber provides is under a
key it declares, where a binding made in its scope goes. -/
structure Placed (rt : Runtime) : Prop where
  activation : ∀ j f act, rt.find j = some f → f.activation = some act → act.scope = f.scope
  targeted : rt.contexts.Targeted
  declared : ∀ d k r b f, rt.contexts.bindings.find? (slot d k r) = some b → rt.find b.provider = some f → k ∈ f.provide
  housed : ∀ j f, rt.find j = some f → rt.contexts.Housed j f.scope

section
variable {rt rt' : Runtime} {fr : Frame} {fs : List Frame}

/-- A frame makes no binding; where an unload begins it marks all bindings of its fiber. -/
theorem Does.bindings (placed : rt.Placed) (d : rt.Does fr rt' fs) :
    (∀ t b, rt'.contexts.bindings.find? t = some b → rt.contexts.bindings.find? t = some b) ∧
        (∀ id r f, fr = .beginUnload id r → rt.find id = some f → f.state ≠ .active) ∨
      ∃ id r f, fr = .beginUnload id r ∧ rt.find id = some f ∧ f.state = .active ∧
        ∀ d k r, rt'.contexts.bindings.find? (slot d k r) =
          (rt.contexts.bindings.find? (slot d k r)).map (marked id .retiring f.provide k) := by
  cases d with
  | heardAll =>
      rw [dropStale_contexts]
      exact .inl ⟨fun t b stored => stored, fun id r f same => nomatch same⟩
  | gone none =>
      refine .inl ⟨fun t b stored => stored, fun id r f same hf => ?_⟩
      cases same
      cases none.symm.trans hf
  | raised hg hs =>
      refine .inl ⟨fun t b stored => stored, fun id r f same hf active => ?_⟩
      cases same
      cases hg.symm.trans hf
      simp [active] at hs
  | diverted hg hs =>
      refine .inl ⟨fun t b stored => stored, fun id r f same hf active => ?_⟩
      cases same
      cases hg.symm.trans hf
      simp [active] at hs
  | @withdrew id f g b _ hf hs hg hfs =>
      refine .inr ⟨id, b, f, rfl, hf, hs, fun d k r => ?_⟩
      obtain ⟨n, same⟩ := raiseReactivate_eq f b
      have marks : ((rt.set id (withdrawing g (rt.countInstalled g.consumers))).transitionStarted.markBindings id g
          .retiring).contexts = markProvided rt.contexts id f.scope .retiring f.provide := by
        rw [hg, same]
        rfl
      rw [marks]
      exact markProvided_slot placed.targeted (placed.housed id f hf)
  | @finished id f hf hs _ =>
      exact .inl ⟨fun t b stored => teardownOf_sub t b stored, fun id r f same => nomatch same⟩
  | _ => exact .inl ⟨fun t b stored => stored, fun id r f same => nomatch same⟩

/-- A publication marks all bindings of its fiber. -/
theorem publish_slot {id : FiberId} {f : FiberRecord} (targeted : rt.contexts.Targeted)
    (housed : rt.contexts.Housed id f.scope) (d : ScopeId) (k : ServiceId) (r : Realm) :
    (rt.publish id f).1.contexts.bindings.find? (slot d k r) =
      (rt.contexts.bindings.find? (slot d k r)).map (marked id .active f.provide k) := by
  obtain ⟨fibers, same⟩ := addConsumer_eq ((rt.markBindings id f .active).set id (activated f)) id f.committed.toList
  have marks : (rt.publish id f).1.contexts = markProvided rt.contexts id f.scope .active f.provide := by
    simp only [publish, same]
    rfl
  rw [marks]
  exact markProvided_slot targeted housed

/-- A call of the outside makes no binding that is active; where a fiber is published it marks all its bindings. -/
theorem Called.bindings {o : Op} (placed : rt.Placed) (d : rt.Called o rt' fs) :
    (∀ t b, rt'.contexts.bindings.find? t = some b → rt.contexts.bindings.find? t = some b) ∨
      (∃ id f, o = .complete id none ∧ rt.find id = some f ∧ f.state = .loading ∧ rt.publishes f none = true ∧
        ∀ d k r, rt'.contexts.bindings.find? (slot d k r) =
          (rt.contexts.bindings.find? (slot d k r)).map (marked id .active f.provide k)) ∨
      ∃ id key value available f, o = .provide id key value available ∧ rt.find id = some f ∧ key ∈ f.provide ∧
        ∀ d k r, rt'.contexts.bindings.find? (slot d k r) =
          if k = key ∧ rt.contexts.tree.bindTarget f.scope = some d ∧ r = rt.contexts.realmFor f.scope key then
            some ⟨some value, id, .loading, available⟩ else rt.contexts.bindings.find? (slot d k r) := by
  cases d with
  | mounted | absent | erased | retired | ignored => exact .inl fun t b stored => stored
  | @published id f _ hf loading published =>
      exact .inr (.inl ⟨id, f, rfl, hf, loading, published, @publish_slot { rt with applies := rt.applies.erase id } id f
        placed.targeted (placed.housed id f hf)⟩)
  | @failed id f ep _ _ hf due failed _ =>
      exact .inl fun t b stored => @teardownOf_sub { rt with applies := rt.applies.erase id } id f t b stored
  | @provided id key value available f act hf there declared _ =>
      refine .inr (.inr ⟨id, key, value, available, f, rfl, hf, declared, fun d k r => ?_⟩)
      rw [← placed.activation id f act hf there]
      exact bind_slot _

end

/-- A fiber keeps its component and its scope, and gets activations of its scope. -/
theorem Changed.scope {rt : Runtime} {id : FiberId} {f f' : FiberRecord} {call : Option Op}
    (h : rt.Changed id f call f') (placed : ∀ act, f.activation = some act → act.scope = f.scope) :
    f'.scope = f.scope ∧ ∀ act, f'.activation = some act → act.scope = f'.scope := by
  have mapped {g : Activation → Activation} (same : ∀ a, (g a).scope = a.scope) (act : Activation)
      (ha : f.activation.map g = some act) : act.scope = f.scope := by
    obtain ⟨a, there, rfl⟩ := Option.map_eq_some_iff.mp ha
    exact (same a).trans (placed a there)
  cases h with
  | same | noted | stopped | released | retired | enrolled | revived | opened | waited => exact ⟨rfl, placed⟩
  | loaded | stuck =>
      refine ⟨rfl, fun act ha => ?_⟩
      cases ha
      rfl
  | lapsed => exact ⟨rfl, fun act ha => nomatch ha⟩
  | raised b _ | diverted b _ =>
      obtain ⟨n, same⟩ := raiseReactivate_eq f b
      rw [same]
      exact ⟨rfl, placed⟩
  | withdrew b n _ =>
      obtain ⟨m, same⟩ := raiseReactivate_eq f b
      rw [same]
      exact ⟨rfl, mapped fun _ => rfl⟩
  | finished | activated => exact ⟨rfl, mapped fun _ => rfl⟩
  | failed ep =>
      obtain ⟨error, failed, same, -⟩ := applyOutcome_eq f ep
      rw [same]
      exact ⟨rfl, mapped fun _ => rfl⟩
  | tracked e there =>
      refine ⟨rfl, fun act' ha => ?_⟩
      cases ha
      have kept := placed _ there
      exact kept

end Runtime

/-! The routine runs -/

/-- What holds of the bindings in every routine run. -/
structure Homes (c : EngineConfig) : Prop extends Routine c where
  placed : c.state.Placed
  owners : ∀ t b, c.state.contexts.bindings.find? t = some b → b.state = .active →
    ∃ f, c.state.find b.provider = some f ∧ f.state = .active

section
variable {c c' : EngineConfig} {a : Label Op}

theorem homes_start (start : engine.system.start c) : Homes c := by
  have none (j : FiberId) (f : FiberRecord) : c.state.find j ≠ some f := by
    rw [Runtime.find, start.1.fibers]
    exact (Option.some_ne_none f).symm
  have unbound (t : Slot) (b : Binding) : c.state.contexts.bindings.find? t ≠ some b := by
    rw [start.1.bindings]
    exact (Option.some_ne_none b).symm
  exact ⟨routine_start start, ⟨fun j f act hf => absurd hf (none j f), fun d k r b stored => absurd stored (unbound _ b),
    fun d k r b f stored => absurd stored (unbound _ b), fun j f hf => absurd hf (none j f)⟩,
    fun t b stored => absurd stored (unbound t b)⟩

theorem routine_contexts (acts : RoutineActs c c' a) :
    c'.state.contexts.tree = c.state.contexts.tree ∧ c'.state.contexts.realms = c.state.contexts.realms := by
  cases acts with
  | ran _ d _ => exact d.contexts
  | threw _ _ _ _ _ _ set _ =>
      rw [set]
      exact ⟨rfl, rfl⟩
  | called _ _ d _ => exact d.contexts

/-- A binding of the next state was there before, with the same provider, or its provider has just made it under a key
it declares, where a binding made in its scope goes. -/
theorem binding_before (inv : Homes c) (acts : RoutineActs c c' a) (d : ScopeId) (k : ServiceId) (r : Realm) (b : Binding)
    (stored : c'.state.contexts.bindings.find? (slot d k r) = some b) :
    (∃ b', c.state.contexts.bindings.find? (slot d k r) = some b' ∧ b'.provider = b.provider) ∨
      ∃ f, c.state.find b.provider = some f ∧ k ∈ f.provide ∧ c.state.contexts.tree.bindTarget f.scope = some d ∧
        r = c.state.contexts.realmFor f.scope k := by
  have mapped {id : FiberId} {state : ProviderState} {keys : List ServiceId}
      (marks : c'.state.contexts.bindings.find? (slot d k r) =
        (c.state.contexts.bindings.find? (slot d k r)).map (Runtime.marked id state keys k)) :
      ∃ b', c.state.contexts.bindings.find? (slot d k r) = some b' ∧ b'.provider = b.provider := by
    rw [marks] at stored
    obtain ⟨b', was, rfl⟩ := Option.map_eq_some_iff.mp stored
    exact ⟨b', was, (Runtime.marked_provider b').symm⟩
  cases acts with
  | ran hst does _ =>
      obtain ⟨sub, -⟩ | ⟨id, q, f, -, -, -, marks⟩ := does.bindings inv.placed
      · exact .inl ⟨b, sub _ b stored, rfl⟩
      · exact .inl (mapped (marks d k r))
  | threw _ _ _ _ _ _ set _ =>
      rw [set] at stored
      exact .inl ⟨b, stored, rfl⟩
  | called hst _ called _ =>
      obtain sub | ⟨id, f, -, -, -, -, marks⟩ | ⟨id, key, value, available, f, -, hf, declared, made⟩ :=
        called.bindings inv.placed
      · exact .inl ⟨b, sub _ b stored, rfl⟩
      · exact .inl (mapped (marks d k r))
      · rw [made d k r] at stored
        split at stored
        · next here =>
            obtain ⟨rfl, target, realm⟩ := here
            cases stored
            exact .inr ⟨f, hf, declared, target, realm⟩
        · exact .inl ⟨b, stored, rfl⟩

theorem placed_step (inv : Homes c) (acts : RoutineActs c c' a) : c'.state.Placed := by
  obtain ⟨tree, realms⟩ := routine_contexts acts
  -- a fiber mounted by this step has no binding yet
  have older {d : ScopeId} {k : ServiceId} {r : Realm} {b : Binding} {f' : FiberRecord}
      (stored : c'.state.contexts.bindings.find? (slot d k r) = some b) (hf' : c'.state.find b.provider = some f') :
      ∃ f, c.state.find b.provider = some f ∧ f'.provide = f.provide ∧ f'.scope = f.scope := by
    obtain ⟨spec, -, -, fresh, -⟩ | ⟨f, _, hf, changed, -⟩ := routine_changed inv.toRoutine acts hf'
    · have drawn : b.provider < c.state.nextId := by
        obtain ⟨b', was, same⟩ | ⟨f, hf, -⟩ := binding_before inv acts d k r b stored
        · rw [← same]
          exact inv.wellFormed.bounded _ _ was
        · exact inv.known _ f hf
      exact absurd fresh (Nat.ne_of_lt drawn)
    · exact ⟨f, hf, changed.provide, (changed.scope fun act => inv.placed.activation _ f act hf).1⟩
  refine ⟨fun j f' act hf' ha => ?_, fun d k r b stored => ?_, fun d k r b f' stored hf' => ?_,
    fun j f' hf' d k r b stored own => ?_⟩
  · obtain ⟨spec, -, -, -, rfl⟩ | ⟨f, _, hf, changed, -⟩ := routine_changed inv.toRoutine acts hf'
    · cases ha
    · exact (changed.scope fun act => inv.placed.activation _ f act hf).2 act ha
  · rw [tree]
    obtain ⟨b', was, -⟩ | ⟨f, -, -, target, -⟩ := binding_before inv acts d k r b stored
    · exact inv.placed.targeted d k r b' was
    · exact Contexts.bindTarget_stores target
  · obtain ⟨f, hf, same, -⟩ := older stored hf'
    rw [same]
    obtain ⟨b', was, own⟩ | ⟨f₀, hf₀, declared, -⟩ := binding_before inv acts d k r b stored
    · exact inv.placed.declared d k r b' f was (own.symm ▸ hf)
    · cases hf.symm.trans hf₀
      exact declared
  · subst own
    obtain ⟨f, hf, -, same⟩ := older stored hf'
    rw [same, tree, Runtime.realmFor_congr tree realms]
    obtain ⟨b', was, own⟩ | ⟨f₀, hf₀, -, target, realm⟩ := binding_before inv acts d k r b stored
    · exact inv.placed.housed _ f hf d k r b' was own
    · cases hf.symm.trans hf₀
      exact ⟨target, realm⟩

/-- An active binding names an active fiber, and stays so while the stack runs. -/
theorem owners_kept (inv : Homes c) (acts : RoutineActs c c' a) (d : ScopeId) (k : ServiceId) (r : Realm) (b : Binding)
    (stored : c'.state.contexts.bindings.find? (slot d k r) = some b) (active : b.state = .active) :
    ∃ f, c'.state.find b.provider = some f ∧ f.state = .active := by
  cases acts with
  | @ran fr rest fs hst does hst' =>
      have stays (before : c.state.contexts.bindings.find? (slot d k r) = some b)
          (begins : ∀ q f, fr = .beginUnload b.provider q → c.state.find b.provider = some f → f.state ≠ .active) :
          ∃ f, c'.state.find b.provider = some f ∧ f.state = .active := by
        obtain ⟨f, hf, up⟩ := inv.owners _ b before active
        obtain ⟨f', hf', up', -⟩ | ⟨q, top⟩ | top := does.stays hf up
        · exact ⟨f', hf', up'⟩
        · exact absurd up (begins q f top hf)
        · exact absurd up (inv.toRoutine.erases_down (top ▸ hst) hf)
      obtain ⟨sub, idle⟩ | ⟨id, q, f, rfl, hf, up, marks⟩ := does.bindings inv.placed
      · exact stays (sub _ b stored) fun q f top hf => idle _ q f top hf
      · rw [marks d k r] at stored
        obtain ⟨b₀, before, rfl⟩ := Option.map_eq_some_iff.mp stored
        have off : b₀.provider ≠ id := by
          rintro rfl
          rw [Runtime.marked, if_pos ⟨rfl, inv.placed.declared d k r b₀ f before hf⟩] at active
          cases active
        rw [Runtime.marked, if_neg fun own => off own.1] at stays ⊢
        exact stays before fun q' f' top => absurd (Frame.beginUnload.inj top).1.symm off
  | @threw id rest f hst hf hs _ _ _ set _ =>
      rw [set] at stored ⊢
      obtain ⟨g, hg, up⟩ := inv.owners _ b stored active
      have other : b.provider ≠ id := by
        intro same
        rw [same, hf] at hg
        cases hg
        rw [hs] at up
        cases up
      exact ⟨g, (Runtime.find_set ..).trans ((if_neg other).trans hg), up⟩
  | @called o fs hst _ called hst' =>
      have stays (before : c.state.contexts.bindings.find? (slot d k r) = some b) :
          ∃ f, c'.state.find b.provider = some f ∧ f.state = .active := by
        obtain ⟨f, hf, up⟩ := inv.owners _ b before active
        obtain ⟨f', hf', up', -⟩ := called.stays inv.known hf up
        exact ⟨f', hf', up'⟩
      obtain sub | ⟨id, f, rfl, hf, loading, published, marks⟩ | ⟨id, key, value, available, f, rfl, hf, declared, made⟩ :=
        called.bindings inv.placed
      · exact stays (sub _ b stored)
      · rw [marks d k r] at stored
        obtain ⟨b₀, before, rfl⟩ := Option.map_eq_some_iff.mp stored
        by_cases own : b₀.provider = id ∧ k ∈ f.provide
        · obtain ⟨rfl, -⟩ := own
          obtain ⟨-, consumers, there⟩ := called.publishes hf loading published
          rw [Runtime.marked_provider]
          exact ⟨_, there, rfl⟩
        · rw [Runtime.marked, if_neg own] at stays active ⊢
          exact stays before
      · rw [made d k r] at stored
        split at stored
        · cases stored
          cases active
        · exact stays stored

theorem homes_step (inv : Homes c) (h : engine.next c a = some c') (ok : RoutineStep c a) : Homes c' := by
  have acts := routine_acts inv.toRoutine h ok
  exact ⟨routine_step inv.toRoutine h ok, placed_step inv acts, fun t b stored active =>
    owners_kept inv acts (ofLex t).1 (ofLex (ofLex t).2).1 (ofLex (ofLex t).2).2 b stored active⟩

theorem homes_reached {ok : EngineConfig → Label Op → Prop} (sub : ∀ c a, ok c a → RoutineStep c a)
    (h : engine.system.Reached ok c) : Homes c :=
  h.invariant (fun _ start => homes_start start) fun _ _ _ _ inv step good => homes_step inv step (sub _ _ good)

/-- In every routine run a binding that is active is one of an active fiber that declares its key, and a binding of a
mounted fiber is what a lookup from the fiber's scope finds, and the only one the fiber has under that key. -/
theorem bindings_homed (reached : engine.system.Reached RoutineStep c) (d : ScopeId) (k : ServiceId) (r : Realm)
    (b : Binding) (stored : c.state.contexts.bindings.find? (slot d k r) = some b) :
    (b.state = .active → ∃ f, c.state.find b.provider = some f ∧ f.state = .active ∧ k ∈ f.provide) ∧
      ∀ f, c.state.find b.provider = some f → k ∈ f.provide ∧ c.state.contexts.lookup f.scope k = some b ∧
        ∀ d' r' b', c.state.contexts.bindings.find? (slot d' k r') = some b' → b'.provider = b.provider →
          slot d' k r' = slot d k r := by
  have inv := homes_reached (fun _ _ ok => ok) reached
  refine ⟨fun active => ?_, fun f hf => ?_⟩
  · obtain ⟨f, hf, up⟩ := inv.owners _ b stored active
    exact ⟨f, hf, up, inv.placed.declared d k r b f stored hf⟩
  · have housed := inv.placed.housed _ f hf
    refine ⟨inv.placed.declared d k r b f stored hf, housed.lookup inv.placed.targeted stored rfl,
      fun d' r' b' stored' own => ?_⟩
    obtain ⟨target, rfl⟩ := housed d k r b stored rfl
    obtain ⟨target', rfl⟩ := housed d' k r' b' stored' own
    cases target.symm.trans target'
    rfl

end

/-! A run below the root -/

def Op.routine? (rt : Runtime) : Op → Bool
  | .mount _ | .retire _ | .complete .. => true
  | .provide id _ _ _ => (rt.find id).any fun f => f.phase == .loading || f.phase == .diverted
  | _ => false

def routineStep? (c : EngineConfig) : Label Op → Bool
  | .run => true
  | .op o => o.routine? c.state

theorem routineStep_of_check (c : EngineConfig) (a : Label Op) (h : routineStep? c a = true) : RoutineStep c a := by
  cases a with
  | run => trivial
  | op o =>
      cases o with
      | provide id key value available =>
          obtain ⟨f, hf, busy⟩ := (Option.any_eq_true _ _).mp h
          exact ⟨f, hf, by simpa using busy⟩
      | mount | retire | complete => trivial
      | _ => cases h

def isolatedStore : ComponentSpec :=
  { descriptor := { name := "store", provide := [⟨"db", 1⟩] }, parent := some 2 }

/-- The fiber lives in a context that hands its bindings on to the one above it. -/
theorem bindings_homed_below : ∃ c : EngineConfig, ∃ b, c.state.contexts.bindings.find? (slot 1 ⟨"db", 1⟩ "") = some b ∧
    (∃ f, c.state.find b.provider = some f ∧ f.state = .active) ∧ c.state.contexts.lookup 2 ⟨"db", 1⟩ = some b := by
  let fresh : Runtime := { contexts := { tree := (ScopeTree.root.add 0 false).add 1 true } }
  have played : (engine.play routineStep? 20 ⟨fresh, []⟩ [.mount isolatedStore, .provide 1 ⟨"db", 1⟩ 7 true,
      .complete 1 none]).any (fun c => (c.state.find 1).any fun f => f.scope == 2 &&
        (c.state.contexts.bindings.find? (slot 1 ⟨"db", 1⟩ "")).any fun b => b.provider == 1 && b.state == .active) = true := by
    decide +kernel
  obtain ⟨c, run, shown⟩ := (Option.any_eq_true _ _).mp played
  obtain ⟨f, hf, there⟩ := (Option.any_eq_true _ _).mp shown
  simp only [Bool.and_eq_true, beq_iff_eq] at there
  obtain ⟨scope, stored⟩ := there
  obtain ⟨b, hb, stands⟩ := (Option.any_eq_true _ _).mp stored
  simp only [Bool.and_eq_true, beq_iff_eq] at stands
  have reached := StackMachine.play_reached routineStep_of_check run
    (.start ⟨⟨rfl, rfl, rfl, rfl, rfl, rfl, rfl, rfl⟩, rfl⟩)
  obtain ⟨owned, housed⟩ := bindings_homed reached 1 ⟨"db", 1⟩ "" b hb
  obtain ⟨g, hg, up, -⟩ := owned stands.2
  obtain ⟨-, found, -⟩ := housed f (stands.1 ▸ hf)
  exact ⟨c, b, hb, ⟨g, hg, up⟩, scope ▸ found⟩

end Araya
