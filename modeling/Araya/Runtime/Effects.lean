import Araya.Runtime.Engine

/-!
What the functions of the runtime leave alone, and where the bindings of the
contexts come from: no function invents a provider.
-/

namespace Araya

/-! Bindings -/

namespace Contexts
variable {c : Contexts} {Q : ServiceId → Binding → Prop}

/-- Every binding satisfies a property that may depend on its key. -/
def Holds (c : Contexts) (Q : ServiceId → Binding → Prop) : Prop :=
  ∀ s k r b, c.bindings.find? (slot s k r) = some b → Q k b

theorem Holds.of_bindings {d : Contexts} (h : c.Holds Q) (hb : d.bindings = c.bindings) : d.Holds Q := by
  unfold Holds
  rw [hb]
  exact h

theorem Holds.bindRealm (h : c.Holds Q) {s : ScopeId} {k : ServiceId} {r : Realm} {b : Binding}
    (hb : Q k b) : (c.bindRealm s k r b).Holds Q := by
  unfold Contexts.bindRealm
  split
  · exact h
  · intro s' k' r' b' hf
    rw [SortedMap.find?_insert] at hf
    split at hf
    · next he =>
        cases hf
        exact (slot_inj.mp he).2.1 ▸ hb
    · exact h s' k' r' b' hf

theorem Holds.unbindRealm (h : c.Holds Q) (s : ScopeId) (k : ServiceId) (r : Realm) :
    (c.unbindRealm s k r).Holds Q := by
  unfold Contexts.unbindRealm
  split
  · exact h
  · intro s' k' r' b' hf
    rw [SortedMap.find?_erase] at hf
    split at hf
    · cases hf
    · exact h s' k' r' b' hf

theorem Holds.lookupRealm (h : c.Holds Q) {s : ScopeId} {k : ServiceId} {r : Realm} {b : Binding}
    (hb : c.lookupRealm s k r = some b) : Q k b := by
  obtain ⟨⟨d, b'⟩, hf, rfl⟩ := Option.map_eq_some_iff.mp hb
  exact h _ _ _ _ (findOn_some hf).2

theorem Holds.lookup (h : c.Holds Q) {s : ScopeId} {k : ServiceId} {b : Binding}
    (hb : c.lookup s k = some b) : Q k b :=
  h.lookupRealm hb

theorem Holds.modifyLookup (h : c.Holds Q) (s : ScopeId) (k : ServiceId) {f : Binding → Binding}
    (hf : ∀ b, c.lookup s k = some b → Q k b → Q k (f b)) : (c.modifyLookup s k f).Holds Q := by
  unfold Contexts.modifyLookup
  split
  · exact h
  · next d b hfind =>
      have found : c.lookup s k = some b := by
        unfold Contexts.lookup Contexts.lookupRealm
        rw [hfind]
        rfl
      intro s' k' r' b' hb'
      rw [SortedMap.find?_insert] at hb'
      split at hb'
      · next he =>
          cases hb'
          exact (slot_inj.mp he).2.1 ▸ hf b found (h.lookup found)
      · exact h s' k' r' b' hb'

/-! Providers -/

section
variable {P : FiberId → Prop}

/-- Every binding's provider satisfies a property. -/
def Providers (c : Contexts) (P : FiberId → Prop) : Prop :=
  ∀ s b, c.bindings.find? s = some b → P b.provider

theorem providers_iff : c.Providers P ↔ c.Holds fun _ b => P b.provider :=
  ⟨fun h _ _ _ _ hb => h _ _ hb, fun h s b hb => h (ofLex s).1 (ofLex (ofLex s).2).1 (ofLex (ofLex s).2).2 b hb⟩

theorem Providers.mono {Q : FiberId → Prop} (h : c.Providers P) (sub : ∀ p, P p → Q p) :
    c.Providers Q :=
  fun s b hb => sub _ (h s b hb)

theorem Providers.of_bindings {d : Contexts} (h : c.Providers P) (hb : d.bindings = c.bindings) :
    d.Providers P :=
  providers_iff.mpr ((providers_iff.mp h).of_bindings hb)

theorem Providers.bindRealm (h : c.Providers P) {s : ScopeId} {k : ServiceId} {r : Realm}
    {b : Binding} (hb : P b.provider) : (c.bindRealm s k r b).Providers P :=
  providers_iff.mpr ((providers_iff.mp h).bindRealm hb)

theorem Providers.lookup (h : c.Providers P) {s : ScopeId} {k : ServiceId} {b : Binding}
    (hb : c.lookup s k = some b) : P b.provider :=
  (providers_iff.mp h).lookup hb

theorem Providers.modifyLookup (h : c.Providers P) (s : ScopeId) (k : ServiceId)
    {f : Binding → Binding} (hf : ∀ b, (f b).provider = b.provider) :
    (c.modifyLookup s k f).Providers P :=
  providers_iff.mpr ((providers_iff.mp h).modifyLookup s k fun b _ hb => (hf b).symm ▸ hb)

end
end Contexts

namespace Runtime
open Contexts

section
variable {Q : ServiceId → Binding → Prop} {c : Contexts}

theorem holds_markProvided (h : c.Holds Q) (id : FiberId) (scope : ScopeId) {state : ProviderState}
    (keys : List ServiceId) (marked : ∀ k ∈ keys, ∀ b, Q k b → b.provider = id → Q k { b with state }) :
    (markProvided c id scope state keys).Holds Q := by
  induction keys generalizing c with
  | nil => exact h
  | cons k ks ih =>
      refine ih ?_ fun k' hk' => marked k' (List.mem_cons_of_mem _ hk')
      dsimp only
      split
      · exact h
      · next b hb =>
          split
          · next own =>
              refine h.modifyLookup _ _ fun b' hb' hq => ?_
              cases hb.symm.trans hb'
              exact marked k List.mem_cons_self b hq own
          · exact h

theorem holds_moveBindings (h : c.Holds Q) (id : FiberId) (oldScope scope : ScopeId)
    (keys : List (ServiceId × Realm)) : (moveBindings c id oldScope scope keys).1.Holds Q := by
  induction keys generalizing c with
  | nil => exact h
  | cons e es ih =>
      obtain ⟨k, oldRealm⟩ := e
      simp only [moveBindings]
      split
      · exact ih h
      · next b hb =>
          split_ifs
          · exact ih h
          · exact ih h
          · exact ih h
          · exact ih ((h.bindRealm (h.lookupRealm hb)).unbindRealm _ _ _)

theorem holds_teardownOf {rt : Runtime} (h : rt.contexts.Holds Q) (id : FiberId) (f : FiberRecord) :
    (rt.teardownOf id f).contexts.Holds Q := by
  unfold teardownOf
  split
  · exact h
  · next act _ =>
      unfold teardown
      induction act.effects.reverse generalizing rt with
      | nil => exact h
      | cons e es ih =>
          refine ih ?_
          cases e with
          | unbind k =>
              simp only [runEffect]
              split
              · exact h
              · split
                · exact h.unbindRealm _ _ _
                · exact h
          | retireChild child => exact h

theorem providers_markProvided {P : FiberId → Prop} (h : c.Providers P) (id : FiberId) (scope : ScopeId)
    (state : ProviderState) (keys : List ServiceId) : (markProvided c id scope state keys).Providers P :=
  providers_iff.mpr (holds_markProvided (providers_iff.mp h) id scope keys fun _ _ _ hb _ => hb)

theorem providers_moveBindings {P : FiberId → Prop} (h : c.Providers P) (id : FiberId)
    (oldScope scope : ScopeId) (keys : List (ServiceId × Realm)) :
    (moveBindings c id oldScope scope keys).1.Providers P :=
  providers_iff.mpr (holds_moveBindings (providers_iff.mp h) id oldScope scope keys)

theorem providers_teardownOf {P : FiberId → Prop} {rt : Runtime} (h : rt.contexts.Providers P)
    (id : FiberId) (f : FiberRecord) : (rt.teardownOf id f).contexts.Providers P :=
  providers_iff.mpr (holds_teardownOf (providers_iff.mp h) id f)

end

/-! Scopes -/

theorem bindings_isolateAll (c : Contexts) (s : ScopeId) (tags : List (String × Realm)) :
    (isolateAll c s tags).bindings = c.bindings := by
  induction tags generalizing c with
  | nil => rfl
  | cons t ts ih => exact ih _

theorem bindings_unisolateDropped (c : Contexts) (s : ScopeId) (isolate : SortedMap String Realm)
    (applied : List (String × Realm)) :
    (unisolateDropped c s isolate applied).bindings = c.bindings := by
  induction applied generalizing c with
  | nil => rfl
  | cons t ts ih =>
      refine (ih _).trans ?_
      dsimp only
      split <;> rfl

/-! Teardown -/

section
variable (rt : Runtime) (id : FiberId) (act : Activation)

theorem runEffect_eq (scope : ScopeId) (e : Effect) :
    ∃ c p, runEffect id scope rt e = { rt with contexts := c, posted := p } := by
  cases e with
  | unbind k =>
      simp only [runEffect]
      split
      · exact ⟨rt.contexts, rt.posted, rfl⟩
      · split
        · exact ⟨_, rt.posted, rfl⟩
        · exact ⟨rt.contexts, rt.posted, rfl⟩
  | retireChild child => exact ⟨rt.contexts, _, rfl⟩

/-- A teardown touches the contexts and the posted handlers, nothing else. -/
theorem teardown_eq : ∃ c p, rt.teardown id act = { rt with contexts := c, posted := p } := by
  unfold teardown
  induction act.effects.reverse generalizing rt with
  | nil => exact ⟨rt.contexts, rt.posted, rfl⟩
  | cons e es ih =>
      obtain ⟨c, p, h⟩ := runEffect_eq rt id act.scope e
      obtain ⟨c', p', h'⟩ := ih (runEffect id act.scope rt e)
      refine ⟨c', p', ?_⟩
      rw [List.foldl_cons, h', h]

theorem teardownOf_eq (f : FiberRecord) :
    ∃ c p, rt.teardownOf id f = { rt with contexts := c, posted := p } := by
  unfold teardownOf
  split
  · exact ⟨rt.contexts, rt.posted, rfl⟩
  · exact teardown_eq rt id _

end

@[simp] theorem teardownOf_find (rt : Runtime) (id j : FiberId) (f : FiberRecord) :
    (rt.teardownOf id f).find j = rt.find j := by
  obtain ⟨c, p, h⟩ := teardownOf_eq rt id f
  rw [h]
  rfl

/-! Consumers -/

theorem addConsumer_find (rt : Runtime) (id : FiberId) (es : List (ServiceId × FiberId))
    (j : FiberId) : (rt.addConsumer id es).find j = (rt.find j).map fun p =>
      if j ∈ es.map Prod.snd then { p with consumers := p.consumers.insert id } else p := by
  induction es generalizing rt with
  | nil => simp [addConsumer]
  | cons e es ih =>
      have step : rt.addConsumer id (e :: es) = (rt.addConsumer id [e]).addConsumer id es := rfl
      rw [step, ih]
      simp only [addConsumer, List.foldl_cons, List.foldl_nil, List.map_cons, List.mem_cons]
      cases he : rt.find e.2 with
      | none =>
          by_cases hj : j = e.2
          · rw [hj, he]; rfl
          · simp only [hj, false_or]
      | some p =>
          by_cases hj : j = e.2
          · subst hj
            by_cases hin : e.2 ∈ es.map Prod.snd <;>
              simp [he, hin, SortedSet.insert_of_mem]
          · simp only [find_set, hj, if_false, false_or]

theorem addConsumer_eq (rt : Runtime) (id : FiberId) (es : List (ServiceId × FiberId)) :
    ∃ fs, rt.addConsumer id es = { rt with fibers := fs } := by
  unfold addConsumer
  induction es generalizing rt with
  | nil => exact ⟨rt.fibers, rfl⟩
  | cons e es ih =>
      rw [List.foldl_cons]
      split
      · exact ih rt
      · obtain ⟨fs, h⟩ := ih (rt.set e.2 _)
        exact ⟨fs, h⟩

/-! Reconcile -/

theorem entryCtx_eq (rt : Runtime) (path : String) (base : ScopeId) :
    ∃ c m, c.bindings = rt.contexts.bindings ∧
      (rt.entryCtx path base).1 = { rt with contexts := c, entryCtxs := m } := by
  unfold entryCtx
  dsimp only
  split
  · exact ⟨rt.contexts, rt.entryCtxs, rfl, rfl⟩
  · refine ⟨_, _, ?_, rfl⟩
    rfl

theorem entryScopeFor_eq (rt : Runtime) (path : String) (spec : ComponentSpec) :
    ∃ c m n, c.bindings = rt.contexts.bindings ∧ (rt.entryScopeFor path spec).1 =
      { rt with contexts := c, entryCtxs := m, entryIsolates := n } := by
  unfold entryScopeFor
  dsimp only
  obtain ⟨c, m, hc, he⟩ := entryCtx_eq rt path (spec.parent.getD rootScope)
  generalize rt.entryCtx path (spec.parent.getD rootScope) = entered at he ⊢
  obtain ⟨rt', s⟩ := entered
  cases he
  split
  · exact ⟨rt.contexts, _, _, rfl, rfl⟩
  · refine ⟨_, m, _, ?_, rfl⟩
    rw [bindings_unisolateDropped, bindings_isolateAll, hc]

end Runtime
end Araya
