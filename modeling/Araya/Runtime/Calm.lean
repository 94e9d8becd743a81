import Araya.Runtime.Routine

/-!
Calm runs. Components are mounted in one scope and retired, no two mounted fibers declare the same key to provide, no
factory throws, and the applies return. A mounted fiber stays where it was mounted, and an active binding names an
active fiber that declares its key.
-/

namespace Araya

/-- Components are mounted in the scope and retired, and an apply publishes while it runs and returns. -/
def Op.Calm (s : ScopeId) (rt : Runtime) : Op → Prop
  | .mount spec => spec.parent.getD Runtime.rootScope = s ∧
      ∀ j f, rt.find j = some f → ∀ k ∈ f.provide, k ∉ spec.descriptor.provide
  | .retire _ => True
  | .complete _ ep => ep = none
  | .provide id _ _ _ => ∃ f, rt.find id = some f ∧ (f.phase = .loading ∨ f.phase = .diverted)
  | _ => False

/-- No factory throws, and the calls of the outside are calm. -/
def CalmStep (s : ScopeId) (c : EngineConfig) : Label Op → Prop
  | .run => ∀ id rest f, c.stack = .evaluate id :: rest → c.state.find id = some f →
      f.descriptor.create f.config c.state.nextId ≠ .throws
  | .op o => o.Calm s c.state

def Op.calm? (s : ScopeId) (rt : Runtime) : Op → Bool
  | .mount spec => spec.parent.getD Runtime.rootScope == s &&
      rt.fibers.toList.all fun e => e.2.provide.all fun k => !spec.descriptor.provide.contains k
  | .retire _ => true
  | .complete _ ep => ep.isNone
  | .provide id _ _ _ => (rt.find id).any fun f => f.phase == .loading || f.phase == .diverted
  | _ => false

def calmStep? (s : ScopeId) (c : EngineConfig) : Label Op → Bool
  | .run =>
    match c.stack with
    | .evaluate id :: _ => (c.state.find id).all fun f => f.descriptor.create f.config c.state.nextId != .throws
    | _ => true
  | .op o => o.calm? s c.state

theorem Op.calm_of_check {s : ScopeId} {rt : Runtime} {o : Op} (h : o.calm? s rt = true) : o.Calm s rt := by
  cases o with
  | mount spec =>
      simp only [Op.calm?, Bool.and_eq_true, beq_iff_eq, List.all_eq_true, Bool.not_eq_true', List.contains_eq_mem,
        decide_eq_false_iff_not] at h
      exact ⟨h.1, fun j f hf k hk => h.2 (j, f) (SortedMap.mem_toList.mpr hf) k hk⟩
  | retire id => trivial
  | complete id ep => exact Option.isNone_iff_eq_none.mp h
  | provide id key value available =>
      obtain ⟨f, hf, busy⟩ := (Option.any_eq_true _ _).mp h
      exact ⟨f, hf, by simpa using busy⟩
  | _ => cases h

theorem calmStep_of_check {s : ScopeId} (c : EngineConfig) (a : Label Op) (h : calmStep? s c a = true) : CalmStep s c a := by
  cases a with
  | op o => exact Op.calm_of_check h
  | run =>
      intro id rest f hst hf
      simpa [calmStep?, hst, hf] using h

theorem Op.Calm.routine {s : ScopeId} {rt : Runtime} {o : Op} (h : o.Calm s rt) : o.Routine rt := by
  cases o with
  | mount | retire | complete => trivial
  | provide => exact h
  | _ => exact h.elim

/-- A notification is about the scope. -/
def Frame.Within (s : ScopeId) (rt : Runtime) : Frame → Prop
  | .notify k t r | .notifyLoop k t r _ _ => t = s ∧ r = rt.contexts.realmFor s k
  | _ => True

/-! What holds of every record -/

structure FiberRecord.Plain (s : ScopeId) (f : FiberRecord) : Prop where
  scope : f.scope = s
  activation : ∀ act, f.activation = some act → act.scope = s
  applied : f.applyFailed = false

namespace Runtime

theorem Changed.plain {rt : Runtime} {s : ScopeId} {id : FiberId} {f f' : FiberRecord} {call : Option Op}
    (h : rt.Changed id f call f') (returns : ∀ ep, call = some (.complete id ep) → ep = none) (plain : f.Plain s) :
    f'.Plain s := by
  have mapped {g : Activation → Activation} (same : ∀ a, (g a).scope = a.scope) (act : Activation)
      (ha : f.activation.map g = some act) : act.scope = s := by
    obtain ⟨a, there, rfl⟩ := Option.map_eq_some_iff.mp ha
    exact (same a).trans (plain.activation a there)
  cases h with
  | same => exact plain
  | noted | stopped | released | retired | enrolled | revived | opened | waited =>
      exact ⟨plain.scope, plain.activation, plain.applied⟩
  | loaded | stuck =>
      refine ⟨plain.scope, fun act ha => ?_, rfl⟩
      cases ha
      exact plain.scope
  | lapsed => exact ⟨plain.scope, fun act ha => (nomatch ha), rfl⟩
  | raised b _ | diverted b _ =>
      obtain ⟨n, same⟩ := raiseReactivate_eq f b
      rw [same]
      exact ⟨plain.scope, plain.activation, plain.applied⟩
  | withdrew b n _ =>
      obtain ⟨m, same⟩ := raiseReactivate_eq f b
      rw [same]
      exact ⟨plain.scope, mapped fun _ => rfl, plain.applied⟩
  | finished | activated => exact ⟨plain.scope, mapped fun _ => rfl, plain.applied⟩
  | failed ep =>
      obtain ⟨error, failed, same, kept⟩ := applyOutcome_eq f ep
      rw [same]
      exact ⟨plain.scope, mapped fun _ => rfl, (kept (returns ep rfl)).trans plain.applied⟩
  | tracked e there =>
      refine ⟨plain.scope, fun act' ha => ?_, plain.applied⟩
      cases ha
      have kept := plain.activation _ there
      exact kept

/-! What becomes of the bindings -/

section
variable {rt rt' : Runtime} {s : ScopeId} {fr : Frame} {fs : List Frame}

/-- A frame leaves the bindings, or marks those of a fiber whose unload begins, or takes some of a fiber back. -/
theorem Does.lookup (homed : rt.contexts.Homed s) (plain : ∀ j f, rt.find j = some f → f.Plain s)
    (d : rt.Does fr rt' fs) : rt'.contexts.Homed s ∧
      ((∀ k, rt'.contexts.lookup s k = rt.contexts.lookup s k) ∧
          (∀ id b f, fr = .beginUnload id b → rt.find id = some f → f.state ≠ .active) ∨
        (∃ id b f, fr = .beginUnload id b ∧ rt.find id = some f ∧ f.state = .active ∧
          fs = f.consumers.toList.map (.beginUnload · true) ++ [.requestStop id] ∧
          ∀ k, rt'.contexts.lookup s k = (rt.contexts.lookup s k).map (marked id .retiring f.provide k)) ∨
        ∃ id f, fr = .maybeFinishUnload id ∧ rt.find id = some f ∧ f.state = .unloading ∧
          ∀ k, rt'.contexts.lookup s k = rt.contexts.lookup s k ∨
            rt'.contexts.lookup s k = none ∧ ∃ b, rt.contexts.lookup s k = some b ∧ b.provider = id) := by
  cases d with
  | heardAll =>
      rw [dropStale_contexts]
      exact ⟨homed, .inl ⟨fun _ => rfl, fun id b f same => nomatch same⟩⟩
  | gone none =>
      refine ⟨homed, .inl ⟨fun _ => rfl, fun id b f same hf => ?_⟩⟩
      cases same
      exact absurd (none.symm.trans hf) (by simp)
  | raised hg hs =>
      refine ⟨homed, .inl ⟨fun _ => rfl, fun id b f same hf active => ?_⟩⟩
      cases same
      cases hg.symm.trans hf
      simp [active] at hs
  | diverted hg hs =>
      refine ⟨homed, .inl ⟨fun _ => rfl, fun id b f same hf active => ?_⟩⟩
      cases same
      cases hg.symm.trans hf
      simp [active] at hs
  | @withdrew id f g b _ hf hs hg hfs =>
      have scope : g.scope = s := by
        obtain ⟨n, same⟩ := raiseReactivate_eq f b
        rw [hg, same]
        exact (plain id f hf).scope
      have provide : g.provide = f.provide := by
        rw [FiberRecord.provide, hg, raiseReactivate_descriptor]
      have marks : ((rt.set id (withdrawing g (rt.countInstalled g.consumers))).transitionStarted.markBindings id g
          .retiring).contexts = markProvided rt.contexts id s .retiring f.provide := by
        rw [← scope, ← provide]
        rfl
      rw [marks]
      exact ⟨markProvided_homed homed, .inr (.inl ⟨id, b, f, rfl, hf, hs, hfs, fun k => lookup_markProvided⟩)⟩
  | @finished id f hf hs _ =>
      obtain ⟨homed', looked⟩ := @teardownOf_lookup rt s id f homed (plain id f hf).activation
      exact ⟨homed', .inr (.inr ⟨id, f, rfl, hf, hs, looked⟩)⟩
  | _ => exact ⟨homed, .inl ⟨fun _ => rfl, fun id b f same => nomatch same⟩⟩

/-- A call of the outside leaves the bindings, marks those of a fiber that is published, takes some of a fiber back
whose apply came to nothing, or makes one that is not active. -/
theorem Called.lookup {o : Op} (homed : rt.contexts.Homed s) (plain : ∀ j f, rt.find j = some f → f.Plain s)
    (calm : o.Calm s rt) (d : rt.Called o rt' fs) : rt'.contexts.Homed s ∧
      ((∀ k, rt'.contexts.lookup s k = rt.contexts.lookup s k) ∧ (∀ id f, o = .complete id none →
          rt.find id = some f → f.state ≠ .loading ∧ f.state ≠ .unloading) ∨
        (∃ id f, o = .complete id none ∧ rt.find id = some f ∧ f.state = .loading ∧ rt.publishes f none = true ∧
          ∀ k, rt'.contexts.lookup s k = (rt.contexts.lookup s k).map (marked id .active f.provide k)) ∨
        (∃ id f, o = .complete id none ∧ rt.find id = some f ∧ (f.state = .loading ∨ f.state = .unloading) ∧
          rt.publishes f none = false ∧ ∀ k, rt'.contexts.lookup s k = rt.contexts.lookup s k ∨
            rt'.contexts.lookup s k = none ∧ ∃ b, rt.contexts.lookup s k = some b ∧ b.provider = id) ∨
        ∃ id key value available f, o = .provide id key value available ∧ rt.find id = some f ∧ key ∈ f.provide ∧
          ∀ k, rt'.contexts.lookup s k = if k = key then
            (rt.contexts.tree.bindTarget s).map fun _ => ⟨some value, id, .loading, available⟩
            else rt.contexts.lookup s k) := by
  cases d with
  | mounted | absent | erased | retired =>
      exact ⟨homed, .inl ⟨fun _ => rfl, fun id f same => nomatch same⟩⟩
  | ignored _ idle =>
      obtain rfl := calm
      refine ⟨homed, .inl ⟨fun _ => rfl, fun id f same hf => ?_⟩⟩
      cases same
      exact idle f hf
  | @published id f _ hf loading published =>
      obtain ⟨fibers, same⟩ := addConsumer_eq
        ((({ rt with applies := rt.applies.erase id } : Runtime).markBindings id f .active).set id (activated f)) id
        f.committed.toList
      have marks : ({ rt with applies := rt.applies.erase id }.publish id f).1.contexts =
          markProvided rt.contexts id s .active f.provide := by
        rw [← (plain id f hf).scope]
        simp only [publish, same]
        rfl
      rw [marks]
      exact ⟨markProvided_homed homed, .inr (.inl ⟨id, f, rfl, hf, loading, published, fun k => lookup_markProvided⟩)⟩
  | @failed id f ep _ _ hf due failed _ =>
      obtain rfl := calm
      obtain ⟨homed', looked⟩ := @teardownOf_lookup { rt with applies := rt.applies.erase id } s id f homed
        (plain id f hf).activation
      exact ⟨homed', .inr (.inr (.inl ⟨id, f, rfl, hf, due, failed, looked⟩))⟩
  | @provided id key value available f act hf there declared _ =>
      obtain rfl := (plain id f hf).activation act there
      exact ⟨homed.bind, .inr (.inr (.inr ⟨id, key, value, available, f, rfl, hf, declared,
        fun k => homed.lookup_bind⟩))⟩

end
end Runtime

/-! The invariant of the calm runs -/

structure Calmed (s : ScopeId) (c : EngineConfig) : Prop extends Routine c where
  enrolled : c.state.Enrolled ∧ LoopsDrawn c
  within : ∀ fr ∈ c.stack, fr.Within s c.state
  records : ∀ j f, c.state.find j = some f → f.Plain s
  homed : c.state.contexts.Homed s
  sole : ∀ i j f g k, c.state.find i = some f → c.state.find j = some g → k ∈ f.provide → k ∈ g.provide → i = j
  owners : ∀ k b, c.state.contexts.lookup s k = some b → b.state = .active →
    ∃ f, c.state.find b.provider = some f ∧ f.state = .active ∧ k ∈ f.provide

/-- What one step of a calm run is. -/
inductive CalmActs (s : ScopeId) (c c' : EngineConfig) : Label Op → Prop
  | ran {fr : Frame} {rest fs : List Frame} : c.stack = fr :: rest → c.state.Does fr c'.state fs →
      c'.stack = fs ++ rest → CalmActs s c c' .run
  | called {o : Op} {fs : List Frame} : (c.stack = [] ∨ o.nested = true) → o.Calm s c.state →
      c.state.Called o c'.state fs → c'.stack = fs ++ c.stack → CalmActs s c c' (.op o)

section
variable {s : ScopeId} {c c' : EngineConfig} {a : Label Op}

theorem CalmStep.routine (h : CalmStep s c a) : RoutineStep c a := by
  cases a with
  | run => trivial
  | op o => exact Op.Calm.routine h

theorem calm_acts (inv : Calmed s c) (h : engine.next c a = some c') (ok : CalmStep s c a) : CalmActs s c c' a := by
  cases routine_acts inv.toRoutine h ok.routine with
  | ran hst d hst' => exact .ran hst d hst'
  | threw hst hf _ _ _ created => exact absurd created (ok _ _ _ hst hf)
  | called hst _ d hst' => exact .called hst ok d hst'

theorem CalmActs.routine (acts : CalmActs s c c' a) : RoutineActs c c' a := by
  cases acts with
  | ran hst d hst' => exact .ran hst d hst'
  | called hst calm d hst' => exact .called hst calm.routine d hst'

theorem calmed_start (start : engine.system.start c) : Calmed s c := by
  obtain ⟨fresh, empty⟩ := start
  have none (j : FiberId) (f : FiberRecord) : c.state.find j ≠ some f := by
    rw [Runtime.find, fresh.fibers]
    exact (Option.some_ne_none f).symm
  have unbound (t : Slot) (b : Binding) : c.state.contexts.bindings.find? t ≠ some b := by
    rw [fresh.bindings]
    exact (Option.some_ne_none b).symm
  refine ⟨routine_start ⟨fresh, empty⟩, ⟨.start fresh, fun k t r ids stale hm => ?_⟩, fun fr hfr => ?_,
    fun j f hf => absurd hf (none j f), fun d k r b found => absurd found (unbound _ b),
    fun i j f g k hf => absurd hf (none i f), fun k b found => ?_⟩
  · rw [empty] at hm
    cases hm
  · rw [empty] at hfr
    cases hfr
  · obtain ⟨d, -, stored⟩ := Contexts.lookup_some found
    exact absurd stored (unbound _ b)

/-- What a record of the next state was before. -/
theorem calm_changed (inv : Calmed s c) (acts : CalmActs s c c' a) {j : FiberId} {f' : FiberRecord}
    (hf : c'.state.find j = some f') :
    (∃ spec, a = .op (.mount spec) ∧ c.stack = [] ∧ Op.Calm s c.state (.mount spec) ∧ j = c.state.nextId ∧
      f' = Runtime.mountedRecord spec 0) ∨
      ∃ f call, c.state.find j = some f ∧ c.state.Changed j f call f' ∧ ∀ o, call = some o → o.Calm s c.state := by
  cases acts with
  | @ran fr rest fs hst d hst' =>
      obtain ⟨f, hf', changed⟩ := d.changed (inv.frames fr (hst ▸ List.mem_cons_self)) hf
      exact .inr ⟨f, none, hf', changed, fun o none => nomatch none⟩
  | @called o fs hst calm d hst' =>
      obtain ⟨spec, rfl, hj, hf'⟩ | ⟨f, hf', changed⟩ := d.changed hf
      · exact .inl ⟨spec, rfl, hst.resolve_right (by simp [Op.nested]), calm, hj, hf'⟩
      · exact .inr ⟨f, some o, hf', changed, fun o' same => Option.some.inj same ▸ calm⟩

theorem calm_realm (acts : CalmActs s c c' a) (k : ServiceId) :
    c'.state.contexts.realmFor s k = c.state.contexts.realmFor s k := by
  cases acts with
  | ran _ d _ => exact Runtime.realmFor_congr d.contexts.1 d.contexts.2 s k
  | called _ _ d _ => exact Runtime.realmFor_congr d.contexts.1 d.contexts.2 s k

theorem calm_within (inv : Calmed s c) (acts : CalmActs s c c' a) : ∀ fr ∈ c'.stack, fr.Within s c'.state := by
  intro fr hfr
  have moved {g : Frame} (was : g.Within s c.state) : g.Within s c'.state := by
    cases g with
    | notify k t r | notifyLoop k t r _ _ => exact ⟨was.1, was.2.trans (calm_realm acts k).symm⟩
    | _ => trivial
  refine moved ?_
  have kept (below : fr ∈ c.stack) : fr.Within s c.state := inv.within fr below
  obtain ⟨rt', st'⟩ := c'
  cases acts with
  | @ran top rest fs hst d hst' =>
      have here := inv.within top (hst ▸ List.mem_cons_self)
      obtain new | below := List.mem_append.mp (show fr ∈ fs ++ rest from hst' ▸ hfr)
      · cases d with
        | passed | noted | loaded | lapsed | gone | raised | diverted | unstopped | held | drained | shut | toldNone |
          unheard | heardAll | rested | ended | waits | erased => cases new
        | begun | stopped | skipped | revived | through =>
            cases List.mem_singleton.mp new
            trivial
        | withdrew _ _ _ hfs =>
            subst hfs
            obtain cascade | last := List.mem_append.mp new
            · obtain ⟨i, -, rfl⟩ := List.mem_map.mp cascade
              trivial
            · cases List.mem_singleton.mp last
              trivial
        | finished =>
            simp only [List.mem_cons, List.not_mem_nil, or_false] at new
            rcases new with rfl | rfl | rfl | rfl | rfl <;> trivial
        | released =>
            simp only [List.mem_cons, List.not_mem_nil, or_false] at new
            rcases new with rfl | rfl <;> trivial
        | opened =>
            obtain ⟨w, hw, rfl⟩ := List.mem_map.mp new
            trivial
        | @tells id f k ks hf =>
            have scope := (inv.records id f hf).scope
            simp only [List.mem_cons, List.not_mem_nil, or_false] at new
            rcases new with rfl | rfl
            · exact ⟨scope, by rw [scope]⟩
            · trivial
        | heard | lost | overlooks =>
            cases List.mem_singleton.mp new
            exact here
        | wakes =>
            simp only [List.mem_cons, List.not_mem_nil, or_false] at new
            rcases new with rfl | rfl
            · trivial
            · exact here
      · exact kept (hst ▸ List.mem_cons_of_mem _ below)
  | @called o fs hst calm d hst' =>
      obtain new | below := List.mem_append.mp (show fr ∈ fs ++ c.stack from hst' ▸ hfr)
      · cases d with
        | absent | erased | ignored | provided => cases new
        | mounted =>
            cases List.mem_singleton.mp new
            trivial
        | retired | published =>
            simp only [List.mem_cons, List.not_mem_nil, or_false] at new
            rcases new with rfl | rfl <;> trivial
        | failed _ _ _ _ calls =>
            subst calls
            simp only [List.mem_cons, List.mem_append, List.not_mem_nil, or_false] at new
            obtain (rfl | tried) | rfl := new
            · trivial
            · split at tried
              · cases List.mem_singleton.mp tried
                trivial
              · cases tried
            · trivial
      · exact kept below

theorem calm_sole (inv : Calmed s c) (acts : CalmActs s c c' a) (i j : FiberId) (f g : FiberRecord) (k : ServiceId)
    (hf : c'.state.find i = some f) (hg : c'.state.find j = some g) (hi : k ∈ f.provide) (hj : k ∈ g.provide) :
    i = j := by
  obtain ⟨spec, ha, -, calm, rfl, rfl⟩ | ⟨f₀, _, hf₀, changed, -⟩ := calm_changed inv acts hf
  · obtain ⟨spec', ha', -, -, rfl, rfl⟩ | ⟨g₀, _, hg₀, changed', -⟩ := calm_changed inv acts hg
    · rfl
    · exact absurd hi (calm.2 j g₀ hg₀ k (changed'.provide ▸ hj))
  · obtain ⟨spec', ha', -, calm, rfl, rfl⟩ | ⟨g₀, _, hg₀, changed', -⟩ := calm_changed inv acts hg
    · exact absurd hj (calm.2 i f₀ hf₀ k (changed.provide ▸ hi))
    · exact inv.sole i j f₀ g₀ k hf₀ hg₀ (changed.provide ▸ hi) (changed'.provide ▸ hj)

theorem Runtime.marked_active {id : FiberId} {keys : List ServiceId} {k : ServiceId} {b : Binding}
    (active : (Runtime.marked id .retiring keys k b).state = .active) :
    ¬ (b.provider = id ∧ k ∈ keys) ∧ Runtime.marked id .retiring keys k b = b := by
  by_cases own : b.provider = id ∧ k ∈ keys
  · rw [Runtime.marked, if_pos own] at active
    cases active
  · exact ⟨own, if_neg own⟩

/-- An active binding names an active fiber that declares its key, and stays so while the stack runs. -/
theorem calm_owners (inv : Calmed s c) (acts : CalmActs s c c' a) (k : ServiceId) (b : Binding)
    (found : c'.state.contexts.lookup s k = some b) (active : b.state = .active) :
    ∃ f, c'.state.find b.provider = some f ∧ f.state = .active ∧ k ∈ f.provide := by
  cases acts with
  | @ran fr rest fs hst d hst' =>
      have stays (before : c.state.contexts.lookup s k = some b)
          (begins : ∀ r f, fr = .beginUnload b.provider r → c.state.find b.provider = some f → f.state = .active →
            k ∉ f.provide) : ∃ f, c'.state.find b.provider = some f ∧ f.state = .active ∧ k ∈ f.provide := by
        obtain ⟨f, hf, up, declared⟩ := inv.owners k b before active
        obtain ⟨f', hf', up', same, -⟩ | ⟨r, top⟩ | top := d.stays hf up
        · exact ⟨f', hf', up', by rw [FiberRecord.provide, same]; exact declared⟩
        · exact absurd declared (begins r f top hf up)
        · exact absurd up (inv.toRoutine.erases_down (top ▸ hst) hf)
      obtain ⟨-, ⟨same, idle⟩ | ⟨id, r, g, rfl, hg, up, -, marks⟩ | ⟨id, g, rfl, hg, unloading, torn⟩⟩ :=
        d.lookup inv.homed inv.records
      · exact stays ((same k).symm.trans found) fun r f top hf up => absurd up (idle _ r f top hf)
      · rw [marks k] at found
        obtain ⟨b₀, before, rfl⟩ := Option.map_eq_some_iff.mp found
        obtain ⟨other, same⟩ := Runtime.marked_active active
        rw [same] at stays ⊢
        refine stays before fun r' f top hf _ declared => ?_
        cases top
        cases hg.symm.trans hf
        exact other ⟨rfl, declared⟩
      · obtain same | ⟨gone, -⟩ := torn k
        · exact stays (same.symm.trans found) fun r f top => nomatch top
        · rw [gone] at found
          cases found
  | @called o fs hst calm d hst' =>
      have stays (before : c.state.contexts.lookup s k = some b) :
          ∃ f, c'.state.find b.provider = some f ∧ f.state = .active ∧ k ∈ f.provide := by
        obtain ⟨f, hf, up, declared⟩ := inv.owners k b before active
        obtain ⟨f', hf', up', same, -⟩ := d.stays inv.known hf up
        exact ⟨f', hf', up', by rw [FiberRecord.provide, same]; exact declared⟩
      obtain ⟨-, ⟨same, -⟩ | ⟨id, g, rfl, hg, loading, published, marks⟩ | ⟨id, g, rfl, hg, due, -, torn⟩ |
        ⟨id, key, value, available, g, rfl, hg, declared, made⟩⟩ := d.lookup inv.homed inv.records calm
      · exact stays ((same k).symm.trans found)
      · rw [marks k] at found
        obtain ⟨b₀, before, rfl⟩ := Option.map_eq_some_iff.mp found
        by_cases own : b₀.provider = id ∧ k ∈ g.provide
        · obtain ⟨rfl, declared⟩ := own
          obtain ⟨-, consumers, there⟩ := d.publishes hg loading published
          rw [Runtime.marked_provider]
          exact ⟨_, there, rfl, declared⟩
        · rw [Runtime.marked, if_neg own] at stays active ⊢
          exact stays before
      · obtain same | ⟨gone, -⟩ := torn k
        · exact stays (same.symm.trans found)
        · rw [gone] at found
          cases found
      · rw [made k] at found
        split at found
        · obtain ⟨_, -, rfl⟩ := Option.map_eq_some_iff.mp found
          cases active
        · exact stays found

/-- A step of a calm run keeps the invariant. -/
theorem calmed_step (inv : Calmed s c) (h : engine.next c a = some c') (ok : CalmStep s c a) : Calmed s c' := by
  have acts := calm_acts inv h ok
  refine ⟨routine_step inv.toRoutine h ok.routine,
    ⟨enrolled_step inv.enrolled.1 inv.enrolled.2 h, loopsDrawn_step inv.enrolled.1 inv.enrolled.2 h⟩,
    calm_within inv acts, fun j f' hf' => ?_, ?_, calm_sole inv acts, calm_owners inv acts⟩
  · obtain ⟨spec, rfl, -, calm, rfl, rfl⟩ | ⟨f, call, hf, changed, calm⟩ := calm_changed inv acts hf'
    · exact ⟨calm.1, fun act ha => (nomatch ha), rfl⟩
    · exact changed.plain (fun ep same => calm _ same) (inv.records j f hf)
  · cases acts with
    | ran _ d _ => exact (d.lookup inv.homed inv.records).1
    | called _ calm d _ => exact (d.lookup inv.homed inv.records calm).1

theorem calmed_reached {ok : EngineConfig → Label Op → Prop} (sub : ∀ c a, ok c a → CalmStep s c a)
    (h : engine.system.Reached ok c) : Calmed s c :=
  h.invariant (fun _ start => calmed_start start) fun _ _ _ _ inv step good => calmed_step inv step (sub _ _ good)

end
end Araya
