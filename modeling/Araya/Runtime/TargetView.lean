import Araya.Runtime.Calm

/-!
The settled target view. A fiber that is active between two steps of the strand has committed to the providers that
the scope offers it, wherever no fiber is published while another one loads that declares one of its keys and has not
committed to it: `evaluate` passes over a fiber that loads, and its completion looks at what it committed to only.
-/

namespace Araya
namespace Runtime

/-! What the scope offers -/

/-- The provider that a fiber finds for a key in the scope. -/
def offered (rt : Runtime) (s : ScopeId) (id : FiberId) (k : ServiceId) : Option FiberId :=
  (rt.binding? id s k).map (·.provider)

section
variable {rt rt' : Runtime} {s : ScopeId} {id j p : FiberId} {k : ServiceId} {fr : Frame} {fs : List Frame}

theorem offered_iff : rt.offered s id k = some p ↔ ∃ b, rt.contexts.lookup s k = some b ∧ b.value.isSome = true ∧
    b.state = .active ∧ b.available = true ∧ b.provider = p ∧ p ≠ id := by
  rw [offered, Option.map_eq_some_iff]
  constructor
  · rintro ⟨b, hb, rfl⟩
    obtain ⟨found, value, active, available, other⟩ := binding?_eq_some.mp hb
    exact ⟨b, found, value, active, available, rfl, other⟩
  · rintro ⟨b, found, value, active, available, rfl, other⟩
    exact ⟨b, binding?_eq_some.mpr ⟨found, value, active, available, other⟩, rfl⟩

theorem offered_congr (same : rt'.contexts.lookup s k = rt.contexts.lookup s k) :
    rt'.offered s id k = rt.offered s id k := by
  rw [offered, offered, binding?_congr same]

/-- Nothing is offered where the scope has no active binding. -/
theorem offered_none (idle : ∀ b, rt.contexts.lookup s k = some b → b.state ≠ .active) : rt.offered s id k = none := by
  cases found : rt.offered s id k with
  | none => rfl
  | some p =>
      obtain ⟨b, looked, -, active, -⟩ := offered_iff.mp found
      exact absurd active (idle b looked)

/-- The view a fiber activates with is what the scope offers under the keys it declares. -/
theorem resolve_view {f : FiberRecord} (scope : f.scope = s) : ((rt.resolve id f).satisfiable = true ∧
    (rt.resolve id f).providers = f.committed) ↔
      (∀ d ∈ f.inject, d.required = true → rt.offered s id d.key ≠ none) ∧
        ∀ k, f.committed.find? k = if k ∈ f.descriptor.injectKeys then rt.offered s id k else none := by
  have met : (rt.resolve id f).satisfiable = true ↔
      ∀ d ∈ f.inject, d.required = true → rt.offered s id d.key ≠ none := by
    rw [resolve_satisfiable, scope]
    simp only [offered, ne_eq, Option.map_eq_none_iff, Option.isSome_iff_ne_none]
  have view (sat : (rt.resolve id f).satisfiable = true) (k : ServiceId) : (rt.resolve id f).providers.find? k =
      if k ∈ f.descriptor.injectKeys then rt.offered s id k else none := by
    rw [resolve_providers, resolve_bindings sat, scope]
    split <;> rfl
  rw [← met]
  refine and_congr_right fun sat => ⟨fun same k => same ▸ view sat k, fun same => ?_⟩
  exact SortedMap.ext_find? fun k => (view sat k).trans (same k).symm

/-- A frame withdraws an offer only where the unload of the provider begins. -/
theorem Does.offered {c : EngineConfig} (inv : Calmed s c) (d : c.state.Does fr rt' fs) :
    rt'.offered s j k = c.state.offered s j k ∨ rt'.offered s j k = none ∧ ∃ p r f, fr = .beginUnload p r ∧
      c.state.offered s j k = some p ∧ c.state.find p = some f ∧ f.state = .active ∧
        fs = f.consumers.toList.map (.beginUnload · true) ++ [.requestStop p] := by
  obtain ⟨-, ⟨same, -⟩ | ⟨id, r, f, rfl, hf, active, calls, marks⟩ | ⟨id, f, rfl, hf, unloading, torn⟩⟩ :=
    d.lookup inv.homed inv.records
  · exact .inl (offered_congr (same k))
  · cases looked : c.state.contexts.lookup s k with
    | none => exact .inl (offered_congr (by rw [marks, looked]; rfl))
    | some b =>
        have after : rt'.contexts.lookup s k = some (marked id .retiring f.provide k b) := by rw [marks, looked]; rfl
        by_cases own : b.provider = id ∧ k ∈ f.provide
        · have gone : rt'.offered s j k = none := by
            refine offered_none fun b' found up => ?_
            cases after.symm.trans found
            rw [marked, if_pos own] at up
            cases up
          cases before : c.state.offered s j k with
          | none => exact .inl gone
          | some p =>
              obtain ⟨b', found, -, -, -, rfl, -⟩ := offered_iff.mp before
              cases looked.symm.trans found
              exact .inr ⟨gone, id, r, f, rfl, by rw [own.1], hf, active, calls⟩
        · exact .inl (offered_congr (by rw [after, looked, marked, if_neg own]))
  · obtain same | ⟨gone, b, looked, rfl⟩ := torn k
    · exact .inl (offered_congr same)
    · refine .inl ((offered_none fun b' found => ?_).trans (offered_none fun b' found up => ?_).symm)
      · rw [gone] at found
        cases found
      · cases looked.symm.trans found
        obtain ⟨g, hg, active, -⟩ := inv.owners k b looked up
        cases hf.symm.trans hg
        rw [active] at unloading
        cases unloading

/-- A call of the outside makes an offer only where the provider is published. -/
theorem Called.offered {c : EngineConfig} {o : Op} (inv : Calmed s c) (calm : o.Calm s c.state)
    (d : c.state.Called o rt' fs) : rt'.offered s j k = c.state.offered s j k ∨
      c.state.offered s j k = none ∧ ∃ p f, o = .complete p none ∧ rt'.offered s j k = some p ∧
        c.state.find p = some f ∧ f.state = .loading ∧ c.state.publishes f none = true ∧ k ∈ f.provide := by
  obtain ⟨-, ⟨same, -⟩ | ⟨id, f, rfl, hf, loading, published, marks⟩ | ⟨id, f, rfl, hf, due, -, torn⟩ |
    ⟨id, key, value, available, f, rfl, hf, declared, made⟩⟩ := d.lookup inv.homed inv.records calm
  · exact .inl (offered_congr (same k))
  · cases looked : c.state.contexts.lookup s k with
    | none => exact .inl (offered_congr (by rw [marks, looked]; rfl))
    | some b =>
        have after : rt'.contexts.lookup s k = some (marked id .active f.provide k b) := by rw [marks, looked]; rfl
        by_cases own : b.provider = id ∧ k ∈ f.provide
        · have before : c.state.offered s j k = none := by
            refine offered_none fun b' found up => ?_
            cases looked.symm.trans found
            obtain ⟨g, hg, active, -⟩ := inv.owners k b looked up
            rw [own.1, hf] at hg
            cases hg
            rw [loading] at active
            cases active
          cases now : rt'.offered s j k with
          | none => exact .inl before.symm
          | some p =>
              obtain ⟨b', found, -, -, -, rfl, -⟩ := offered_iff.mp now
              cases after.symm.trans found
              refine .inr ⟨before, id, f, rfl, ?_, hf, loading, published, own.2⟩
              rw [marked_provider, own.1]
        · exact .inl (offered_congr (by rw [after, looked, marked, if_neg own]))
  · obtain same | ⟨gone, b, looked, rfl⟩ := torn k
    · exact .inl (offered_congr same)
    · refine .inl ((offered_none fun b' found => ?_).trans (offered_none fun b' found up => ?_).symm)
      · rw [gone] at found
        cases found
      · cases looked.symm.trans found
        obtain ⟨g, hg, active, -⟩ := inv.owners k b looked up
        cases hf.symm.trans hg
        simp [active] at due
  · by_cases hk : k = key
    · subst hk
      refine .inl ((offered_none fun b' found => ?_).trans (offered_none fun b looked up => ?_).symm)
      · rw [made k, if_pos rfl] at found
        obtain ⟨_, -, rfl⟩ := Option.map_eq_some_iff.mp found
        simp
      · obtain ⟨g, hg, active, owned⟩ := inv.owners k b looked up
        obtain rfl := inv.sole _ _ g f k hg hf owned declared
        cases hf.symm.trans hg
        obtain ⟨f', hf', busy⟩ := calm
        cases hf.symm.trans hf'
        simp [FiberRecord.phase_active.mpr active] at busy
    · exact .inl (offered_congr (by rw [made, if_neg hk]))

end
end Runtime

/-! What a fiber has committed to -/

/-- A fiber commits to keys it declares, to all that it requires, and to fibers that were mounted. -/
structure FiberRecord.Bound (n : FiberId) (f : FiberRecord) : Prop where
  declared : ∀ k p, f.committed.find? k = some p → k ∈ f.descriptor.injectKeys
  required : f.state = .loading ∨ f.state = .active → ∀ d ∈ f.inject, d.required = true →
    f.committed.find? d.key ≠ none
  drawn : ∀ k p, f.committed.find? k = some p → p < n

namespace Runtime

section
variable {rt rt' : Runtime} {s : ScopeId} {id j : FiberId} {f f' : FiberRecord} {call : Option Op}

/-- A fiber that loads did so before, or the frame has it commit to what it finds. -/
theorem Changed.loads (h : rt.Changed id f call f') (loading : f'.state = .loading) :
    f.state = .loading ∧ f'.committed = f.committed ∨
      call = none ∧ (rt.resolve id f).satisfiable = true ∧ f'.committed = (rt.resolve id f).providers := by
  cases h with
  | loaded _ _ _ met | stuck _ _ _ met => exact .inr ⟨rfl, met, rfl⟩
  | noted _ hs => exact absurd (hs.symm.trans loading) (by simp)
  | raised b _ =>
      obtain ⟨n, same⟩ := raiseReactivate_eq f b
      rw [same] at loading ⊢
      exact .inl ⟨loading, rfl⟩
  | same | stopped | released | opened | waited | revived | retired | enrolled | tracked => exact .inl ⟨loading, rfl⟩
  | lapsed | diverted | withdrew | finished | failed | activated => cases loading

/-- A fiber that is active was so before, or the call has published it. -/
theorem Changed.active (h : rt.Changed id f call f') (active : f'.state = .active) :
    f'.committed = f.committed ∧ (f.state = .active ∨
      call = some (.complete id none) ∧ f.state = .loading ∧ rt.publishes f none = true) := by
  cases h with
  | activated _ loading published _ => exact ⟨rfl, .inr ⟨rfl, loading, published⟩⟩
  | noted _ hs => exact absurd (hs.symm.trans active) (by simp)
  | raised b _ =>
      obtain ⟨n, same⟩ := raiseReactivate_eq f b
      rw [same] at active ⊢
      exact ⟨rfl, .inl active⟩
  | same | stopped | released | opened | waited | revived | retired | enrolled | tracked => exact ⟨rfl, .inl active⟩
  | loaded | stuck | lapsed | diverted | withdrew | finished | failed => cases active

theorem Changed.bound (h : rt.Changed id f call f') (wf : rt.WellFormed) {n : FiberId} (grown : rt.nextId ≤ n)
    (bound : f.Bound rt.nextId) : f'.Bound n := by
  have drawn (k : ServiceId) (p : FiberId) (hk : f.committed.find? k = some p) : p < n :=
    Nat.lt_of_lt_of_le (bound.drawn k p hk) grown
  have empty (k : ServiceId) (p : FiberId) : (∅ : SortedMap ServiceId FiberId).find? k ≠ some p := by simp
  cases h with
  | same | stopped | released | opened | waited | revived | retired | enrolled | tracked | noted =>
      exact ⟨bound.declared, bound.required, drawn⟩
  | loaded _ _ _ met | stuck _ _ _ met =>
      refine ⟨fun k p hk => ((resolve_names met).mp hk).1, fun _ d hd needed => ?_, fun k p hk => ?_⟩
      · obtain ⟨b, hb⟩ := Option.isSome_iff_exists.mp (resolve_satisfiable.mp met d hd needed)
        have named := (resolve_names met).mpr ⟨List.mem_map_of_mem hd, b, hb, rfl⟩
        exact fun unnamed => Option.some_ne_none _ (named.symm.trans unnamed)
      · exact Nat.lt_of_lt_of_le (providers_bounded wf met k p hk) grown
  | raised b _ =>
      obtain ⟨m, same⟩ := raiseReactivate_eq f b
      rw [same]
      exact ⟨bound.declared, bound.required, drawn⟩
  | diverted b _ =>
      obtain ⟨m, same⟩ := raiseReactivate_eq f b
      rw [same]
      exact ⟨bound.declared, fun busy => (by rcases busy with h | h <;> cases h), drawn⟩
  | withdrew b _ _ =>
      obtain ⟨m, same⟩ := raiseReactivate_eq f b
      rw [same]
      exact ⟨bound.declared, fun busy => (by rcases busy with h | h <;> cases h), drawn⟩
  | activated _ loading => exact ⟨bound.declared, fun _ => bound.required (.inl loading), drawn⟩
  | lapsed | finished =>
      exact ⟨fun k p hk => absurd hk (empty k p), fun busy => (by rcases busy with h | h <;> cases h),
        fun k p hk => absurd hk (empty k p)⟩
  | failed ep =>
      obtain ⟨error, failed, same, -⟩ := applyOutcome_eq f ep
      rw [same]
      exact ⟨fun k p hk => absurd hk (empty k p), fun busy => (by rcases busy with h | h <;> cases h),
        fun k p hk => absurd hk (empty k p)⟩

end

section
variable {rt rt' : Runtime} {fr : Frame} {fs : List Frame} {i p : FiberId} {q q' : FiberRecord}

/-- A frame takes a consumer out of a fiber's set only where it releases that consumer's providers. -/
theorem Does.keepsConsumer (d : rt.Does fr rt' fs) (hq : rt.find p = some q) (hq' : rt'.find p = some q')
    (member : i ∈ q.consumers) : i ∈ q'.consumers ∨ ∃ es, fr = .releaseProviders i es := by
  have set {rt₁ : Runtime} {id : FiberId} {x g : FiberRecord} (same : ∀ k, rt₁.find k = rt.find k)
      (hx : rt.find id = some x) (h : (rt₁.set id g).find p = some q') (own : g.consumers = x.consumers) :
      i ∈ q'.consumers := by
    rw [find_set] at h
    split at h
    · next hp =>
        subst hp
        cases hq.symm.trans hx
        cases h
        rw [own]
        exact member
    · cases ((same p).trans hq).symm.trans h
      exact member
  cases d with
  | passed | begun | gone | unstopped | held | drained | skipped | shut | toldNone | tells | unheard | heard | lost |
    wakes | overlooks | rested | ended | through =>
      cases hq.symm.trans hq'
      exact .inl member
  | heardAll =>
      cases ((dropStale_find _ _).trans hq).symm.trans hq'
      exact .inl member
  | noted _ hx | loaded hx | lapsed hx | stopped hx | opened hx | revived hx | waits hx =>
      exact .inl (set (fun _ => rfl) hx hq' rfl)
  | raised hx => exact .inl (set (fun _ => rfl) hx hq' (raiseReactivate_consumers _ _))
  | diverted hx => exact .inl (set (fun _ => rfl) hx hq' (raiseReactivate_consumers _ _))
  | withdrew hx _ hg =>
      subst hg
      exact .inl (set (fun _ => rfl) hx hq' (raiseReactivate_consumers _ _))
  | finished hx => exact .inl (set (fun k => teardownOf_find rt _ k _) hx hq' rfl)
  | @released id e es x hx =>
      rw [find_set] at hq'
      split at hq'
      · next hp =>
          subst hp
          cases hq.symm.trans hx
          cases hq'
          by_cases hi : i = id
          · exact .inr ⟨e :: es, hi ▸ rfl⟩
          · exact .inl (SortedSet.mem_erase.mpr ⟨hi, member⟩)
      · cases hq.symm.trans hq'
        exact .inl member
  | erased =>
      cases hq.symm.trans (rewrite_erase hq')
      exact .inl member

theorem Changed.keepsConsumers {o : Op} (h : rt.Changed p q (some o) q') (member : i ∈ q.consumers) : i ∈ q'.consumers := by
  cases h with
  | same | retired | tracked => exact member
  | failed ep =>
      obtain ⟨error, failed, same, -⟩ := applyOutcome_eq q ep
      rw [same]
      exact member
  | activated _ _ _ more | enrolled _ more => exact more i member

/-- A fiber that is published joins the consumers of the fibers it has committed to. -/
theorem Called.enlists {id : FiberId} {f : FiberRecord} (d : rt.Called (.complete id none) rt' fs)
    (hf : rt.find id = some f) (loading : f.state = .loading) (published : rt.publishes f none = true) {k : ServiceId}
    (names : f.committed.find? k = some p) (hq' : rt'.find p = some q') : id ∈ q'.consumers := by
  cases d with
  | ignored _ idle => exact absurd loading (idle f hf).1
  | failed _ hg _ failed _ =>
      cases hf.symm.trans hg
      rw [published] at failed
      cases failed
  | published _ hg =>
      cases hf.symm.trans hg
      simp only [publish, addConsumer_find] at hq'
      obtain ⟨g, -, rfl⟩ := Option.map_eq_some_iff.mp hq'
      rw [if_pos (List.mem_map.mpr ⟨(k, p), SortedMap.mem_toList.mpr names, rfl⟩)]
      exact SortedSet.mem_insert.mpr (.inl rfl)

end
end Runtime
/-! Views that are not up to date -/

/-- The frame will have an active fiber look at what it is offered for the key, or withdraw it. -/
def Frame.Wakes (rt : Runtime) (s : ScopeId) (j : FiberId) (f : FiberRecord) (k : ServiceId) : Frame → Prop
  | .beginUnload i _ | .evaluate i => i = j
  | .notifyLoop k' _ _ ids _ => k' = k ∧ j ∈ ids ∧ f.committed.find? k = none
  | .notify k' _ _ => k' = k ∧ f.committed.find? k = none
  | .notifyProvided p ks => k ∈ ks ∧ f.committed.find? k = none ∧ rt.offered s j k = some p
  | _ => False

/-- No fiber is published while another one loads that declares one of its keys and has not committed to it. -/
def HeardStep (c : EngineConfig) : Label Op → Prop
  | .op (.complete id _) => ∀ f, c.state.find id = some f → f.state = .loading → c.state.publishes f none = true →
      ∀ j g, j ≠ id → c.state.find j = some g → g.state = .loading → ∀ k ∈ f.provide, k ∈ g.descriptor.injectKeys →
        g.committed.find? k ≠ none
  | _ => True

structure Viewed (s : ScopeId) (c : EngineConfig) : Prop where
  calmed : Calmed s c
  bound : ∀ j f, c.state.find j = some f → f.Bound c.state.nextId
  /-- What a loading fiber has not committed to is not offered. -/
  missing : ∀ j f, c.state.find j = some f → f.state = .loading → ∀ k ∈ f.descriptor.injectKeys,
    f.committed.find? k = none → c.state.offered s j k = none
  enlisted : ∀ j f k p q, c.state.find j = some f → f.state = .active → f.committed.find? k = some p →
    c.state.find p = some q → j ∈ q.consumers
  releasing : ∀ j f es, .releaseProviders j es ∈ c.stack → c.state.find j = some f → f.state ≠ .active
  due : ∀ j f k, c.state.find j = some f → f.state = .active → k ∈ f.descriptor.injectKeys →
    c.state.offered s j k ≠ f.committed.find? k → ∃ fr ∈ c.stack, fr.Wakes c.state s j f k

section
variable {s : ScopeId} {c c' : EngineConfig} {a : Label Op}

theorem viewed_start (start : engine.system.start c) : Viewed s c := by
  have none (j : FiberId) (f : FiberRecord) : c.state.find j ≠ some f := by
    rw [Runtime.find, start.1.fibers]
    exact (Option.some_ne_none f).symm
  exact ⟨calmed_start start, fun j f hf => absurd hf (none j f), fun j f hf => absurd hf (none j f),
    fun j f k p q hf => absurd hf (none j f), fun j f es _ hf => absurd hf (none j f),
    fun j f k hf => absurd hf (none j f)⟩

theorem bound_step (inv : Viewed s c) (h : engine.next c a = some c') (acts : CalmActs s c c' a) (j : FiberId)
    (f' : FiberRecord) (hf' : c'.state.find j = some f') : f'.Bound c'.state.nextId := by
  obtain ⟨spec, -, -, -, -, rfl⟩ | ⟨f, _, hf, changed, -⟩ := calm_changed inv.calmed acts hf'
  · have empty (k : ServiceId) (p : FiberId) : (∅ : SortedMap ServiceId FiberId).find? k ≠ some p := by simp
    exact ⟨fun k p hk => absurd hk (empty k p), fun busy => (by rcases busy with h | h <;> cases h),
      fun k p hk => absurd hk (empty k p)⟩
  · exact changed.bound inv.calmed.wellFormed (engine_nextId h) (inv.bound j f hf)

/-- A fiber that is active after a step was active before it, or the step has published it. -/
theorem active_before (inv : Calmed s c) (acts : CalmActs s c c' a) {j : FiberId} {f' : FiberRecord}
    (hf' : c'.state.find j = some f') (active : f'.state = .active) :
    ∃ f, c.state.find j = some f ∧ f'.committed = f.committed ∧ f'.descriptor = f.descriptor ∧ (f.state = .active ∨
      f.state = .loading ∧ c.state.publishes f none = true ∧ c.stack = [] ∧ a = .op (.complete j none)) := by
  cases acts with
  | @ran fr rest fs hst d hst' =>
      obtain ⟨f, hf, changed⟩ := d.changed (inv.frames fr (hst ▸ List.mem_cons_self)) hf'
      obtain ⟨committed, was | ⟨impossible, -⟩⟩ := changed.active active
      · exact ⟨f, hf, committed, changed.descriptor, .inl was⟩
      · cases impossible
  | @called o fs hst calm d hst' =>
      obtain ⟨spec, -, -, rfl⟩ | ⟨f, hf, changed⟩ := d.changed hf'
      · cases active
      · obtain ⟨committed, was | ⟨same, loading, published⟩⟩ := changed.active active
        · exact ⟨f, hf, committed, changed.descriptor, .inl was⟩
        · cases same
          exact ⟨f, hf, committed, changed.descriptor, .inr ⟨loading, published, hst.resolve_right (by simp [Op.nested]), rfl⟩⟩

theorem missing_step (inv : Viewed s c) (heard : HeardStep c a) (acts : CalmActs s c c' a) (j : FiberId)
    (f' : FiberRecord) (hf' : c'.state.find j = some f') (loading : f'.state = .loading) (k : ServiceId)
    (declares : k ∈ f'.descriptor.injectKeys) (lacks : f'.committed.find? k = none) : c'.state.offered s j k = none := by
  cases acts with
  | @ran fr rest fs hst d hst' =>
      obtain ⟨f, hf, changed⟩ := d.changed (inv.calmed.frames fr (hst ▸ List.mem_cons_self)) hf'
      have before : c.state.offered s j k = none := by
        rw [changed.descriptor] at declares
        obtain ⟨was, same⟩ | ⟨-, met, found⟩ := changed.loads loading
        · exact inv.missing j f hf was k declares (same ▸ lacks)
        · rw [found] at lacks
          cases offer : c.state.offered s j k with
          | none => rfl
          | some p =>
              obtain ⟨b, hb, own⟩ := Option.map_eq_some_iff.mp offer
              rw [← (inv.calmed.records j f hf).scope] at hb
              have named := (Runtime.resolve_names met).mpr ⟨declares, b, hb, own⟩
              exact absurd (named.symm.trans lacks) (by simp)
      obtain same | ⟨gone, -⟩ := d.offered (j := j) (k := k) inv.calmed
      · exact same.trans before
      · exact gone
  | @called o fs hst calm d hst' =>
      obtain ⟨spec, -, -, rfl⟩ | ⟨f, hf, changed⟩ := d.changed hf'
      · cases loading
      · obtain ⟨was, same⟩ | ⟨impossible, -⟩ := changed.loads loading
        · rw [changed.descriptor] at declares
          obtain same' | ⟨-, p, g, rfl, -, hg, up, published, provides⟩ := d.offered (j := j) (k := k) inv.calmed calm
          · exact same'.trans (inv.missing j f hf was k declares (same ▸ lacks))
          · have other : j ≠ p := by
              rintro rfl
              obtain ⟨-, consumers, there⟩ := d.publishes hg up published
              cases there.symm.trans hf'
              cases loading
            exact absurd (same ▸ lacks) (heard g hg up published j f other hf was k provides declares)
        · cases impossible

theorem enlisted_step (inv : Viewed s c) (acts : CalmActs s c c' a) (j : FiberId) (f' : FiberRecord) (k : ServiceId)
    (p : FiberId) (q' : FiberRecord) (hf' : c'.state.find j = some f') (active : f'.state = .active)
    (names : f'.committed.find? k = some p) (hq' : c'.state.find p = some q') : j ∈ q'.consumers := by
  obtain ⟨f, hf, same, -, was⟩ := active_before inv.calmed acts hf' active
  rw [same] at names
  have drawn := (inv.bound j f hf).drawn k p names
  cases acts with
  | @ran fr rest fs hst d hst' =>
      obtain ⟨q, hq, -⟩ := d.changed (inv.calmed.frames fr (hst ▸ List.mem_cons_self)) hq'
      obtain was | ⟨-, -, -, impossible⟩ := was
      · obtain kept | ⟨es, top⟩ := d.keepsConsumer hq hq' (inv.enlisted j f k p q hf was names hq)
        · exact kept
        · exact absurd was (inv.releasing j f es (hst ▸ top ▸ List.mem_cons_self) hf)
      · cases impossible
  | @called o fs hst calm d hst' =>
      obtain was | ⟨loading, published, -, same⟩ := was
      · obtain ⟨spec, -, rfl, -⟩ | ⟨q, hq, changed⟩ := d.changed hq'
        · exact absurd drawn (Nat.lt_irrefl _)
        · exact changed.keepsConsumers (inv.enlisted j f k p q hf was names hq)
      · cases same
        exact d.enlists hf loading published names hq'

/-- Releases are called by the end of an unload, and by the release before. -/
theorem Runtime.Does.releases {rt rt' : Runtime} {fr : Frame} {fs : List Frame} {j : FiberId}
    {es : List (ServiceId × FiberId)} (d : rt.Does fr rt' fs) (call : .releaseProviders j es ∈ fs) :
    (fr = .maybeFinishUnload j ∧ ∀ f', rt'.find j = some f' → f'.state = .inactive) ∨ ∃ e, fr = .releaseProviders j (e :: es) := by
  cases d with
  | passed | noted | loaded | lapsed | gone | raised | diverted | unstopped | held | drained | shut | toldNone |
    unheard | heardAll | rested | ended | waits | erased => cases call
  | begun | stopped | revived | tells | heard | lost | wakes | overlooks | through => simp at call
  | withdrew _ _ _ hfs =>
      subst hfs
      simp at call
  | opened => simp at call
  | @finished id f =>
      simp only [List.mem_cons, reduceCtorEq, List.not_mem_nil, or_false, Frame.releaseProviders.injEq] at call
      obtain ⟨rfl, rfl⟩ := call
      refine .inl ⟨rfl, fun f' hf' => ?_⟩
      cases (find_set_self ..).symm.trans hf'
      rfl
  | skipped =>
      cases List.mem_singleton.mp call
      exact .inr ⟨_, rfl⟩
  | released =>
      simp only [List.mem_cons, reduceCtorEq, List.not_mem_nil, or_false, false_or] at call
      cases call
      exact .inr ⟨_, rfl⟩

theorem Runtime.Called.releases {rt rt' : Runtime} {o : Op} {fs : List Frame} (j : FiberId)
    (es : List (ServiceId × FiberId)) (d : rt.Called o rt' fs) : .releaseProviders j es ∉ fs := by
  cases d with
  | failed _ _ _ _ calls =>
      subst calls
      split <;> simp
  | _ => simp

theorem releasing_step (inv : Viewed s c) (acts : CalmActs s c c' a) (j : FiberId) (f' : FiberRecord)
    (es : List (ServiceId × FiberId)) (call : .releaseProviders j es ∈ c'.stack) (hf' : c'.state.find j = some f') :
    f'.state ≠ .active := by
  intro active
  obtain ⟨f, hf, -, -, was | ⟨-, -, empty, same⟩⟩ := active_before inv.calmed acts hf' active
  · cases acts with
    | @ran fr rest fs hst d hst' =>
        rw [hst'] at call
        obtain new | below := List.mem_append.mp call
        · obtain ⟨-, inactive⟩ | ⟨e, rfl⟩ := d.releases new
          · rw [inactive f' hf'] at active
            cases active
          · exact inv.releasing j f (e :: es) (hst ▸ List.mem_cons_self) hf was
        · exact inv.releasing j f es (hst ▸ List.mem_cons_of_mem _ below) hf was
    | @called o fs hst calm d hst' =>
        rw [hst'] at call
        obtain new | below := List.mem_append.mp call
        · exact absurd new (d.releases j es)
        · exact inv.releasing j f es below hf was
  · subst same
    cases acts with
    | @called _ fs hst calm d hst' =>
        rw [hst', empty, List.append_nil] at call
        exact absurd call (d.releases j es)

theorem Frame.Wakes.kept {fr : Frame} {rt rt' : Runtime} {j : FiberId} {f f' : FiberRecord} {k : ServiceId}
    (h : fr.Wakes rt s j f k) (same : f'.committed = f.committed)
    (offer : f.committed.find? k = none → rt'.offered s j k = rt.offered s j k) : fr.Wakes rt' s j f' k := by
  cases fr with
  | beginUnload | evaluate => exact h
  | notifyLoop | notify => exact ⟨h.1, by rw [same]; exact h.2⟩
  | notifyProvided => exact ⟨h.1, by rw [same]; exact h.2.1, (offer h.2.1).trans h.2.2⟩
  | _ => exact h.elim

/-- A frame that wakes an active fiber withdraws it, or calls one that wakes it. -/
theorem wakes_on (inv : Viewed s c) {fr : Frame} {rest fs : List Frame} (hst : c.stack = fr :: rest)
    (d : c.state.Does fr c'.state fs) {j : FiberId} {f f' : FiberRecord} {k : ServiceId}
    (hf : c.state.find j = some f) (active : f.state = .active) (declares : k ∈ f.descriptor.injectKeys)
    (differ : c.state.offered s j k ≠ f.committed.find? k) (hf' : c'.state.find j = some f') (still : f'.state = .active)
    (wakes : fr.Wakes c.state s j f k) : ∃ g ∈ fs, g.Wakes c.state s j f k := by
  have within := inv.calmed.within fr (hst ▸ List.mem_cons_self)
  have unlike {P : Prop} (other : f.state ≠ .active) : P := absurd active other
  obtain ⟨rt', st'⟩ := c'
  cases d with
  | noted _ hx hs | loaded hx hs | lapsed hx hs =>
      obtain rfl := wakes
      cases hf.symm.trans hx
      exact unlike (by simp [hs])
  | raised hx hs | diverted hx hs =>
      obtain rfl := wakes
      cases hf.symm.trans hx
      exact unlike (by rintro up; simp [up] at hs)
  | passed idle =>
      obtain rfl := wakes
      obtain loading | unloading | down | ⟨inactive, -⟩ | ⟨-, same⟩ := idle f hf
      · exact unlike (by simp [loading])
      · exact unlike (by simp [unloading])
      · obtain (inactive | unloading) | ⟨rest', other⟩ := inv.calmed.condemned _ f hf down
        · exact unlike (by simp [inactive])
        · exact unlike (by simp [unloading])
        · cases hst.symm.trans other
      · exact unlike (by simp [inactive])
      · have view := (Runtime.resolve_view (inv.calmed.records _ f hf).scope).mp (Runtime.same_iff.mp same)
        refine absurd ?_ differ
        rw [view.2 k, if_pos declares]
  | begun => exact ⟨_, List.mem_singleton.mpr rfl, wakes⟩
  | gone none =>
      obtain rfl := wakes
      cases none.symm.trans hf
  | withdrew hx =>
      obtain rfl := wakes
      cases (Runtime.find_set_self ..).symm.trans hf'
      cases still
  | toldNone empty =>
      obtain ⟨member, -, offer⟩ := wakes
      obtain none | rfl := empty
      · obtain ⟨b, found, -, up, -, rfl, -⟩ := Runtime.offered_iff.mp offer
        obtain ⟨g, hg, -⟩ := inv.calmed.owners k b found up
        cases none.symm.trans hg
      · cases member
  | tells =>
      obtain ⟨member, rest⟩ := wakes
      obtain rfl | later := List.mem_cons.mp member
      · exact ⟨_, List.mem_cons_self, rfl, rest.1⟩
      · exact ⟨_, List.mem_cons_of_mem _ List.mem_cons_self, later, rest⟩
  | unheard none =>
      obtain ⟨rfl, -⟩ := wakes
      obtain ⟨ids, found, -⟩ := inv.calmed.enrolled.1.lists j f hf _ declares
      cases none.symm.trans found
  | heard found =>
      obtain ⟨rfl, lacks⟩ := wakes
      obtain ⟨ids, found', member⟩ := inv.calmed.enrolled.1.lists j f hf _ declares
      cases found.symm.trans found'
      exact ⟨_, List.mem_cons_self, rfl, member, lacks⟩
  | heardAll =>
      obtain ⟨-, member, -⟩ := wakes
      cases member
  | lost none =>
      obtain ⟨same, member, lacks⟩ := wakes
      obtain rfl | later := List.mem_cons.mp member
      · cases none.symm.trans hf
      · exact ⟨_, List.mem_cons_self, same, later, lacks⟩
  | wakes =>
      obtain ⟨same, member, lacks⟩ := wakes
      obtain rfl | later := List.mem_cons.mp member
      · exact ⟨_, List.mem_cons_self, rfl⟩
      · exact ⟨_, List.mem_cons_of_mem _ List.mem_cons_self, same, later, lacks⟩
  | overlooks hg unseen =>
      obtain ⟨rfl, member, lacks⟩ := wakes
      obtain rfl | later := List.mem_cons.mp member
      · cases hf.symm.trans hg
        obtain ⟨rfl, rfl⟩ := within
        rw [Runtime.sees, (inv.calmed.records _ f hf).scope] at unseen
        simp [ScopeTree.onChain, ScopeTree.self_mem_chain] at unseen
      · exact ⟨_, List.mem_cons_self, rfl, later, lacks⟩
  | _ => exact wakes.elim

theorem due_step (inv : Viewed s c) (acts : CalmActs s c c' a) (j : FiberId) (f' : FiberRecord) (k : ServiceId)
    (hf' : c'.state.find j = some f') (active : f'.state = .active) (declares : k ∈ f'.descriptor.injectKeys)
    (differ : c'.state.offered s j k ≠ f'.committed.find? k) : ∃ fr ∈ c'.stack, fr.Wakes c'.state s j f' k := by
  obtain ⟨f, hf, same, component, was⟩ := active_before inv.calmed acts hf' active
  rw [component] at declares
  rw [same] at differ
  cases acts with
  | @ran fr rest fs hst d hst' =>
      have up : f.state = .active := was.resolve_right fun pub => by cases pub.2.2.2
      have put {g : Frame} (mem : g ∈ fs ∨ g ∈ rest) (wakes : g.Wakes c.state s j f k)
          (offer : f.committed.find? k = none → c'.state.offered s j k = c.state.offered s j k) :
          ∃ fr ∈ c'.stack, fr.Wakes c'.state s j f' k :=
        ⟨g, hst' ▸ List.mem_append.mpr mem, wakes.kept same offer⟩
      obtain unmoved | ⟨gone, p, r, q, rfl, offer, hq, begins, calls⟩ := d.offered (j := j) (k := k) inv.calmed
      · rw [unmoved] at differ
        obtain ⟨g, mem, wakes⟩ := inv.due j f k hf up declares differ
        rw [hst] at mem
        obtain rfl | below := List.mem_cons.mp mem
        · obtain ⟨g', called, wakes'⟩ := wakes_on inv hst d hf up declares differ hf' active wakes
          exact put (.inl called) wakes' fun _ => unmoved
        · exact put (.inr below) wakes fun _ => unmoved
      · have taken : f.committed.find? k ≠ none := fun none => differ (gone.trans none.symm)
        by_cases mine : f.committed.find? k = some p
        · have member := inv.enlisted j f k p q hf up mine hq
          refine put (g := .beginUnload j true) (.inl ?_) rfl fun none => absurd none taken
          rw [calls]
          exact List.mem_append_left _ (List.mem_map.mpr ⟨j, member, rfl⟩)
        · obtain ⟨g, mem, wakes⟩ := inv.due j f k hf up declares fun same => mine (same.symm.trans offer)
          rw [hst] at mem
          obtain rfl | below := List.mem_cons.mp mem
          · obtain ⟨-, -, -, -, -, -, other⟩ := Runtime.offered_iff.mp offer
            exact absurd wakes other
          · exact put (.inr below) wakes fun none => absurd none taken
  | @called o fs hst calm d hst' =>
      obtain up | ⟨loading, published, empty, this⟩ := was
      · obtain unmoved | ⟨none, p, q, rfl, offer, hq, loading, published, provides⟩ :=
          d.offered (j := j) (k := k) inv.calmed calm
        · rw [unmoved] at differ
          obtain ⟨g, mem, wakes⟩ := inv.due j f k hf up declares differ
          exact ⟨g, hst' ▸ List.mem_append_right _ mem, wakes.kept same fun _ => unmoved⟩
        · have empty : c.stack = [] := hst.resolve_right (by simp [Op.nested])
          have lacks : f.committed.find? k = Option.none := by
            by_contra taken
            obtain ⟨g, mem, -⟩ := inv.due j f k hf up declares fun equal => taken (equal.symm.trans none)
            rw [empty] at mem
            cases mem
          obtain ⟨calls, -⟩ := d.publishes hq loading published
          refine ⟨.notifyProvided p q.provide, ?_, provides, by rw [same]; exact lacks, offer⟩
          rw [hst', calls]
          exact List.mem_append_left _ List.mem_cons_self
      · cases this
        have view := d.offered (j := j) (k := k) inv.calmed calm
        cases taken : f.committed.find? k with
        | none =>
            have lacking := inv.missing j f hf loading k declares taken
            obtain unmoved | ⟨-, p, q, this, offer, -⟩ := view
            · exact absurd ((unmoved.trans lacking).trans taken.symm) differ
            · cases this
              obtain ⟨-, -, -, -, -, -, other⟩ := Runtime.offered_iff.mp offer
              exact absurd rfl other
        | some p =>
            have current : c.state.providersStillActive f = true := by
              by_contra stale
              simp [Runtime.publishes, stale] at published
            obtain ⟨b, found, value, own, up, available⟩ := Runtime.providersStillActive_iff.mp current k p taken
            rw [(inv.calmed.records j f hf).scope] at found
            have other : p ≠ j := by
              rintro rfl
              obtain ⟨g, hg, active', -⟩ := inv.calmed.owners k b found up
              rw [own, hf] at hg
              cases hg
              rw [loading] at active'
              cases active'
            have offer := Runtime.offered_iff.mpr ⟨b, found, value, up, available, own, other⟩
            obtain unmoved | ⟨none, -⟩ := view
            · exact absurd ((unmoved.trans offer).trans taken.symm) differ
            · rw [offer] at none
              cases none

theorem viewed_step (inv : Viewed s c) (h : engine.next c a = some c') (calm : CalmStep s c a) (heard : HeardStep c a) :
    Viewed s c' := by
  have acts := calm_acts inv.calmed h calm
  exact ⟨calmed_step inv.calmed h calm, bound_step inv h acts, missing_step inv heard acts, enlisted_step inv acts,
    releasing_step inv acts, due_step inv acts⟩

theorem viewed_reached {ok : EngineConfig → Label Op → Prop} (sub : ∀ c a, ok c a → CalmStep s c a ∧ HeardStep c a)
    (h : engine.system.Reached ok c) : Viewed s c :=
  h.invariant (fun _ start => viewed_start start) fun _ _ _ _ inv step good =>
    viewed_step inv step (sub _ _ good).1 (sub _ _ good).2

/-- Between two steps of the strand the view of an active fiber is what resolution finds for it. -/
theorem Viewed.settled (inv : Viewed s c) (empty : c.stack = []) {j : FiberId} {f : FiberRecord}
    (hf : c.state.find j = some f) (active : f.state = .active) :
    (c.state.resolve j f).satisfiable = true ∧ (c.state.resolve j f).providers = f.committed := by
  have current (k : ServiceId) (declares : k ∈ f.descriptor.injectKeys) : c.state.offered s j k = f.committed.find? k := by
    by_contra differ
    obtain ⟨fr, mem, -⟩ := inv.due j f k hf active declares differ
    rw [empty] at mem
    cases mem
  have bound := inv.bound j f hf
  refine (Runtime.resolve_view (inv.calmed.records j f hf).scope).mpr ⟨fun d hd needed => ?_, fun k => ?_⟩
  · rw [current d.key (List.mem_map_of_mem hd)]
    exact bound.required (.inr active) d hd needed
  · split
    · next declares => exact (current k declares).symm
    · next undeclared =>
        cases taken : f.committed.find? k with
        | none => rfl
        | some p => exact absurd (bound.declared k p taken) undeclared

/-- In a run of mounts, retirements and applies in one scope that publishes no fiber unheard, the view of every
fiber that is active between two steps of the strand is what resolution finds for it. -/
theorem target_view_settled (h : engine.system.Reached (fun c a => CalmStep s c a ∧ HeardStep c a) c)
    (empty : c.stack = []) (j : FiberId) (f : FiberRecord) (hf : c.state.find j = some f) (active : f.state = .active) :
    (c.state.resolve j f).satisfiable = true ∧ (c.state.resolve j f).providers = f.committed :=
  (viewed_reached (fun _ _ good => good) h).settled empty hf active

end

/-! Two runs -/

def heardStep? (c : EngineConfig) : Label Op → Bool
  | .op (.complete id _) => (c.state.find id).all fun f =>
      f.state != .loading || !c.state.publishes f none || c.state.fibers.toList.all fun e =>
        e.1 == id || e.2.state != .loading || f.provide.all fun k =>
          !e.2.descriptor.injectKeys.contains k || (e.2.committed.find? k).isSome
  | _ => true

theorem heardStep_of_check {c : EngineConfig} {a : Label Op} (h : heardStep? c a = true) : HeardStep c a := by
  cases a with
  | run => trivial
  | op o =>
      cases o with
      | complete id ep =>
          intro f hf loading published j g other hg busy k provides declares
          simp only [heardStep?, hf, Option.all_some, loading, bne_self_eq_false, published, Bool.not_true,
            Bool.or_false, Bool.false_or] at h
          have each := List.all_eq_true.mp h (j, g) (SortedMap.mem_toList.mpr hg)
          simp only [beq_eq_false_iff_ne.mpr other, busy, bne_self_eq_false, Bool.false_or] at each
          have taken := List.all_eq_true.mp each k provides
          simp only [List.contains_eq_mem, declares, decide_true, Bool.not_true, Bool.false_or] at taken
          exact Option.isSome_iff_ne_none.mp taken
      | _ => trivial

def viewed? (c : EngineConfig) (a : Label Op) : Bool := calmStep? 0 c a && heardStep? c a

theorem viewed_of_check (c : EngineConfig) (a : Label Op) (h : viewed? c a = true) : CalmStep 0 c a ∧ HeardStep c a := by
  obtain ⟨calm, heard⟩ := Bool.and_eq_true_iff.mp h
  exact ⟨calmStep_of_check c a calm, heardStep_of_check heard⟩

def loggerProvider : ComponentSpec := { descriptor := { name := "p", provide := [⟨"logger", 1⟩] } }

def loggerConsumer : ComponentSpec := { descriptor := { name := "c", inject := [⟨⟨"logger", 1⟩, false⟩] } }

/-- The provider is published before the consumer is mounted. -/
theorem target_view_settled_logger : ∃ c : EngineConfig, ∃ f, c.stack = [] ∧ c.state.find 3 = some f ∧
    f.committed.find? ⟨"logger", 1⟩ = some 1 ∧ (c.state.resolve 3 f).satisfiable = true ∧
      (c.state.resolve 3 f).providers = f.committed := by
  have played : (engine.play viewed? 20 ⟨{}, []⟩ [.mount loggerProvider, .provide 1 ⟨"logger", 1⟩ 7 true,
      .complete 1 none, .mount loggerConsumer, .complete 3 none]).any (fun c => c.stack.isEmpty &&
        (c.state.find 3).any fun f => f.state == .active && f.committed.find? ⟨"logger", 1⟩ == some 1) = true := by
    decide +kernel
  obtain ⟨c, run, shown⟩ := (Option.any_eq_true _ _).mp played
  obtain ⟨empty, found⟩ := Bool.and_eq_true_iff.mp shown
  obtain ⟨f, hf, stands⟩ := (Option.any_eq_true _ _).mp found
  obtain ⟨active, names⟩ := Bool.and_eq_true_iff.mp stands
  have reached := StackMachine.play_reached viewed_of_check run (.start engine_start)
  have settled := target_view_settled reached (List.isEmpty_iff.mp empty) 3 f hf (beq_iff_eq.mp active)
  exact ⟨c, f, List.isEmpty_iff.mp empty, hf, beq_iff_eq.mp names, settled⟩

/-- The provider is published while the consumer loads without it: no transition is in flight, and the view of the
consumer has no logger. -/
theorem target_view_missed : ¬ ∀ c, engine.system.Reached (CalmStep 0) c → c.stack = [] → c.state.inFlight = 0 →
    ∀ j f, c.state.find j = some f → f.state = .active → (c.state.resolve j f).providers = f.committed := by
  intro settled
  have played : (engine.play (calmStep? 0) 20 ⟨{}, []⟩ [.mount loggerConsumer, .mount loggerProvider,
      .provide 3 ⟨"logger", 1⟩ 7 true, .complete 3 none, .complete 1 none]).any (fun c => c.stack.isEmpty &&
        c.state.inFlight == 0 && (c.state.find 1).any fun f => f.state == .active &&
          (c.state.resolve 1 f).providers.find? ⟨"logger", 1⟩ != f.committed.find? ⟨"logger", 1⟩) = true := by
    decide +kernel
  obtain ⟨c, run, shown⟩ := (Option.any_eq_true _ _).mp played
  simp only [Bool.and_eq_true, List.isEmpty_iff, beq_iff_eq] at shown
  obtain ⟨⟨empty, idle⟩, found⟩ := shown
  obtain ⟨f, hf, stands⟩ := (Option.any_eq_true _ _).mp found
  simp only [Bool.and_eq_true, beq_iff_eq, bne_iff_ne] at stands
  have reached := StackMachine.play_reached calmStep_of_check run (.start engine_start)
  exact stands.2 (by rw [settled c reached empty idle 1 f hf stands.1])

end Araya
