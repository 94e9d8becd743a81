import Araya.Runtime.Homes
import Araya.Runtime.TargetView

/-!
Publication. In every routine run a fiber becomes active only where its apply returns between two steps of the strand
and each key it has committed to is bound by a fiber that is active; it is then registered with the providers it names,
and stays registered with those that are mounted as long as it is active. Where no factory throws, a withdrawal so reaches
all fibers that name the provider, and none of them is active when the cascade is over.
-/

namespace Araya

/-- The fiber whose teardown the frame comes after. -/
def Frame.ended : Frame → Option FiberId
  | .releaseProviders id _ | .openDone id | .resume (.retire id) => some id
  | _ => none

namespace Runtime

/-- The fiber has no published activation. -/
def Off (rt : Runtime) (p : FiberId) : Prop := ∀ f, rt.find p = some f → f.phase ≠ .active ∧ f.phase ≠ .withdrawing

/-! What becomes of a published activation -/

section
variable {rt rt' : Runtime} {id j : FiberId} {f f' : FiberRecord} {call : Option Op} {fr : Frame} {fs : List Frame}

theorem phase_congr (state : f'.state = f.state) (act : f'.activation.map (·.state) = f.activation.map (·.state)) :
    f'.phase = f.phase := by
  unfold FiberRecord.phase
  rw [state, act]

/-- A fiber that withdraws did so before, or it was active. -/
theorem Changed.withdrawing (h : rt.Changed id f call f') (sound : f.Sound) (withdrawing : f'.phase = .withdrawing) :
    f.phase = .withdrawing ∨ f.phase = .active := by
  have unloading : f'.state = .unloading := FiberRecord.phase_unloading.mp (.inl withdrawing)
  cases h with
  | same | stopped | released | opened | waited | revived | retired | enrolled => exact .inl withdrawing
  | noted _ inactive => exact absurd (inactive.symm.trans unloading) (by simp)
  | loaded | stuck | lapsed | finished | activated => cases unloading
  | raised b _ =>
      obtain ⟨n, same⟩ := raiseReactivate_eq f b
      rw [same] at withdrawing
      exact .inl withdrawing
  | diverted b loading =>
      obtain ⟨n, same⟩ := raiseReactivate_eq f b
      rw [same] at withdrawing
      have act := sound.loading loading
      simp [Runtime.diverted, FiberRecord.phase, act] at withdrawing
  | withdrew _ _ active => exact .inr (FiberRecord.phase_active.mpr active)
  | failed ep => cases unloading
  | tracked e there =>
      refine .inl ?_
      unfold FiberRecord.phase at withdrawing ⊢
      rw [there]
      exact withdrawing

/-- The committed map of a record is kept, emptied, or what resolution finds. -/
theorem Changed.commits (h : rt.Changed id f call f') : f'.committed = f.committed ∨ f'.committed = ∅ ∨
    ((rt.resolve id f).satisfiable = true ∧ f'.committed = (rt.resolve id f).providers) := by
  cases h with
  | same | noted | stopped | released | opened | waited | revived | retired | enrolled | tracked | activated => exact .inl rfl
  | loaded _ _ _ met | stuck _ _ _ met => exact .inr (.inr ⟨met, rfl⟩)
  | lapsed | finished | failed => exact .inr (.inl rfl)
  | raised b _ | diverted b _ | withdrew b _ _ =>
      obtain ⟨n, same⟩ := raiseReactivate_eq f b
      rw [same]
      exact .inl rfl

/-- Only the end of an unload, or of an apply, opens a gate. -/
theorem Does.opens (d : rt.Does fr rt' fs) (hf : rt.find j = some f) (hf' : rt'.find j = some f')
    (closed : f.done.isOpen = false) (opened : f'.done.isOpen = true) (withdrawing : f'.phase = .withdrawing) :
    fr = .openDone j := by
  have set {rt₁ : Runtime} {id : FiberId} {x g : FiberRecord} (same : ∀ k, rt₁.find k = rt.find k) (hx : rt.find id = some x)
      (h : (rt₁.set id g).find j = some f') (own : g.done = x.done ∨ g.done.isOpen = false ∨ g.phase ≠ .withdrawing) :
      fr = .openDone j := by
    rw [find_set] at h
    split at h
    · next hj =>
        subst hj
        cases hf.symm.trans hx
        cases h
        obtain same | shut | off := own
        · rw [same, closed] at opened
          cases opened
        · rw [shut] at opened
          cases opened
        · exact absurd withdrawing off
    · cases hf.symm.trans ((same j).symm.trans h)
      rw [closed] at opened
      cases opened
  have kept (h : rt.find j = some f') : fr = .openDone j := by
    cases hf.symm.trans h
    rw [closed] at opened
    cases opened
  have raised (x : FiberRecord) (b : Bool) : (raiseReactivate x b).done = x.done := by
    obtain ⟨n, same⟩ := raiseReactivate_eq x b
    rw [same]
  cases d with
  | passed | begun | gone | unstopped | held | drained | skipped | shut | toldNone | tells | unheard | heard | lost |
    wakes | overlooks | rested | ended | through => exact kept hf'
  | heardAll => exact kept ((dropStale_find _ _).symm.trans hf')
  | noted _ hx | loaded hx | lapsed hx | stopped hx | released hx | revived hx =>
      exact set (fun _ => rfl) hx hf' (.inl rfl)
  | raised hx => exact set (fun _ => rfl) hx hf' (.inl (raised _ _))
  | diverted hx => exact set (fun _ => rfl) hx hf' (.inr (.inl rfl))
  | withdrew hx => exact set (fun _ => rfl) hx hf' (.inr (.inl rfl))
  | @finished id x hx => exact set (fun k => teardownOf_find rt id k x) hx hf' (.inl rfl)
  | waits hx shut => exact set (fun _ => rfl) hx hf' (.inr (.inl shut))
  | @opened id x hx =>
      by_cases hj : j = id
      · rw [hj]
      · exact kept ((if_neg hj).symm.trans ((find_set ..).symm.trans hf'))
  | erased => exact kept (rewrite_erase hf')

/-- An active fiber that withdraws shuts its gate. -/
theorem Changed.shuts (h : rt.Changed id f call f') (active : f.phase = .active) (withdrawing : f'.phase = .withdrawing) :
    f'.done.isOpen = false := by
  have up : f.state = .active := FiberRecord.phase_active.mp active
  have unloading : f'.state = .unloading := FiberRecord.phase_unloading.mp (.inl withdrawing)
  cases h with
  | same | stopped | released | opened | waited | revived | retired | enrolled | tracked =>
      exact absurd (up.symm.trans unloading) (by simp)
  | noted _ inactive | loaded _ inactive | stuck _ inactive | lapsed inactive => exact absurd (inactive.symm.trans up) (by simp)
  | raised b _ =>
      obtain ⟨n, same⟩ := raiseReactivate_eq f b
      rw [same] at unloading
      exact absurd (up.symm.trans unloading) (by simp)
  | diverted b _ => rfl
  | withdrew b _ _ => rfl
  | finished | failed | activated => cases unloading

/-- A call of the outside opens no gate. -/
theorem Called.gates {o : Op} (known : rt.Known) (d : rt.Called o rt' fs) (hf : rt.find j = some f)
    (hf' : rt'.find j = some f') : f'.done = f.done := by
  obtain ⟨spec, -, rfl, -⟩ | ⟨g, hg, changed⟩ := d.changed hf'
  · exact absurd (known _ f hf) (Nat.lt_irrefl _)
  · cases hf.symm.trans hg
    generalize called : some o = call at changed
    cases changed with
    | same | retired | enrolled | tracked | activated => rfl
    | failed ep =>
        obtain ⟨error, failed, same, -⟩ := applyOutcome_eq f ep
        rw [same]
        rfl
    | _ => cases called

/-- A published activation ends where its unload ends, or where an apply completes. -/
theorem Changed.lasts (h : rt.Changed id f call f') (sound : f.Sound) (live : f.phase = .active ∨ f.phase = .withdrawing)
    (awake : f'.state ≠ .inactive) : (f'.phase = .active ∨ f'.phase = .withdrawing) ∧
      f'.activation.map (·.serial) = f.activation.map (·.serial) := by
  have state : f.state = .active ∨ f.state = .unloading :=
    live.imp FiberRecord.phase_active.mp fun h => FiberRecord.phase_unloading.mp (.inl h)
  have alike {g : FiberRecord} (state : g.state = f.state) (act : g.activation = f.activation) :
      (g.phase = .active ∨ g.phase = .withdrawing) ∧ g.activation.map (·.serial) = f.activation.map (·.serial) := by
    rw [phase_congr state (by rw [act]), act]
    exact ⟨live, rfl⟩
  cases h with
  | same | stopped | released | opened | waited | revived | retired | enrolled => exact ⟨live, rfl⟩
  | noted _ inactive | loaded _ inactive | stuck _ inactive | lapsed inactive => simp [inactive] at state
  | raised b _ =>
      obtain ⟨n, same⟩ := raiseReactivate_eq f b
      rw [same]
      exact alike rfl rfl
  | diverted _ loading | activated _ loading => simp [loading] at state
  | withdrew b n active =>
      obtain ⟨act, ha, -⟩ := Option.map_eq_some_iff.mp (sound.active active)
      obtain ⟨m, same⟩ := raiseReactivate_eq f b
      rw [same]
      refine ⟨.inr ?_, ?_⟩
      · simp [FiberRecord.phase, Runtime.withdrawing, Activation.withState, ha]
      · simp [Runtime.withdrawing, Activation.withState, ha]
  | finished => exact absurd rfl awake
  | failed ep => exact absurd rfl awake
  | @tracked o act e there =>
      refine ⟨?_, by rw [there]; rfl⟩
      unfold FiberRecord.phase at live ⊢
      rw [there] at live
      exact live

end
end Runtime

/-! The routine runs -/

/-- What holds of published activations in every routine run. -/
structure Listed (c : EngineConfig) : Prop extends Homes c where
  drawn : ∀ j f k p, c.state.find j = some f → f.committed.find? k = some p → p < c.state.nextId
  ended : ∀ fr ∈ c.stack, ∀ p, fr.ended = some p → c.state.Off p
  gate : ∀ j f, c.state.find j = some f → f.phase = .withdrawing → f.done.isOpen = false
  enlisted : ∀ j f k p q, c.state.find j = some f → f.state = .active → f.committed.find? k = some p →
    c.state.find p = some q → j ∈ q.consumers

section
variable {c c' : EngineConfig} {a : Label Op}

theorem listed_start (start : engine.system.start c) : Listed c := by
  have none (j : FiberId) (f : FiberRecord) : c.state.find j ≠ some f := by
    rw [Runtime.find, start.1.fibers]
    exact (Option.some_ne_none f).symm
  refine ⟨homes_start start, fun j f k p hf => absurd hf (none j f), fun fr hfr => ?_,
    fun j f hf => absurd hf (none j f), fun j f k p q hf => absurd hf (none j f)⟩
  rw [start.2] at hfr
  cases hfr

/-- A fiber that is active after a step was active before it, or the step has published it. -/
theorem routine_active (inv : Routine c) (acts : RoutineActs c c' a) {j : FiberId} {f' : FiberRecord}
    (hf' : c'.state.find j = some f') (active : f'.state = .active) :
    ∃ f, c.state.find j = some f ∧ f'.committed = f.committed ∧ (f.state = .active ∨
      f.state = .loading ∧ c.state.publishes f none = true ∧ c.stack = [] ∧ a = .op (.complete j none)) := by
  obtain ⟨spec, -, -, -, rfl⟩ | ⟨f, call, hf, changed, calls⟩ := routine_changed inv acts hf'
  · cases active
  · obtain ⟨committed, was | ⟨rfl, loading, published⟩⟩ := changed.active active
    · exact ⟨f, hf, committed, .inl was⟩
    · obtain rfl := calls _ rfl
      cases acts with
      | called hst _ _ _ => exact ⟨f, hf, committed, .inr ⟨loading, published, hst.resolve_right (by simp [Op.nested]), rfl⟩⟩

theorem drawn_step (inv : Listed c) (h : engine.next c a = some c') (acts : RoutineActs c c' a) (j : FiberId)
    (f' : FiberRecord) (k : ServiceId) (p : FiberId) (hf' : c'.state.find j = some f')
    (names : f'.committed.find? k = some p) : p < c'.state.nextId := by
  have grown := engine_nextId h
  obtain ⟨spec, -, -, -, rfl⟩ | ⟨f, call, hf, changed, -⟩ := routine_changed inv.toRoutine acts hf'
  · have empty : (∅ : SortedMap ServiceId FiberId).find? k = some p := names
    simp at empty
  · obtain same | none | named := changed.commits
    · rw [same] at names
      exact Nat.lt_of_lt_of_le (inv.drawn j f k p hf names) grown
    · rw [none] at names
      simp at names
    · rw [named.2] at names
      exact Nat.lt_of_lt_of_le (Runtime.providers_bounded inv.wellFormed named.1 k p names) grown

/-- While a cascade runs nothing is published. -/
theorem off_step (inv : Routine c) (acts : RoutineActs c c' a) (busy : c.stack ≠ []) {p : FiberId}
    (off : c.state.Off p) : c'.state.Off p := by
  intro f' hf'
  obtain ⟨spec, -, empty, -⟩ | ⟨f, call, hf, changed, calls⟩ := routine_changed inv acts hf'
  · exact absurd empty busy
  · obtain ⟨active, withdrawing⟩ := off f hf
    refine ⟨fun up => ?_, fun leaves => ?_⟩
    · obtain ⟨-, was | ⟨rfl, -⟩⟩ := changed.active (FiberRecord.phase_active.mp up)
      · exact active (FiberRecord.phase_active.mpr was)
      · obtain rfl := calls _ rfl
        cases acts with
        | called hst _ _ _ => exact busy (hst.resolve_right (by simp [Op.nested]))
    · obtain was | was := changed.withdrawing (inv.wellFormed.sound p f hf) leaves
      · exact withdrawing was
      · exact active was

theorem off_parked {rt : Runtime} {id : FiberId} {f : FiberRecord} : (rt.set id (Runtime.parked f)).Off id := by
  intro g hg
  cases (Runtime.find_set_self ..).symm.trans hg
  simp [FiberRecord.phase, Runtime.parked]

/-- Behind an open gate there is no published activation to wait for. -/
theorem Listed.through (inv : Listed c) {id : FiberId} {w : Waiter} {rest : List Frame}
    (top : c.stack = .awaitDone id w :: rest) (gate : ∀ f, c.state.find id = some f → f.done.isOpen = true) :
    c.state.Off id := by
  intro f hf
  obtain ⟨-, down⟩ := inv.frames _ (top ▸ List.mem_cons_self)
  refine ⟨fun active => ?_, fun withdrawing => ?_⟩
  · have up := FiberRecord.phase_active.mp active
    obtain (inactive | unloading) | ⟨rest', other⟩ := inv.condemned id f hf (down f hf)
    · exact absurd (inactive.symm.trans up) (by simp)
    · exact absurd (unloading.symm.trans up) (by simp)
    · cases top.symm.trans other
  · have shut := inv.gate id f hf withdrawing
    rw [gate f hf] at shut
    cases shut

theorem ended_step (inv : Listed c) (acts : RoutineActs c c' a) (fr : Frame) (hfr : fr ∈ c'.stack) (p : FiberId)
    (after : fr.ended = some p) : c'.state.Off p := by
  have kept {g : Frame} (below : g ∈ c.stack) (after : g.ended = some p) : c'.state.Off p :=
    off_step inv.toRoutine acts (List.ne_nil_of_mem below) (inv.ended g below p after)
  have acts' := acts
  obtain ⟨rt', st'⟩ := c'
  cases acts with
  | @ran top rest fs hst d hst' =>
      have here : top ∈ c.stack := hst ▸ List.mem_cons_self
      obtain new | below := List.mem_append.mp (show fr ∈ fs ++ rest from hst' ▸ hfr)
      · cases d with
        | passed | noted | loaded | lapsed | gone | raised | diverted | unstopped | held | drained | shut | toldNone |
          unheard | heardAll | rested | ended | waits | erased => cases new
        | begun | stopped | revived | heard | lost | overlooks =>
            cases List.mem_singleton.mp new
            cases after
        | withdrew _ _ _ hfs =>
            subst hfs
            obtain cascade | last := List.mem_append.mp new
            · obtain ⟨i, -, rfl⟩ := List.mem_map.mp cascade
              cases after
            · cases List.mem_singleton.mp last
              cases after
        | finished =>
            simp only [List.mem_cons, List.not_mem_nil, or_false] at new
            rcases new with rfl | rfl | rfl | rfl | rfl
            · cases after
              exact off_parked
            · cases after
              exact off_parked
            · cases after
            · cases after
            · cases after
        | skipped =>
            cases List.mem_singleton.mp new
            exact kept here after
        | released =>
            simp only [List.mem_cons, List.not_mem_nil, or_false] at new
            rcases new with rfl | rfl
            · cases after
            · exact kept here after
        | @opened id f hf closed =>
            obtain ⟨w, hw, rfl⟩ := List.mem_map.mp new
            obtain ⟨rfl, -⟩ := inv.waiters id f hf w hw
            exact kept here after
        | tells | wakes =>
            simp only [List.mem_cons, List.not_mem_nil, or_false] at new
            rcases new with rfl | rfl <;> cases after
        | @through id w gate =>
            obtain ⟨rfl, -⟩ := inv.frames _ here
            cases List.mem_singleton.mp new
            cases after
            exact off_step inv.toRoutine acts' (List.ne_nil_of_mem here) (inv.through hst gate)
      · exact kept (hst ▸ List.mem_cons_of_mem _ below) after
  | threw _ _ _ _ _ _ _ hst' =>
      rw [hst'] at hfr
      cases hfr
  | @called o fs hst routine d hst' =>
      obtain new | below := List.mem_append.mp (show fr ∈ fs ++ c.stack from hst' ▸ hfr)
      · cases d with
        | absent | erased | ignored | provided => cases new
        | mounted =>
            cases List.mem_singleton.mp new
            cases after
        | retired | published =>
            simp only [List.mem_cons, List.not_mem_nil, or_false] at new
            rcases new with rfl | rfl <;> cases after
        | failed _ _ _ _ calls =>
            subst calls
            simp only [List.mem_cons, List.mem_append, List.not_mem_nil, or_false] at new
            obtain (rfl | tried) | rfl := new
            · cases after
              exact off_parked
            · split at tried
              · cases List.mem_singleton.mp tried
                cases after
              · cases tried
            · cases after
      · exact kept below after

theorem gate_step (inv : Listed c) (acts : RoutineActs c c' a) (j : FiberId) (f' : FiberRecord)
    (hf' : c'.state.find j = some f') (withdrawing : f'.phase = .withdrawing) : f'.done.isOpen = false := by
  obtain ⟨spec, -, -, -, rfl⟩ | ⟨f, call, hf, changed, -⟩ := routine_changed inv.toRoutine acts hf'
  · cases withdrawing
  · obtain was | active := changed.withdrawing (inv.wellFormed.sound j f hf) withdrawing
    · have shut := inv.gate j f hf was
      by_contra opened
      obtain opened : f'.done.isOpen = true := by simpa using opened
      cases acts with
      | @ran fr rest fs hst d hst' =>
          obtain rfl := d.opens hf hf' shut opened withdrawing
          exact (inv.ended _ (hst ▸ List.mem_cons_self) j rfl f hf).2 was
      | @threw id rest x hst hx hs _ _ _ set hst' =>
          rw [set] at hf'
          have found : ((c.state.drawId.set id (Runtime.committing x c.state.nextId (c.state.resolve id x))).find j) =
              if j = id then some _ else c.state.find j := Runtime.find_set ..
          rw [found] at hf'
          split at hf'
          · cases hf'
            cases withdrawing
          · cases hf.symm.trans hf'
            rw [shut] at opened
            cases opened
      | called hst routine d hst' =>
          obtain same := d.gates inv.known hf hf'
          rw [same, shut] at opened
          cases opened
    · exact changed.shuts active withdrawing

/-- A fiber that is active is in the consumer sets of the fibers it names. -/
theorem registered_step (inv : Listed c) (acts : RoutineActs c c' a) (j : FiberId) (f' : FiberRecord) (k : ServiceId)
    (p : FiberId) (q' : FiberRecord) (hf' : c'.state.find j = some f') (active : f'.state = .active)
    (names : f'.committed.find? k = some p) (hq' : c'.state.find p = some q') : j ∈ q'.consumers := by
  obtain ⟨f, hf, same, was⟩ := routine_active inv.toRoutine acts hf' active
  rw [same] at names
  have drawn := inv.drawn j f k p hf names
  cases acts with
  | @ran fr rest fs hst d hst' =>
      obtain ⟨q, hq, -⟩ := d.changed (inv.frames fr (hst ▸ List.mem_cons_self)) hq'
      have up : f.state = .active := was.resolve_right fun pub => by cases pub.2.2.2
      obtain kept | ⟨es, top⟩ := d.keepsConsumer hq hq' (inv.enlisted j f k p q hf up names hq)
      · exact kept
      · have off := inv.ended fr (hst ▸ List.mem_cons_self) j (by rw [top]; rfl)
        exact absurd (FiberRecord.phase_active.mpr up) (off f hf).1
  | @threw id rest x hst hx hs _ _ _ set hst' =>
      have up : f.state = .active := was.resolve_right fun pub => by cases pub.2.2.2
      rw [set] at hq'
      have found : ((c.state.drawId.set id (Runtime.committing x c.state.nextId (c.state.resolve id x))).find p) =
          if p = id then some _ else c.state.find p := Runtime.find_set ..
      rw [found] at hq'
      split at hq'
      · next here =>
          subst here
          cases hq'
          exact inv.enlisted j f k p x hf up names hx
      · exact inv.enlisted j f k p q' hf up names hq'
  | @called o fs hst routine d hst' =>
      obtain up | ⟨loading, published, -, same⟩ := was
      · obtain ⟨spec, -, rfl, -⟩ | ⟨q, hq, changed⟩ := d.changed hq'
        · exact absurd drawn (Nat.lt_irrefl _)
        · exact changed.keepsConsumers (inv.enlisted j f k p q hf up names hq)
      · cases same
        exact d.enlists hf loading published names hq'

theorem listed_step (inv : Listed c) (h : engine.next c a = some c') (ok : RoutineStep c a) : Listed c' := by
  have acts := routine_acts inv.toRoutine h ok
  exact ⟨homes_step inv.toHomes h ok, drawn_step inv h acts, ended_step inv acts, gate_step inv acts,
    registered_step inv acts⟩

theorem listed_reached {ok : EngineConfig → Label Op → Prop} (sub : ∀ c a, ok c a → RoutineStep c a)
    (h : engine.system.Reached ok c) : Listed c :=
  h.invariant (fun _ start => listed_start start) fun _ _ _ _ inv step good => listed_step inv step (sub _ _ good)

/-- An active binding that a lookup finds is one of an active fiber that declares its key. -/
theorem Homes.offers (inv : Homes c) {s : ScopeId} {k : ServiceId} {b : Binding}
    (found : c.state.contexts.lookup s k = some b) (active : b.state = .active) :
    ∃ g, c.state.find b.provider = some g ∧ g.state = .active ∧ k ∈ g.provide := by
  obtain ⟨d, -, stored⟩ := Contexts.lookup_some found
  obtain ⟨g, hg, up⟩ := inv.owners _ b stored active
  exact ⟨g, hg, up, inv.placed.declared d k _ b g stored hg⟩

/-- What one key of a fiber that is published stands for. -/
structure Backed (c c' : EngineConfig) (j : FiberId) (f : FiberRecord) (k : ServiceId) (p : FiberId) : Prop where
  bound : ∃ b, c.state.contexts.lookup f.scope k = some b ∧ b.value.isSome = true ∧ b.state = .active ∧
    b.available = true ∧ b.provider = p
  provider : ∃ g g', c.state.find p = some g ∧ g.state = .active ∧ k ∈ g.provide ∧ c'.state.find p = some g' ∧
    g'.state = .active ∧ j ∈ g'.consumers

/-- In every routine run a fiber becomes active only where its apply returns, unasked to stop, between two steps of the
strand, and each key it has committed to is bound by an active fiber that declares it and that it joins the consumers
of; and a fiber that is active is a registered consumer of every mounted fiber it names. -/
theorem published_on_active (reached : engine.system.Reached RoutineStep c) :
    (∀ a c' j f f', engine.next c a = some c' → RoutineStep c a → c.state.find j = some f → f.state ≠ .active →
      c'.state.find j = some f' → f'.state = .active → a = .op (.complete j none) ∧ c.stack = [] ∧
        f.state = .loading ∧ f.stopRequested = false ∧ f'.committed = f.committed ∧
          ∀ k p, f.committed.find? k = some p → Backed c c' j f k p) ∧
      ∀ j f p q, c.state.find j = some f → f.state = .active → f.Names p → c.state.find p = some q → j ∈ q.consumers := by
  have inv := listed_reached (fun _ _ ok => ok) reached
  refine ⟨fun a c' j f f' h ok hf down hf' up => ?_, fun j f p q hf up ⟨k, names⟩ hq => inv.enlisted j f k p q hf up names hq⟩
  have acts := routine_acts inv.toRoutine h ok
  obtain ⟨f₀, hf₀, same, was | ⟨loading, published, empty, rfl⟩⟩ := routine_active inv.toRoutine acts hf' up
  · cases hf.symm.trans hf₀
    exact absurd was down
  · cases hf.symm.trans hf₀
    have checks := published
    simp only [Runtime.publishes, Option.isSome_none, Bool.false_or, Bool.not_eq_true', Bool.or_eq_false_iff,
      Bool.not_eq_false'] at checks
    refine ⟨rfl, empty, loading, checks.1.1, same, fun k p names => ?_⟩
    obtain ⟨b, found, value, own, active, available⟩ := Runtime.providersStillActive_iff.mp checks.1.2 k p names
    obtain ⟨g, hg, live, declared⟩ := inv.toHomes.offers found active
    rw [own] at hg
    cases acts with
    | called _ _ d _ =>
        obtain ⟨g', hg', live', -⟩ := d.stays inv.known hg live
        exact ⟨⟨b, found, value, active, available, own⟩, g, g', hg, live, declared, hg', live',
          d.enlists hf loading published names hg'⟩

end

/-! Between two steps of the strand -/

/-- A routine step in which no factory throws. -/
def SteadyRoutine (c : EngineConfig) (a : Label Op) : Prop := RoutineStep c a ∧ engine.NoThrow c a

/-- A fiber that names a provider which is not active is on the way out. -/
structure Attended (c : EngineConfig) : Prop extends Listed c where
  declared : ∀ j f k p q, c.state.find j = some f → f.committed.find? k = some p → c.state.find p = some q → k ∈ q.provide
  leaving : ∀ j f k p, c.state.find j = some f → f.state = .active → f.committed.find? k = some p →
    (∀ q, c.state.find p = some q → q.state ≠ .active) → ∃ b, .beginUnload j b ∈ c.stack

section
variable {c c' : EngineConfig} {a : Label Op}

theorem attended_start (start : engine.system.start c) : Attended c := by
  have none (j : FiberId) (f : FiberRecord) : c.state.find j ≠ some f := by
    rw [Runtime.find, start.1.fibers]
    exact (Option.some_ne_none f).symm
  exact ⟨listed_start start, fun j f k p q hf => absurd hf (none j f), fun j f k p hf => absurd hf (none j f)⟩

theorem declared_step (inv : Attended c) (acts : RoutineActs c c' a) (j : FiberId) (f' : FiberRecord) (k : ServiceId)
    (p : FiberId) (q' : FiberRecord) (hf' : c'.state.find j = some f') (names : f'.committed.find? k = some p)
    (hq' : c'.state.find p = some q') : k ∈ q'.provide := by
  have older (drawn : p < c.state.nextId) (was : ∀ q, c.state.find p = some q → k ∈ q.provide) : k ∈ q'.provide := by
    obtain ⟨spec, -, -, rfl, -⟩ | ⟨q, _, hq, changed, -⟩ := routine_changed inv.toRoutine acts hq'
    · exact absurd drawn (Nat.lt_irrefl _)
    · rw [changed.provide]
      exact was q hq
  obtain ⟨spec, -, -, -, rfl⟩ | ⟨f, call, hf, changed, -⟩ := routine_changed inv.toRoutine acts hf'
  · have empty : (∅ : SortedMap ServiceId FiberId).find? k = some p := names
    simp at empty
  · obtain same | none | ⟨met, found⟩ := changed.commits
    · rw [same] at names
      exact older (inv.drawn j f k p hf names) fun q hq => inv.declared j f k p q hf names hq
    · rw [none] at names
      simp at names
    · rw [found] at names
      refine older (Runtime.providers_bounded inv.wellFormed met k p names) fun q hq => ?_
      obtain ⟨-, b, hb, rfl⟩ := (Runtime.resolve_names met).mp names
      obtain ⟨looked, -, active, -⟩ := Runtime.binding?_eq_some.mp hb
      obtain ⟨g, hg, -, declared⟩ := inv.toHomes.offers looked active
      cases hq.symm.trans hg
      exact declared

/-- The unload of an active fiber calls for those of its consumers. -/
theorem Runtime.Does.withdraws {rt rt' : Runtime} {j : FiberId} {b : Bool} {f : FiberRecord} {fs : List Frame}
    (d : rt.Does (.beginUnload j b) rt' fs) (hf : rt.find j = some f) (active : f.state = .active) :
    fs = f.consumers.toList.map (.beginUnload · true) ++ [.requestStop j] ∧
      ∀ f', rt'.find j = some f' → f'.state ≠ .active := by
  cases d with
  | gone none => cases none.symm.trans hf
  | raised hx hs | diverted hx hs =>
      cases hf.symm.trans hx
      simp [active] at hs
  | withdrew hx _ _ calls =>
      cases hf.symm.trans hx
      refine ⟨calls, fun f' hf' up => ?_⟩
      cases (find_set_self ..).symm.trans hf'
      cases up

/-- A step in which no factory throws runs a frame to its end, or is a call of the outside. -/
theorem steady_acts (inv : Routine c) (h : engine.next c a = some c') (ok : SteadyRoutine c a) :
    (∃ fr rest fs, a = .run ∧ c.stack = fr :: rest ∧ c.state.Does fr c'.state fs ∧ c'.stack = fs ++ rest) ∨
      ∃ o fs, a = .op o ∧ c.state.Called o c'.state fs ∧ c'.stack = fs ++ c.stack := by
  obtain ⟨fr, rest, s', fs, rfl, hst, hx, rfl⟩ | ⟨fr, rest, s', rfl, hst, hx, rfl⟩ |
    ⟨o, s', fs, rfl, hst, ho, rfl⟩ := StackMachine.next_cases h
  · exact .inl ⟨fr, rest, fs, rfl, hst, Runtime.exec_does (inv.frames fr (hst ▸ List.mem_cons_self)) hx, rfl⟩
  · exact absurd hx (ok.2 fr rest s' hst)
  · exact .inr ⟨o, fs, rfl, Runtime.op_called ok.1 inv.wellFormed.sound ho, rfl⟩

/-- An unload that is called for stays so while its fiber is active. -/
theorem pending_kept (inv : Routine c) (h : engine.next c a = some c') (ok : SteadyRoutine c a) {j : FiberId} {b : Bool}
    {f f' : FiberRecord} (hf : c.state.find j = some f) (up : f.state = .active) (hf' : c'.state.find j = some f')
    (up' : f'.state = .active) (pending : .beginUnload j b ∈ c.stack) : .beginUnload j b ∈ c'.stack := by
  obtain ⟨fr, rest, fs, rfl, hst, d, hst'⟩ | ⟨o, fs, rfl, d, hst'⟩ := steady_acts inv h ok
  · rw [hst] at pending
    obtain rfl | below := List.mem_cons.mp pending
    · exact absurd up' ((d.withdraws hf up).2 f' hf')
    · exact hst' ▸ List.mem_append_right _ below
  · exact hst' ▸ List.mem_append_right _ pending

theorem leaving_step (inv : Attended c) (h : engine.next c a = some c') (ok : SteadyRoutine c a) (j : FiberId)
    (f' : FiberRecord) (k : ServiceId) (p : FiberId) (hf' : c'.state.find j = some f') (active : f'.state = .active)
    (names : f'.committed.find? k = some p) (down : ∀ q, c'.state.find p = some q → q.state ≠ .active) :
    ∃ b, .beginUnload j b ∈ c'.stack := by
  obtain ⟨f, hf, same, was⟩ := routine_active inv.toRoutine (routine_acts inv.toRoutine h ok.1) hf' active
  rw [same] at names
  obtain ⟨fr, rest, fs, rfl, hst, d, hst'⟩ | ⟨o, fs, rfl, d, hst'⟩ := steady_acts inv.toRoutine h ok
  · have up : f.state = .active := was.resolve_right fun pub => by cases pub.2.2.2
    by_cases live : ∃ q, c.state.find p = some q ∧ q.state = .active
    · obtain ⟨q, hq, live⟩ := live
      obtain ⟨q', hq', live', -⟩ | ⟨b, rfl⟩ | rfl := d.stays hq live
      · exact absurd live' (down q' hq')
      · have member := inv.enlisted j f k p q hf up names hq
        refine ⟨true, ?_⟩
        rw [hst', (d.withdraws hq live).1, List.append_assoc]
        exact List.mem_append_left _ (List.mem_map.mpr ⟨j, member, rfl⟩)
      · exact absurd live (inv.toRoutine.erases_down hst hq)
    · obtain ⟨b, pending⟩ := inv.leaving j f k p hf up names fun q hq up => live ⟨q, hq, up⟩
      exact ⟨b, pending_kept inv.toRoutine h ok hf up hf' active pending⟩
  · obtain up | ⟨loading, published, -, -⟩ := was
    · by_cases live : ∃ q, c.state.find p = some q ∧ q.state = .active
      · obtain ⟨q, hq, live⟩ := live
        obtain ⟨q', hq', live', -⟩ := d.stays inv.known hq live
        exact absurd live' (down q' hq')
      · obtain ⟨b, pending⟩ := inv.leaving j f k p hf up names fun q hq up => live ⟨q, hq, up⟩
        exact ⟨b, hst' ▸ List.mem_append_right _ pending⟩
    · have current : c.state.providersStillActive f = true := by
        by_contra stale
        simp [Runtime.publishes, stale] at published
      obtain ⟨b, found, -, own, bound, -⟩ := Runtime.providersStillActive_iff.mp current k p names
      obtain ⟨q, hq, live, -⟩ := inv.toHomes.offers found bound
      rw [own] at hq
      obtain ⟨q', hq', live', -⟩ := d.stays inv.known hq live
      exact absurd live' (down q' hq')

theorem attended_reached (h : engine.system.Reached SteadyRoutine c) : Attended c :=
  h.invariant (fun _ start => attended_start start) fun _ _ _ _ inv step ok =>
    ⟨listed_step inv.toListed step ok.1, declared_step inv (routine_acts inv.toRoutine step ok.1),
      leaving_step inv step ok⟩

/-- In a routine run in which no factory throws, each fiber that an active one has committed to is mounted, declares the
key, is active and has it as a consumer, whenever no cascade is running. -/
theorem providers_active_at_rest (reached : engine.system.Reached SteadyRoutine c) (empty : c.stack = []) (j : FiberId)
    (f : FiberRecord) (hf : c.state.find j = some f) (active : f.state = .active) (k : ServiceId) (p : FiberId)
    (names : f.committed.find? k = some p) :
    ∃ q, c.state.find p = some q ∧ q.state = .active ∧ k ∈ q.provide ∧ j ∈ q.consumers := by
  have inv := attended_reached reached
  by_contra missing
  obtain ⟨b, pending⟩ := inv.leaving j f k p hf active names fun q hq live =>
    missing ⟨q, hq, live, inv.declared j f k p q hf names hq, inv.enlisted j f k p q hf active names hq⟩
  rw [empty] at pending
  cases pending

end

/-! A publication -/

/-- The provider is published, and then its consumer is mounted. -/
def mountedLogger : List Op :=
  [.mount loggerProvider, .provide 1 ⟨"logger", 1⟩ 7 true, .complete 1 none, .mount loggerConsumer]

/-- The consumer is published last, and joins the consumers of the logger. -/
theorem published_on_active_logger : ∃ c c' f, engine.next c (.op (.complete 3 none)) = some c' ∧
    c.state.find 3 = some f ∧ f.state = .loading ∧ Backed c c' 3 f ⟨"logger", 1⟩ 1 := by
  have played : (engine.play routineStep? 20 ⟨{}, []⟩ mountedLogger).any (fun c => (c.state.find 3).any fun f =>
      f.state == .loading && f.committed.find? ⟨"logger", 1⟩ == some 1 &&
        (engine.next c (.op (.complete 3 none))).any fun c' => (c'.state.find 3).any (·.state == .active)) = true := by
    decide +kernel
  obtain ⟨c, run, shown⟩ := (Option.any_eq_true _ _).mp played
  obtain ⟨f, hf, both⟩ := (Option.any_eq_true _ _).mp shown
  simp only [Bool.and_eq_true, beq_iff_eq] at both
  obtain ⟨⟨loading, names⟩, next⟩ := both
  obtain ⟨c', h, there⟩ := (Option.any_eq_true _ _).mp next
  obtain ⟨f', hf', up⟩ := (Option.any_eq_true _ _).mp there
  have reached := StackMachine.play_reached routineStep_of_check run (.start engine_start)
  have published := (published_on_active reached).1 _ c' 3 f f' h trivial hf (by simp [loading]) hf' (beq_iff_eq.mp up)
  exact ⟨c, c', f, h, hf, loading, published.2.2.2.2.2 _ _ names⟩

def steadyRoutine? (c : EngineConfig) (a : Label Op) : Bool :=
  routineStep? c a && match a, c.stack with
    | .run, fr :: _ =>
      match c.state.exec fr with
      | .call .. => true
      | .throw _ => false
    | _, _ => true

theorem steadyRoutine_of_check (c : EngineConfig) (a : Label Op) (h : steadyRoutine? c a = true) : SteadyRoutine c a := by
  obtain ⟨routine, returns⟩ := Bool.and_eq_true_iff.mp h
  refine ⟨routineStep_of_check c a routine, ?_⟩
  cases a with
  | op o => trivial
  | run =>
      intro fr rest s' hst hx
      simp only [hst, show c.state.exec fr = .throw s' from hx] at returns
      cases returns

theorem providers_active_at_rest_logger : ∃ c : EngineConfig, c.stack = [] ∧ ∃ f q, c.state.find 3 = some f ∧
    f.state = .active ∧ c.state.find 1 = some q ∧ q.state = .active ∧ 3 ∈ q.consumers := by
  have played : (engine.play steadyRoutine? 20 ⟨{}, []⟩ (mountedLogger ++ [.complete 3 none])).any (fun c =>
      c.stack.isEmpty && (c.state.find 3).any fun f => f.state == .active &&
        f.committed.find? ⟨"logger", 1⟩ == some 1) = true := by
    decide +kernel
  obtain ⟨c, run, shown⟩ := (Option.any_eq_true _ _).mp played
  obtain ⟨empty, found⟩ := Bool.and_eq_true_iff.mp shown
  obtain ⟨f, hf, both⟩ := (Option.any_eq_true _ _).mp found
  obtain ⟨active, names⟩ := Bool.and_eq_true_iff.mp both
  have reached := StackMachine.play_reached steadyRoutine_of_check run (.start engine_start)
  obtain ⟨q, hq, live, -, member⟩ := providers_active_at_rest reached (List.isEmpty_iff.mp empty) 3 f hf
    (beq_iff_eq.mp active) _ 1 (beq_iff_eq.mp names)
  exact ⟨c, List.isEmpty_iff.mp empty, f, q, hf, beq_iff_eq.mp active, hq, live, member⟩

end Araya
