import Araya.Runtime.Publication
import Araya.Util.Calculus

/-!
The engine refines the calculus of fibers. The frames of a cascade take single steps of it, a call of the outside at most
two, and what neither the stages nor the views nor the table show is no step at all; so what the rules keep holds in the
middle of every cascade.
-/

namespace Araya

open Calculus (Law Spells)

/-! The abstraction -/

def FiberState.stage : FiberState → Calculus.Stage
  | .inactive => .inactive
  | .loading => .reloading
  | .active => .active
  | .unloading => .unloading

def FiberRecord.abstracted (f : FiberRecord) : Calculus.Fiber FiberId ServiceId where
  provides := {k | k ∈ f.provide}
  declares := {k | k ∈ f.descriptor.injectKeys}
  requires := {k | ∃ d ∈ f.inject, d.required = true ∧ d.key = k}
  needs := by
    rintro k ⟨d, hd, -, rfl⟩
    exact List.mem_map_of_mem hd
  stage := f.state.stage
  view k := if f.state = .inactive then none else f.committed.find? k
  retired := decide (f.reactivate < 0)

namespace Runtime

/-- The provider of the binding that a key has in the scope, where it can be used. -/
def tabled (rt : Runtime) (s : ScopeId) (k : ServiceId) : Option FiberId :=
  ((rt.contexts.lookup s k).filter fun b => b.value.isSome && b.state == .active && b.available).map (·.provider)

def abstracted (rt : Runtime) (s : ScopeId) : Calculus.State FiberId ServiceId where
  registry j := (rt.find j).map FiberRecord.abstracted
  table := rt.tabled s

section
variable {rt rt' : Runtime} {s : ScopeId} {id j p : FiberId} {k : ServiceId} {fr : Frame} {fs : List Frame}
  {f g : FiberRecord}

theorem tabled_iff : rt.tabled s k = some p ↔ ∃ b, rt.contexts.lookup s k = some b ∧ b.value.isSome = true ∧
    b.state = .active ∧ b.available = true ∧ b.provider = p := by
  simp only [tabled, Option.map_eq_some_iff, Option.filter_eq_some_iff, Bool.and_eq_true, beq_iff_eq]
  constructor
  · rintro ⟨b, ⟨found, ⟨value, active⟩, available⟩, own⟩
    exact ⟨b, found, value, active, available, own⟩
  · rintro ⟨b, found, value, active, available, own⟩
    exact ⟨b, ⟨found, ⟨value, active⟩, available⟩, own⟩

theorem offered_tabled : rt.offered s j k = some p ↔ rt.tabled s k = some p ∧ p ≠ j := by
  rw [offered_iff, tabled_iff]
  constructor
  · rintro ⟨b, found, value, active, available, own, other⟩
    exact ⟨⟨b, found, value, active, available, own⟩, other⟩
  · rintro ⟨⟨b, found, value, active, available, own⟩, other⟩
    exact ⟨b, found, value, active, available, own, other⟩

theorem abstracted_offers : (rt.abstracted s).offers j k = rt.offered s j k := by
  refine Option.ext fun p => ?_
  rw [Calculus.offers_some, offered_tabled]
  rfl

/-- The view that resolution finds is the target view. -/
theorem abstracted_target (scope : f.scope = s) {view : SortedMap ServiceId FiberId} :
    (rt.abstracted s).Target id f.abstracted (view.find? ·) ↔
      0 ≤ f.reactivate ∧ (rt.resolve id f).satisfiable = true ∧ (rt.resolve id f).providers = view := by
  have found : (rt.resolve id f).satisfiable = true ∧ (rt.resolve id f).providers = view ↔ _ :=
    resolve_view (f := { f with committed := view }) scope
  rw [found]
  constructor
  · intro target
    refine ⟨Int.not_lt.mp (of_decide_eq_false target.kept), fun d hd needed => ?_, fun k => ?_⟩
    · rw [← abstracted_offers]
      exact target.required d.key ⟨d, hd, needed, rfl⟩
    · split
      · next declares => exact (target.declared k declares).trans abstracted_offers
      · next undeclared => exact target.undeclared k undeclared
  · rintro ⟨kept, required, view⟩
    refine ⟨decide_eq_false (Int.not_lt.mpr kept), ?_, fun k declares => ?_, fun k undeclared => ?_⟩
    · rintro k ⟨d, hd, needed, rfl⟩
      rw [abstracted_offers]
      exact required d hd needed
    · exact (view k).trans ((if_pos declares).trans abstracted_offers.symm)
    · exact (view k).trans (if_neg undeclared)

/-- A frame takes an entry from the table only where the unload of its provider begins. -/
theorem Does.tabled {c : EngineConfig} (inv : Calmed s c) (d : c.state.Does fr rt' fs) (k : ServiceId) :
    rt'.tabled s k = c.state.tabled s k ∨ rt'.tabled s k = none ∧ ∃ p r f, fr = .beginUnload p r ∧
      c.state.tabled s k = some p ∧ c.state.find p = some f ∧ f.state = .active := by
  have read {rt : Runtime} {p : FiberId} (entry : rt.tabled s k = some p) : rt.offered s (p + 1) k = some p :=
    offered_tabled.mpr ⟨entry, Nat.ne_of_lt (Nat.lt_succ_self p)⟩
  cases before : c.state.tabled s k with
  | some p =>
      obtain same | ⟨gone, q, r, f, top, offer, hf, active, -⟩ := d.offered (j := p + 1) (k := k) inv
      · exact .inl (offered_tabled.mp (same.trans (read before))).1
      · cases (read before).symm.trans offer
        refine .inr ⟨?_, p, r, f, top, rfl, hf, active⟩
        cases after : rt'.tabled s k with
        | none => rfl
        | some q =>
            obtain same | ⟨gone', -⟩ := d.offered (j := q + 1) (k := k) inv
            · cases before.symm.trans (offered_tabled.mp (same.symm.trans (read after))).1
              cases (read after).symm.trans gone
            · cases (read after).symm.trans gone'
  | none =>
      cases after : rt'.tabled s k with
      | none => exact .inl rfl
      | some q =>
          obtain same | ⟨gone, -⟩ := d.offered (j := q + 1) (k := k) inv
          · cases before.symm.trans (offered_tabled.mp (same.symm.trans (read after))).1
          · cases (read after).symm.trans gone

/-- A call of the outside makes an entry in the table only where the provider is published. -/
theorem Called.tabled {c : EngineConfig} {o : Op} (inv : Calmed s c) (calm : o.Calm s c.state)
    (d : c.state.Called o rt' fs) (k : ServiceId) : rt'.tabled s k = c.state.tabled s k ∨
      ∃ p f, o = .complete p none ∧ rt'.tabled s k = some p ∧ c.state.find p = some f ∧ f.state = .loading ∧
        c.state.publishes f none = true ∧ k ∈ f.provide := by
  have read {rt : Runtime} {p : FiberId} (entry : rt.tabled s k = some p) : rt.offered s (p + 1) k = some p :=
    offered_tabled.mpr ⟨entry, Nat.ne_of_lt (Nat.lt_succ_self p)⟩
  cases after : rt'.tabled s k with
  | some q =>
      obtain same | ⟨-, p, f, call, offer, stands⟩ := d.offered (j := q + 1) (k := k) inv calm
      · exact .inl (offered_tabled.mp (same.symm.trans (read after))).1.symm
      · cases (read after).symm.trans offer
        exact .inr ⟨q, f, call, rfl, stands⟩
  | none =>
      cases before : c.state.tabled s k with
      | none => exact .inl rfl
      | some p =>
          obtain same | ⟨none, -⟩ := d.offered (j := p + 1) (k := k) inv calm
          · cases after.symm.trans (offered_tabled.mp (same.trans (read before))).1
          · cases (read before).symm.trans none

theorem Called.provides {key : ServiceId} {value : Value} {available : Bool}
    (d : rt.Called (.provide id key value available) rt' fs) : fs = [] := by
  cases d
  rfl

/-! What the abstraction shows of a step -/

theorem abstracted_same (found : ∀ j, (rt'.find j).map FiberRecord.abstracted = (rt.find j).map FiberRecord.abstracted)
    (table : ∀ k, rt'.tabled s k = rt.tabled s k) : rt'.abstracted s = rt.abstracted s := by
  rw [abstracted, abstracted, funext table]
  congr
  exact funext found

/-- One fiber is put in the place of another. -/
theorem abstracted_put {t : ServiceId → Option FiberId} (found : ∀ j, (rt'.find j).map FiberRecord.abstracted =
    if j = id then some g.abstracted else (rt.find j).map FiberRecord.abstracted) (table : ∀ k, rt'.tabled s k = t k) :
    rt'.abstracted s = { (rt.abstracted s).put id g.abstracted with table := t } := by
  rw [abstracted, funext table]
  refine congrArg (Calculus.State.mk · _) (funext fun j => ?_)
  rw [Calculus.put_registry]
  exact found j

theorem abstracted_drop (table : ∀ k, rt'.tabled s k = rt.tabled s k) (found : ∀ j, rt'.find j = (rt.eraseFiber id).find j) :
    rt'.abstracted s = (rt.abstracted s).drop id := by
  rw [abstracted, funext table]
  refine congrArg (Calculus.State.mk · _) (funext fun j => ?_)
  rw [found, find_eraseFiber, Function.update_apply]
  split
  · rfl
  · rfl

theorem abstracted_set {rt₁ : Runtime} (same : ∀ k, rt₁.find k = rt.find k) (j : FiberId) :
    ((rt₁.set id g).find j).map FiberRecord.abstracted =
      if j = id then some g.abstracted else (rt.find j).map FiberRecord.abstracted := by
  rw [find_set]
  split
  · rfl
  · rw [same]

/-- What the abstraction does not show of a fiber may change. -/
theorem abstracted_kept {rt₁ : Runtime} (same : ∀ k, rt₁.find k = rt.find k) (hf : rt.find id = some f)
    (own : g.abstracted = f.abstracted) (j : FiberId) :
    ((rt₁.set id g).find j).map FiberRecord.abstracted = (rt.find j).map FiberRecord.abstracted := by
  rw [abstracted_set same]
  split
  · next here =>
      rw [here, hf, own]
      rfl
  · rfl

/-- Of a fiber that does not run the abstraction shows the component and the retirement. -/
theorem abstracted_inactive (hf : f.state = .inactive) (hg : g.state = .inactive) (component : g.descriptor = f.descriptor)
    (same : g.reactivate = f.reactivate) : g.abstracted = f.abstracted := by
  cases f
  cases g
  obtain rfl := component
  obtain rfl := same
  obtain rfl := hf
  obtain rfl := hg
  rfl

/-- Of a fiber that runs on its stage alone is seen to change. -/
theorem abstracted_running (hf : f.state ≠ .inactive) (hg : g.state ≠ .inactive) (component : g.descriptor = f.descriptor)
    (committed : g.committed = f.committed) (same : g.reactivate < 0 ↔ f.reactivate < 0) :
    g.abstracted = { f.abstracted with stage := g.state.stage } := by
  cases f
  cases g
  obtain rfl := component
  obtain rfl := committed
  simp only [FiberRecord.abstracted, decide_eq_decide.mpr same]
  congr 1
  funext k
  rw [if_neg hf, if_neg hg]

theorem abstracted_view (hf : f.state ≠ .inactive) : f.abstracted.view = (f.committed.find? ·) :=
  funext fun _ => if_neg hf

theorem addConsumer_abstracted (es : List (ServiceId × FiberId)) (j : FiberId) :
    ((rt.addConsumer id es).find j).map FiberRecord.abstracted = (rt.find j).map FiberRecord.abstracted := by
  rw [addConsumer_find, Option.map_map]
  refine congrArg (Option.map · (rt.find j)) (funext fun g => ?_)
  dsimp only [Function.comp_apply]
  split <;> rfl

theorem raiseReactivate_abstracted (f : FiberRecord) (b : Bool) : (raiseReactivate f b).abstracted = f.abstracted := by
  unfold raiseReactivate
  split
  · next kept =>
      have raised : ¬ max f.reactivate (if b then 1 else 0) < 0 := Int.not_lt.mpr (le_max_of_le_left kept)
      simp only [FiberRecord.abstracted, decide_eq_false raised, decide_eq_false (Int.not_lt.mpr kept)]
  · rfl

end
end Runtime

/-! The runs that are refined -/

/-- Calm steps, and orderly ones. -/
def GuidedStep (s : ScopeId) (c : EngineConfig) (a : Label Op) : Prop := CalmStep s c a ∧ OrderlyStep c a

/-- A fiber whose unload is called for is retired, or names a provider that has left. -/
def Frame.Stale (rt : Runtime) (s : ScopeId) : Frame → Prop
  | .beginUnload id _ => ∀ f, rt.find id = some f → f.state = .active →
      f.reactivate < 0 ∨ ∃ k p, f.committed.find? k = some p ∧ rt.offered s id k ≠ some p
  | _ => True

structure Guided (s : ScopeId) (c : EngineConfig) : Prop where
  calmed : Calmed s c
  listed : Listed c
  withdrawal : Withdrawal c
  bound : ∀ j f, c.state.find j = some f → f.Bound c.state.nextId
  stale : ∀ fr ∈ c.stack.tail, fr.Stale c.state s
  first : ∀ id b rest f, c.stack = .beginUnload id b :: rest → c.state.find id = some f → f.state = .active →
    f.reactivate < 0 ∨ (c.state.resolve id f).same f.committed = false

section
variable {s : ScopeId} {c c' : EngineConfig} {a : Label Op}

theorem guided_start (start : engine.system.start c) : Guided s c := by
  have none (j : FiberId) (f : FiberRecord) : c.state.find j ≠ some f := by
    rw [Runtime.find, start.1.fibers]
    exact (Option.some_ne_none f).symm
  refine ⟨calmed_start start, listed_start start, ?_, fun j f hf => absurd hf (none j f), fun fr hfr => ?_,
    fun id b rest f top => ?_⟩
  · obtain ⟨rt, st⟩ := c
    obtain ⟨fresh, rfl⟩ := start
    exact withdrawal_start fresh
  · rw [start.2] at hfr
    cases hfr
  · cases start.2.symm.trans top

/-- A call that waits stays stale. -/
theorem Frame.Stale.kept {fr : Frame} (h : fr.Stale c.state s) (inv : Guided s c) (acts : CalmActs s c c' a)
    (below : c.stack ≠ []) : fr.Stale c'.state s := by
  cases fr with
  | beginUnload id b =>
      intro f' hf' active
      obtain ⟨f, hf, same, -, was | ⟨-, -, empty, -⟩⟩ := active_before inv.calmed acts hf' active
      · obtain down | ⟨k, p, names, gone⟩ := h f hf was
        · obtain ⟨spec, -, empty, -⟩ | ⟨g, _, hg, changed, -⟩ := routine_changed inv.listed.toRoutine acts.routine hf'
          · exact absurd empty below
          · cases hf.symm.trans hg
            exact .inl (changed.down down)
        · refine .inr ⟨k, p, by rw [same]; exact names, ?_⟩
          cases acts with
          | ran hst d hst' =>
              obtain unmoved | ⟨none, -⟩ := d.offered (j := id) (k := k) inv.calmed
              · rw [unmoved]
                exact gone
              · rw [none]
                exact (Option.some_ne_none p).symm
          | called hst calm d hst' =>
              obtain unmoved | ⟨-, q, g, rfl, -⟩ := d.offered (j := id) (k := k) inv.calmed calm
              · rw [unmoved]
                exact gone
              · exact absurd (hst.resolve_right (by simp [Op.nested])) below
      · exact absurd empty below
  | _ => trivial

theorem Frame.Stale.first {id : FiberId} {b : Bool} (h : (Frame.beginUnload id b).Stale c.state s) (inv : Calmed s c)
    {f : FiberRecord} (hf : c.state.find id = some f) (active : f.state = .active) (bound : f.Bound c.state.nextId) :
    f.reactivate < 0 ∨ (c.state.resolve id f).same f.committed = false := by
  obtain down | ⟨k, p, names, gone⟩ := h f hf active
  · exact .inl down
  · refine .inr (Bool.eq_false_iff.mpr fun same => gone ?_)
    have view := (Runtime.resolve_view (inv.records id f hf).scope).mp (Runtime.same_iff.mp same)
    rw [← names, view.2 k, if_pos (bound.declared k p names)]

/-- The calls that a withdrawal pushes are stale. -/
theorem cascade_stale (inv : Guided s c) (next : Calmed s c') (acts : CalmActs s c c' a) {p : FiberId} {f f' : FiberRecord}
    (hf : c.state.find p = some f) (hf' : c'.state.find p = some f') (withdrawn : f'.state ≠ .active)
    (busy : c.stack ≠ []) {i : FiberId} (member : i ∈ f.consumers) : (Frame.beginUnload i true).Stale c'.state s := by
  intro g' hg' active
  obtain ⟨g, hg, same, -, was | ⟨-, -, empty, -⟩⟩ := active_before inv.calmed acts hg' active
  · obtain ⟨y, hy, ⟨-, k, names⟩ | ⟨es, pending, -⟩⟩ :=
      inv.withdrawal.consumers.registered p f.guard i (Runtime.guards_of_find hf) member
    · cases (Runtime.guards_of_find hg).symm.trans hy
      refine .inr ⟨k, p, by rw [same]; exact names, fun offer => withdrawn ?_⟩
      obtain ⟨b, found, -, up, -, own, -⟩ := Runtime.offered_iff.mp offer
      obtain ⟨q, hq, live, -⟩ := next.owners k b found up
      rw [own] at hq
      cases hf'.symm.trans hq
      exact live
    · exact absurd (FiberRecord.phase_active.mpr was) (inv.listed.ended _ pending i rfl g hg).1
  · exact absurd empty busy

/-- What a frame calls is stale, or it is the unload that an evaluation has found due. -/
theorem calls_stale (inv : Guided s c) (next : Calmed s c') (acts : CalmActs s c c' .run) {fr : Frame} {rest fs : List Frame}
    (hst : c.stack = fr :: rest) (d : c.state.Does fr c'.state fs) : (∀ g ∈ fs, g.Stale c'.state s) ∨
      ∃ id b f, fs = [.beginUnload id b] ∧ c'.state.find id = some f ∧ (c'.state.resolve id f).same f.committed = false := by
  have busy : c.stack ≠ [] := hst ▸ List.cons_ne_nil fr rest
  obtain ⟨rt', st'⟩ := c'
  cases d with
  | begun hf _ _ differ => exact .inr ⟨_, _, _, rfl, hf, differ⟩
  | withdrew hf _ _ calls =>
      subst calls
      refine .inl fun g hg => ?_
      obtain cascade | last := List.mem_append.mp hg
      · obtain ⟨i, member, rfl⟩ := List.mem_map.mp cascade
        exact cascade_stale inv next acts hf (Runtime.find_set_self ..) (fun active => by cases active) busy
          member
      · cases List.mem_singleton.mp last
        trivial
  | opened =>
      refine .inl fun g hg => ?_
      obtain ⟨w, -, rfl⟩ := List.mem_map.mp hg
      trivial
  | _ => exact .inl (by simp [Frame.Stale])

theorem stale_step (inv : Guided s c) (next : Calmed s c') (bound : ∀ j f, c'.state.find j = some f → f.Bound c'.state.nextId)
    (acts : CalmActs s c c' a) : (∀ fr ∈ c'.stack.tail, fr.Stale c'.state s) ∧
      ∀ id b rest f, c'.stack = .beginUnload id b :: rest → c'.state.find id = some f → f.state = .active →
        f.reactivate < 0 ∨ (c'.state.resolve id f).same f.committed = false := by
  have all (stale : ∀ fr ∈ c'.stack, fr.Stale c'.state s) : (∀ fr ∈ c'.stack.tail, fr.Stale c'.state s) ∧
      ∀ id b rest f, c'.stack = .beginUnload id b :: rest → c'.state.find id = some f → f.state = .active →
        f.reactivate < 0 ∨ (c'.state.resolve id f).same f.committed = false := by
    refine ⟨fun fr hfr => stale fr (List.mem_of_mem_tail hfr), fun id b rest f top hf active => ?_⟩
    exact (stale _ (top ▸ List.mem_cons_self)).first next hf active (bound id f hf)
  have acts' := acts
  cases acts with
  | @ran fr rest fs hst d hst' =>
      have older (g : Frame) (hg : g ∈ rest) : g.Stale c'.state s :=
        (inv.stale g (by rw [hst]; exact hg)).kept inv acts' (hst ▸ List.cons_ne_nil fr rest)
      obtain stale | ⟨id, b, f, rfl, hf, differ⟩ := calls_stale inv next acts' hst d
      · refine all fun g hg => ?_
        obtain new | below := List.mem_append.mp (hst' ▸ hg)
        · exact stale g new
        · exact older g below
      · rw [hst']
        refine ⟨older, fun id' b' rest' f' top hf' _ => .inr ?_⟩
        cases top
        cases hf.symm.trans hf'
        exact differ
  | @called o fs hst calm d hst' =>
      cases below : c.stack with
      | nil =>
          rw [below, List.append_nil] at hst'
          refine all fun g hg => ?_
          rw [hst'] at hg
          obtain ⟨rt', st'⟩ := c'
          cases d with
          | @retired id f =>
              simp only [List.mem_cons, List.not_mem_nil, or_false] at hg
              rcases hg with rfl | rfl
              · intro f' hf' _
                cases (Runtime.find_set_self ..).symm.trans hf'
                exact .inl (Int.negSucc_lt_zero 0)
              · trivial
          | failed _ _ _ _ calls =>
              subst calls
              simp only [List.mem_cons, List.mem_append, List.not_mem_nil, or_false] at hg
              obtain (rfl | tried) | rfl := hg
              · trivial
              · split at tried
                · cases List.mem_singleton.mp tried
                  trivial
                · cases tried
              · trivial
          | mounted | published =>
              simp only [List.mem_cons, List.not_mem_nil, or_false] at hg
              rcases hg with rfl | rfl <;> trivial
          | _ => cases hg
      | cons top rest =>
          have busy : c.stack ≠ [] := below ▸ List.cons_ne_nil top rest
          obtain ⟨id, key, value, available, rfl⟩ : ∃ id key value available, o = .provide id key value available := by
            cases o with
            | provide id key value available => exact ⟨id, key, value, available, rfl⟩
            | mountChild | cancel => exact calm.elim
            | _ => exact absurd hst (by simp [busy, Op.nested])
          have unmoved (j : FiberId) (k : ServiceId) : c'.state.offered s j k = c.state.offered s j k := by
            obtain same | ⟨-, p, f, call, -⟩ := d.offered (j := j) (k := k) inv.calmed calm
            · exact same
            · cases call
          obtain rfl := d.provides
          rw [hst', below]
          refine ⟨fun g hg => (inv.stale g (by rw [below]; exact hg)).kept inv acts' busy, fun id b rest' f' first hf' active => ?_⟩
          cases first
          obtain ⟨f, hf, same, component, was | ⟨-, -, empty, -⟩⟩ := active_before inv.calmed acts' hf' active
          · obtain down | differ := inv.first id b rest f below hf was
            · obtain ⟨spec, -, empty, -⟩ | ⟨g, _, hg, changed, -⟩ := routine_changed inv.listed.toRoutine acts'.routine hf'
              · exact absurd empty busy
              · cases hf.symm.trans hg
                exact .inl (changed.down down)
            · refine .inr (Bool.eq_false_iff.mpr fun settled => Bool.eq_false_iff.mp differ (Runtime.same_iff.mpr ?_))
              have view := (Runtime.resolve_view (next.records id f' hf').scope).mp (Runtime.same_iff.mp settled)
              refine (Runtime.resolve_view (inv.calmed.records id f hf).scope).mpr ?_
              simpa only [unmoved, same, component, FiberRecord.inject] using view
          · exact absurd empty busy

theorem guided_step (inv : Guided s c) (h : engine.next c a = some c') (ok : GuidedStep s c a) : Guided s c' := by
  have acts := calm_acts inv.calmed h ok.1
  have next := calmed_step inv.calmed h ok.1
  have bound (j : FiberId) (f' : FiberRecord) (hf' : c'.state.find j = some f') : f'.Bound c'.state.nextId := by
    obtain ⟨spec, -, -, -, -, rfl⟩ | ⟨f, _, hf, changed, -⟩ := calm_changed inv.calmed acts hf'
    · have empty (k : ServiceId) (p : FiberId) : (∅ : SortedMap ServiceId FiberId).find? k ≠ some p := by simp
      exact ⟨fun k p hk => absurd hk (empty k p), fun busy => (by rcases busy with h | h <;> cases h),
        fun k p hk => absurd hk (empty k p)⟩
    · exact changed.bound inv.calmed.wellFormed (engine_nextId h) (inv.bound j f hf)
  obtain ⟨stale, first⟩ := stale_step inv next bound acts
  exact ⟨next, listed_step inv.listed h ok.1.routine, withdrawal_step inv.withdrawal h ok.2, bound, stale, first⟩

theorem guided_reached (h : engine.system.Reached (GuidedStep s) c) : Guided s c :=
  h.invariant (fun _ start => guided_start start) fun _ _ _ _ inv step good => guided_step inv step good

end

/-! The steps and the rules -/

/-- The rules a frame may spell. -/
def Frame.laws : Frame → List (List Law)
  | .evaluate _ => [[], [.lBegin]]
  | .beginUnload .. => [[], [.lDivert], [.lLeave]]
  | .maybeFinishUnload _ => [[], [.lUnload]]
  | .resume _ => [[], [.oRemove]]
  | _ => [[]]

def Op.laws : Op → List (List Law)
  | .mount _ => [[.oInsert]]
  | .retire _ => [[], [.oRetire], [.oRemove], [.oRetire, .oRemove]]
  | .complete .. => [[], [.lFinish], [.lUnload], [.lDivert, .lUnload]]
  | _ => [[]]

/-- The rules the next step may spell. -/
def lawsOf (c : EngineConfig) : Label Op → List (List Law)
  | .run => c.stack.head?.elim [] Frame.laws
  | .op o => o.laws

theorem Frame.laws_still (fr : Frame) : [] ∈ fr.laws := by
  cases fr <;> simp [Frame.laws]

section
variable {s : ScopeId} {c : EngineConfig} {rt' : Runtime} {id : FiberId} {f : FiberRecord}

theorem abstracted_found (hf : c.state.find id = some f) : (c.state.abstracted s).registry id = some f.abstracted :=
  congrArg (Option.map FiberRecord.abstracted) hf

/-- A fiber that no active fiber has committed to is not relied on. -/
theorem not_relied (alone : ∀ j g, c.state.find j = some g → g.Names id → g.state ≠ .active) :
    ¬ (c.state.abstracted s).Relied id := by
  rintro ⟨j, y, k, -, found, active, names⟩
  obtain ⟨g, hg, rfl⟩ := Option.map_eq_some_iff.mp found
  have awake : g.state = .active := by
    cases hs : g.state <;> simp [FiberRecord.abstracted, FiberState.stage, hs] at active
    rfl
  rw [Runtime.abstracted_view (by simp [awake])] at names
  exact alone j g hg ⟨k, names⟩ awake

/-- A fiber whose apply is out has no consumers. -/
theorem Guided.unnamed (inv : Guided s c) (hf : c.state.find id = some f) (applied : id ∈ c.state.applies) (j : FiberId)
    (g : FiberRecord) (hg : c.state.find j = some g) (names : g.Names id) : g.state ≠ .active := by
  intro active
  have books := inv.withdrawal.accounts.books
  have unpublished : ¬ f.guard.Published := by
    have phase := books.applying id f.guard applied (Runtime.guards_of_find hf)
    rintro (up | leaving)
    · rw [up] at phase
      simp at phase
    · rw [leaving] at phase
      simp at phase
  have registered := inv.withdrawal.consumers.registers j g.guard id f.guard (Runtime.guards_of_find hg)
    (.inl (FiberRecord.phase_active.mpr active)) names (Runtime.guards_of_find hf)
  rw [(books.balanced id f.guard (Runtime.guards_of_find hf)).no_consumers unpublished] at registered
  exact SortedSet.not_mem_empty j registered

theorem Runtime.Does.spells (inv : Guided s c) (next : ∀ k b, rt'.contexts.lookup s k = some b → b.state = .active →
    ∃ f, rt'.find b.provider = some f ∧ f.state = .active ∧ k ∈ f.provide) {fr : Frame} {rest fs : List Frame}
    (hst : c.stack = fr :: rest) (d : c.state.Does fr rt' fs) :
    ∃ word ∈ fr.laws, Spells word (c.state.abstracted s) (rt'.abstracted s) := by
  have still (found : ∀ j, (rt'.find j).map FiberRecord.abstracted = (c.state.find j).map FiberRecord.abstracted)
      (table : ∀ k, rt'.tabled s k = c.state.tabled s k) :
      ∃ word ∈ fr.laws, Spells word (c.state.abstracted s) (rt'.abstracted s) :=
    ⟨[], fr.laws_still, abstracted_same found table⟩
  have entries := d.tabled inv.calmed
  have table (idle : ∀ p b f, fr = .beginUnload p b → c.state.find p = some f → f.state ≠ .active) (k : ServiceId) :
      rt'.tabled s k = c.state.tabled s k := by
    obtain same | ⟨-, p, b, f, top, -, hf, active⟩ := entries k
    · exact same
    · exact absurd active (idle p b f top hf)
  cases d with
  | passed | begun | gone | unstopped | held | drained | skipped | shut | toldNone | tells | unheard | heard | lost |
    wakes | overlooks | rested | ended | through => exact still (fun j => rfl) fun k => rfl
  | heardAll => exact still (fun j => by rw [dropStale_find]) (table fun p b f same => by cases same)
  | noted _ hx | stopped hx | released hx | opened hx | waits hx =>
      exact still (abstracted_kept (fun _ => rfl) hx rfl) (table fun p b f same => by cases same)
  | revived hx up =>
      refine still (abstracted_kept (fun _ => rfl) hx ?_) (table fun p b f same => by cases same)
      simp only [FiberRecord.abstracted, decide_eq_false (Int.not_lt.mpr (Int.le_of_lt up)), Int.lt_irrefl, decide_false]
  | @lapsed id f hx hs =>
      exact still (abstracted_kept (fun _ => rfl) hx (abstracted_inactive hs rfl rfl rfl)) (table fun p b f same => by cases same)
  | raised hx hs =>
      refine still (abstracted_kept (fun _ => rfl) hx (raiseReactivate_abstracted _ _)) (table fun p b f same hf active => ?_)
      cases same
      cases hx.symm.trans hf
      simp [active] at hs
  | @loaded id f r hx hs kept hr met _ =>
      subst hr
      refine ⟨[.lBegin], by simp [Frame.laws], _, .lBegin (abstracted_found hx) (by rw [FiberRecord.abstracted, hs]; rfl)
        ((abstracted_target (inv.calmed.records id f hx).scope).mpr ⟨kept, met, rfl⟩), ?_⟩
      exact abstracted_put (abstracted_set fun _ => rfl) (table fun p b f same => by cases same)
  | @diverted id f b hx hs =>
      refine ⟨[.lDivert], by simp [Frame.laws], _, .lDivert (abstracted_found hx) (by rw [FiberRecord.abstracted, hs]; rfl), ?_⟩
      have shown : (Runtime.diverted (raiseReactivate f b)).abstracted = { f.abstracted with stage := .unloading } := by
        rw [← raiseReactivate_abstracted f b]
        exact abstracted_running (by rw [raiseReactivate_state, hs]; simp) (by simp [Runtime.diverted]) rfl rfl Iff.rfl
      rw [← shown]
      refine abstracted_put (abstracted_set fun _ => rfl) (table fun p b f same hf active => ?_)
      cases same
      cases hx.symm.trans hf
      rw [hs] at active
      cases active
  | @withdrew id f g b _ hx hs hg =>
      subst hg
      have running : f.abstracted.stage = .active := by rw [FiberRecord.abstracted, hs]; rfl
      refine ⟨[.lLeave], by simp [Frame.laws], _, .lLeave (abstracted_found hx) running ?_, ?_⟩
      · intro target
        obtain down | differ := inv.first id b rest f hst hx hs
        · exact absurd (of_decide_eq_false target.kept) (not_not.mpr down)
        · rw [abstracted_view (by simp [hs]), abstracted_target (inv.calmed.records id f hx).scope] at target
          rw [Runtime.same_iff.mpr target.2] at differ
          cases differ
      · have shown : ((withdrawing (raiseReactivate f b) (c.state.countInstalled (raiseReactivate f b).consumers))).abstracted =
            { f.abstracted with stage := .unloading } := by
          rw [← raiseReactivate_abstracted f b]
          exact abstracted_running (by rw [raiseReactivate_state, hs]; simp) (by simp [withdrawing]) rfl rfl Iff.rfl
        have entry (k : ServiceId) : (((c.state.set id (withdrawing (raiseReactivate f b)
            (c.state.countInstalled (raiseReactivate f b).consumers))).transitionStarted.markBindings id (raiseReactivate f b)
              .retiring).tabled s k) = if c.state.tabled s k = some id then none else c.state.tabled s k := by
          obtain same | ⟨gone, p, b', f', top, entry, -⟩ := entries k
          · rw [same]
            split
            · next own =>
                obtain ⟨b', found, -, active, -, rfl⟩ := tabled_iff.mp (same.trans own)
                obtain ⟨g, hg, up, -⟩ := next k b' found active
                cases (find_set_self ..).symm.trans hg
                cases up
            · rfl
          · cases top
            rw [gone, if_pos entry]
        rw [← shown]
        exact abstracted_put (abstracted_set fun _ => rfl) entry
  | @finished id f hx hs settled =>
      refine ⟨[.lUnload], by simp [Frame.laws], _, .lUnload (abstracted_found hx) (by rw [FiberRecord.abstracted, hs]; rfl)
        (not_relied fun j g hg names => ?_), ?_⟩
      · exact (withdrawal_teardown inv.withdrawal id rest f hst hx hs settled j g hg names).1
      · exact abstracted_put (abstracted_set fun k => teardownOf_find _ id k f) (table fun p b f same => by cases same)
  | @erased id =>
      cases hx : c.state.find id with
      | none =>
          refine still (fun j => ?_) (table fun p b f same => by cases same)
          rw [find_eraseFiber]
          split
          · next here => rw [here, hx]
          · rfl
      | some f =>
          obtain ⟨_, same, down⟩ := inv.calmed.frames _ (hst ▸ List.mem_cons_self)
          cases same
          have settled := inv.withdrawal.retirement.calls _ (hst ▸ List.mem_cons_self) id List.mem_cons_self
          have inactive : f.state = .inactive := by
            refine FiberRecord.phase_inactive.mp ((settled.2.resolve_left ?_) f.guard (guards_of_find hx)).1
            exact List.not_mem_nil
          refine ⟨[.oRemove], by simp [Frame.laws], _, .oRemove (abstracted_found hx) (decide_eq_true (down f hx))
            (by rw [FiberRecord.abstracted, inactive]; rfl), ?_⟩
          exact abstracted_drop (table fun p b f same => by cases same) fun _ => rfl

theorem Runtime.Called.spells (inv : Guided s c) {o : Op} {fs : List Frame} (calm : o.Calm s c.state)
    (d : c.state.Called o rt' fs) : ∃ word ∈ o.laws, Spells word (c.state.abstracted s) (rt'.abstracted s) := by
  have entries := d.tabled inv.calmed calm
  have table (unpublished : ∀ p f, o = .complete p none → c.state.find p = some f → f.state = .loading →
      c.state.publishes f none = false) (k : ServiceId) : rt'.tabled s k = c.state.tabled s k := by
    obtain same | ⟨p, f, call, -, hf, loading, published, -⟩ := entries k
    · exact same
    · rw [unpublished p f call hf loading] at published
      cases published
  cases d with
  | @mounted spec =>
      have fresh : c.state.find c.state.nextId = none := by
        cases found : c.state.find c.state.nextId with
        | none => rfl
        | some f => exact absurd (inv.calmed.known _ f found) (Nat.lt_irrefl _)
      refine ⟨[.oInsert], by simp [Op.laws], (c.state.abstracted s).put c.state.nextId (mountedRecord spec 0).abstracted,
        .oInsert (congrArg (Option.map FiberRecord.abstracted) fresh) rfl (fun k => rfl) ?_, ?_⟩
      · intro j y found k declared
        obtain ⟨g, hg, rfl⟩ := Option.map_eq_some_iff.mp found
        exact calm.2 j g hg k declared
      · exact abstracted_put (abstracted_set fun _ => rfl) (table fun p f same => by cases same)
  | absent => exact ⟨[], by simp [Op.laws], rfl⟩
  | @erased id f hx inactive =>
      have dropped : (c.state.eraseFiber id).abstracted s = (c.state.abstracted s).drop id :=
        abstracted_drop (table fun p f same => by cases same) fun _ => rfl
      have stage : f.abstracted.stage = .inactive := by rw [FiberRecord.abstracted, inactive]; rfl
      by_cases down : f.reactivate < 0
      · exact ⟨[.oRemove], by simp [Op.laws], _, .oRemove (abstracted_found hx) (decide_eq_true down) stage, dropped⟩
      · refine ⟨[.oRetire, .oRemove], by simp [Op.laws], _, .oRetire (abstracted_found hx) (decide_eq_false down), _,
          .oRemove (Function.update_self ..) rfl stage, dropped.trans ?_⟩
        rw [Calculus.State.drop, Calculus.State.drop, Calculus.State.put, Function.update_idem]
  | @retired id f hx awake =>
      by_cases down : f.reactivate < 0
      · refine ⟨[], by simp [Op.laws], abstracted_same (abstracted_kept (fun _ => rfl) hx ?_) (table fun p f same => by cases same)⟩
        exact abstracted_running awake awake rfl rfl ⟨fun _ => down, fun _ => Int.negSucc_lt_zero 0⟩
      · refine ⟨[.oRetire], by simp [Op.laws], _, .oRetire (abstracted_found hx) (decide_eq_false down), ?_⟩
        exact abstracted_put (abstracted_set fun _ => rfl) (table fun p f same => by cases same)
  | ignored _ idle =>
      refine ⟨[], by simp [Op.laws], abstracted_same (fun _ => rfl) (table fun p f same hf loading => ?_)⟩
      cases same
      exact absurd loading (idle f hf).1
  | @published id f _ hx loading published =>
      have current : c.state.providersStillActive f = true := by
        by_contra stale
        simp [Runtime.publishes, stale] at published
      have shown : (activated f).abstracted = { f.abstracted with stage := .active } :=
        abstracted_running (by simp [loading]) (by simp [activated]) rfl rfl Iff.rfl
      refine ⟨[.lFinish], by simp [Op.laws], { (c.state.abstracted s).put id { f.abstracted with stage := .active } with
          table := ({ c.state with applies := c.state.applies.erase id }.publish id f).1.tabled s },
        .lFinish (abstracted_found hx) (by rw [FiberRecord.abstracted, loading]; rfl) (fun k m reads => ?_) (fun k => ?_), ?_⟩
      · rw [abstracted_view (by simp [loading])] at reads
        obtain ⟨b, found, value, own, active, available⟩ := providersStillActive_iff.mp current k m reads
        rw [(inv.calmed.records id f hx).scope] at found
        exact tabled_iff.mpr ⟨b, found, value, active, available, own⟩
      · obtain same | ⟨p, g, call, entry, hg, -, -, declared⟩ := entries k
        · exact .inl same
        · cases call
          cases hx.symm.trans hg
          exact .inr ⟨declared, entry⟩
      · rw [← shown]
        exact abstracted_put (fun j => (addConsumer_abstracted ..).trans (abstracted_set (fun _ => rfl) j)) fun k => rfl
  | @failed id f ep _ applied hx due failed _ =>
      obtain rfl := calm
      have shown : (parked (applyOutcome f none)).abstracted =
          { f.abstracted with stage := .inactive, view := fun _ => none } := by
        obtain ⟨error, failed, outcome, -⟩ := applyOutcome_eq f none
        rw [outcome]
        rfl
      have relied : ¬ (c.state.abstracted s).Relied id := not_relied (inv.unnamed hx applied)
      have parks : (((({ c.state with applies := c.state.applies.erase id } : Runtime).teardownOf id f).set id
          (parked (applyOutcome f none))).abstracted s) =
            (c.state.abstracted s).put id { f.abstracted with stage := .inactive, view := fun _ => none } := by
        rw [← shown]
        refine abstracted_put (abstracted_set fun k => teardownOf_find _ id k f) (table fun p g call hg _ => ?_)
        cases call
        cases hx.symm.trans hg
        exact failed
      obtain loading | unloading := due
      · refine ⟨[.lDivert, .lUnload], by simp [Op.laws], _, .lDivert (abstracted_found hx)
          (by rw [FiberRecord.abstracted, loading]; rfl), _, .lUnload (Function.update_self ..) rfl
            (fun later => relied (Calculus.put_relied later)), parks.trans ?_⟩
        rw [Calculus.State.put, Calculus.State.put, Calculus.State.put, Function.update_idem]
      · exact ⟨[.lUnload], by simp [Op.laws], _, .lUnload (abstracted_found hx)
          (by rw [FiberRecord.abstracted, unloading]; rfl) relied, parks⟩
  | @provided id key value available f act hx there =>
      exact ⟨[], by simp [Op.laws], abstracted_same (abstracted_kept (fun _ => rfl) hx rfl) (table fun p f same => by cases same)⟩

end

section
variable {s : ScopeId} {c c' : EngineConfig} {a : Label Op}

theorem abstracted_start (start : engine.system.start c) : c.state.abstracted s = .empty := by
  have unbound (k : ServiceId) : c.state.tabled s k = none := by
    cases entry : c.state.tabled s k with
    | none => rfl
    | some p =>
        obtain ⟨b, found, -⟩ := Runtime.tabled_iff.mp entry
        obtain ⟨d, -, stored⟩ := Contexts.lookup_some found
        rw [start.1.bindings] at stored
        cases stored
  rw [Runtime.abstracted, funext unbound]
  refine congrArg (Calculus.State.mk · _) (funext fun j => ?_)
  rw [Runtime.find, start.1.fibers]
  rfl

theorem guided_spells (inv : Guided s c) (h : engine.next c a = some c') (ok : GuidedStep s c a) :
    ∃ word ∈ lawsOf c a, Spells word (c.state.abstracted s) (c'.state.abstracted s) := by
  have acts := calm_acts inv.calmed h ok.1
  have next := calmed_step inv.calmed h ok.1
  cases acts with
  | @ran fr rest fs hst d hst' =>
      obtain ⟨word, member, spells⟩ := d.spells inv next.owners hst
      refine ⟨word, ?_, spells⟩
      rw [lawsOf, hst]
      exact member
  | called _ calm d _ => exact d.spells inv calm

theorem guided_sound (reached : engine.system.Reached (GuidedStep s) c) : Calculus.Sound (c.state.abstracted s) := by
  refine reached.invariant (I := fun c => Calculus.Sound (c.state.abstracted s)) (fun c start => ?_)
    fun c a c' before sound step ok => ?_
  · rw [abstracted_start start]
    exact .empty
  · obtain ⟨word, -, spells⟩ := guided_spells (guided_reached before) step ok
    exact spells.sound sound

/-- At every moment of such a run an active fiber has committed to all it requires, and each fiber it has committed to is
mounted, declares the key, and is active or about to be withdrawn. -/
theorem active_reads_installed (reached : engine.system.Reached (GuidedStep s) c) (j : FiberId) (f : FiberRecord)
    (hf : c.state.find j = some f) (active : f.state = .active) :
    (∀ d ∈ f.inject, d.required = true → ∃ p, f.committed.find? d.key = some p) ∧
      ∀ k p, f.committed.find? k = some p → p ≠ j ∧ ∃ q, c.state.find p = some q ∧ k ∈ q.provide ∧
        (q.state = .active ∨ q.state = .unloading) := by
  have sound := guided_sound reached
  have found := abstracted_found (s := s) hf
  have stage : f.abstracted.stage = .active := by rw [FiberRecord.abstracted, active]; rfl
  have view := Runtime.abstracted_view (f := f) (by simp [active])
  refine ⟨fun d hd needed => ?_, fun k p names => ⟨?_, ?_⟩⟩
  · have taken := sound.required j _ found (.inr stage) d.key ⟨d, hd, needed, rfl⟩
    rw [view] at taken
    exact Option.ne_none_iff_exists'.mp taken
  · rintro rfl
    exact sound.others p _ k found (view ▸ names)
  · obtain ⟨x, hx, standing, declared⟩ := sound.installed j _ k p found stage (view ▸ names)
    obtain ⟨q, hq, rfl⟩ := Option.map_eq_some_iff.mp hx
    refine ⟨q, hq, declared, ?_⟩
    cases state : q.state <;> simp [Calculus.Fiber.Installed, FiberRecord.abstracted, FiberState.stage, state] at standing
    · exact .inl rfl
    · exact .inr rfl

end

/-! A retirement -/

def guided? (s : ScopeId) (c : EngineConfig) (a : Label Op) : Bool := calmStep? s c a && orderlyStep? c a

theorem guided_of_check {s : ScopeId} (c : EngineConfig) (a : Label Op) (h : guided? s c a = true) : GuidedStep s c a := by
  obtain ⟨calm, orderly⟩ := Bool.and_eq_true_iff.mp h
  exact ⟨calmStep_of_check c a calm, orderlyStep_of_check c a orderly⟩

/-- The provider of the logger is retired while it has a consumer, up to the call that withdraws it. -/
def retiringLogger : Option EngineConfig :=
  (engine.play (guided? 0) 20 ⟨{}, []⟩ (mountedLogger ++ [.complete 3 none])).bind fun c =>
    if guided? 0 c (.op (.retire 1)) then engine.next c (.op (.retire 1)) else none

theorem retiringLogger_reached {c : EngineConfig} (h : retiringLogger = some c) :
    engine.system.Reached (GuidedStep 0) c := by
  obtain ⟨d, run, step⟩ := Option.bind_eq_some_iff.mp h
  split at step
  · next ok =>
      exact .step (StackMachine.play_reached guided_of_check run (.start engine_start)) step (guided_of_check d _ ok)
  · cases step

/-- Its consumer is still active there. -/
theorem active_reads_installed_retire : ∃ c : EngineConfig, ∃ f, c.state.find 3 = some f ∧
    f.committed.find? ⟨"logger", 1⟩ = some 1 ∧ ∃ q, c.state.find 1 = some q ∧ q.state = .unloading := by
  have played : (retiringLogger.bind fun c => if guided? 0 c .run then engine.next c .run else none).any (fun c =>
      ((c.state.find 3).any fun f => f.state == .active && f.committed.find? ⟨"logger", 1⟩ == some 1) &&
        (c.state.find 1).any fun q => q.state == .unloading) = true := by
    decide +kernel
  obtain ⟨c, run, shown⟩ := (Option.any_eq_true _ _).mp played
  obtain ⟨consumer, provider⟩ := Bool.and_eq_true_iff.mp shown
  obtain ⟨f, hf, both⟩ := (Option.any_eq_true _ _).mp consumer
  obtain ⟨active, names⟩ := Bool.and_eq_true_iff.mp both
  obtain ⟨d, before, step⟩ := Option.bind_eq_some_iff.mp run
  split at step
  · next ok =>
      have reached := System.Reached.step (retiringLogger_reached before) step (guided_of_check d _ ok)
      obtain ⟨-, q, hq, -⟩ :=
        (active_reads_installed reached 3 f hf (beq_iff_eq.mp active)).2 _ 1 (beq_iff_eq.mp names)
      obtain ⟨q', hq', unloading⟩ := (Option.any_eq_true _ _).mp provider
      cases hq.symm.trans hq'
      exact ⟨c, f, hf, beq_iff_eq.mp names, q, hq, beq_iff_eq.mp unloading⟩
  · cases step

end Araya
