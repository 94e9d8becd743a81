import Araya.Runtime.Doings

/-!
What the steps of a routine run keep. A step does little to a record: each way is listed once, and what stays active,
what is published and which calls may wait follow from the list.
-/

namespace Araya
namespace Runtime

/-! What becomes of a record -/

/-- What a step of a routine run does to a record; a frame does it, or a call of the outside. -/
inductive Changed (rt : Runtime) (id : FiberId) (f : FiberRecord) : Option Op → FiberRecord → Prop
  | same {call : Option Op} : Changed rt id f call f
  | noted (e : Option FiberError) : f.state = .inactive → Changed rt id f none { f with error := e }
  | loaded (serial : Nat) : f.state = .inactive → 0 ≤ f.reactivate → (rt.resolve id f).satisfiable = true →
      Changed rt id f none { committing f serial (rt.resolve id f) with hasInstance := true }
  | stuck (serial : Nat) : f.state = .inactive → 0 ≤ f.reactivate → (rt.resolve id f).satisfiable = true →
      Changed rt id f none (committing f serial (rt.resolve id f))
  | lapsed : f.state = .inactive → Changed rt id f none (factoryFailed f)
  | raised (b : Bool) : (f.state = .inactive ∨ f.state = .unloading) → Changed rt id f none (raiseReactivate f b)
  | diverted (b : Bool) : f.state = .loading → Changed rt id f none (Runtime.diverted (raiseReactivate f b))
  | withdrew (b : Bool) (n : Nat) : f.state = .active →
      Changed rt id f none (withdrawing (raiseReactivate f b) n)
  | stopped : Changed rt id f none { f with stopRequested := true }
  | finished : f.state = .unloading → f.remaining = 0 → Changed rt id f none (parked f)
  | released (i : FiberId) : Changed rt id f none (release i f)
  | opened : f.done.isOpen = false → Changed rt id f none { f with done := {} }
  | waited : f.reactivate < 0 → f.done.isOpen = false →
      Changed rt id f none { f with done := { f.done with waiters := f.done.waiters ++ [.retire id] } }
  | revived : 0 < f.reactivate → Changed rt id f none { f with reactivate := 0 }
  | failed (ep : Option String) : (f.state = .loading ∨ f.state = .unloading) → rt.publishes f ep = false →
      Changed rt id f (some (.complete id ep)) (parked (applyOutcome f ep))
  | retired : f.state ≠ .inactive → Changed rt id f (some (.retire id)) { f with reactivate := -1 }
  | activated (consumers : SortedSet FiberId) : f.state = .loading → rt.publishes f none = true →
      (∀ i ∈ f.consumers, i ∈ consumers) → Changed rt id f (some (.complete id none)) { activated f with consumers }
  | enrolled {o : Op} (consumers : SortedSet FiberId) : (∀ i ∈ f.consumers, i ∈ consumers) →
      Changed rt id f (some o) { f with consumers }
  | tracked {o : Op} {act : Activation} (e : Effect) : f.activation = some act →
      Changed rt id f (some o) { f with activation := some { act with effects := act.effects ++ [e] } }

/-- The outcome of an apply is written into the error, and a raise into the flag. -/
theorem applyOutcome_eq (f : FiberRecord) (ep : Option String) : ∃ error failed,
    applyOutcome f ep = { f with error, applyFailed := failed } ∧ (ep = none → failed = f.applyFailed) := by
  unfold applyOutcome
  split
  · cases ep with
    | some what => exact ⟨_, true, rfl, fun none => nomatch none⟩
    | none =>
        dsimp only
        split
        · exact ⟨_, f.applyFailed, rfl, fun _ => rfl⟩
        · exact ⟨f.error, f.applyFailed, rfl, fun _ => rfl⟩
  · exact ⟨f.error, f.applyFailed, rfl, fun _ => rfl⟩

theorem raiseReactivate_eq (f : FiberRecord) (b : Bool) : ∃ reactivate, raiseReactivate f b = { f with reactivate } := by
  unfold raiseReactivate
  split
  · exact ⟨_, rfl⟩
  · exact ⟨f.reactivate, rfl⟩
section
variable {rt rt' : Runtime} {fr : Frame} {fs : List Frame} {id j : FiberId} {f f' g : FiberRecord}
  {call : Option Op}

/-- One record is changed and the others are kept. -/
theorem changed_set {rt₁ : Runtime} (same : ∀ k, rt₁.find k = rt.find k) (hf : rt.find id = some f)
    (h : (rt₁.set id g).find j = some f') (own : rt.Changed id f call g) :
    ∃ f, rt.find j = some f ∧ rt.Changed j f call f' := by
  rw [find_set] at h
  split at h
  · next hj =>
      subst hj
      cases h
      exact ⟨f, hf, own⟩
  · exact ⟨f', (same j).symm.trans h, .same⟩

theorem dropStale_find (k : ServiceId) (stale : List FiberId) : (rt.dropStale k stale).find j = rt.find j :=
  (dropStale_still rt k stale).find j

theorem Does.changed (d : rt.Does fr rt' fs) (routine : fr.Routine rt) (h : rt'.find j = some f') :
    ∃ f, rt.find j = some f ∧ rt.Changed j f none f' := by
  cases d with
  | passed | begun | gone | unstopped | held | drained | skipped | shut | toldNone | tells | unheard | heard | lost |
    wakes | overlooks | rested | ended | through => exact ⟨f', h, .same⟩
  | heardAll => exact ⟨f', (dropStale_find _ _).symm.trans h, .same⟩
  | noted e hf hs _ => exact changed_set (fun _ => rfl) hf h (.noted e hs)
  | loaded hf hs kept hr met _ =>
      subst hr
      exact changed_set (fun _ => rfl) hf h (.loaded _ hs kept met)
  | lapsed hf hs _ => exact changed_set (fun _ => rfl) hf h (.lapsed hs)
  | raised hf hs => exact changed_set (fun _ => rfl) hf h (.raised _ hs)
  | diverted hf hs => exact changed_set (fun _ => rfl) hf h (.diverted _ hs)
  | withdrew hf hs hg _ =>
      subst hg
      exact changed_set (fun _ => rfl) hf h (.withdrew _ _ hs)
  | stopped hf => exact changed_set (fun _ => rfl) hf h .stopped
  | finished hf hs hr => exact changed_set (fun k => teardownOf_find rt _ k _) hf h (.finished hs hr)
  | released hp => exact changed_set (fun _ => rfl) hp h (.released _)
  | opened hf closed => exact changed_set (fun _ => rfl) hf h (.opened closed)
  | revived hf up => exact changed_set (fun _ => rfl) hf h (.revived up)
  | waits hf closed =>
      obtain ⟨rfl, down⟩ := routine
      exact changed_set (fun _ => rfl) hf h (.waited (down _ hf) closed)
  | erased => exact ⟨f', rewrite_erase h, .same⟩

theorem Called.changed {o : Op} (d : rt.Called o rt' fs) (h : rt'.find j = some f') :
    (∃ spec, o = .mount spec ∧ j = rt.nextId ∧ f' = mountedRecord spec 0) ∨
      ∃ f, rt.find j = some f ∧ rt.Changed j f (some o) f' := by
  cases d with
  | @mounted spec =>
      have set : (rt.set rt.nextId (mountedRecord spec 0)).find j = some f' := h
      rw [find_set] at set
      split at set
      · next hj =>
          cases set
          exact .inl ⟨spec, rfl, hj, rfl⟩
      · exact .inr ⟨f', set, .same⟩
  | absent | ignored => exact .inr ⟨f', h, .same⟩
  | erased => exact .inr ⟨f', rewrite_erase h, .same⟩
  | retired hf awake => exact .inr (changed_set (fun _ => rfl) hf h (.retired awake))
  | @published id f applied hf loading published =>
      refine .inr ?_
      simp only [publish, addConsumer_find] at h
      obtain ⟨g, hg, rfl⟩ := Option.map_eq_some_iff.mp h
      rw [find_set] at hg
      split at hg
      · next hj =>
          subst hj
          cases hg
          refine ⟨f, hf, ?_⟩
          split
          · exact .activated _ loading published fun i hi => SortedSet.mem_insert.mpr (.inr hi)
          · exact .activated _ loading published fun i hi => hi
      · refine ⟨g, hg, ?_⟩
        split
        · exact .enrolled _ fun i hi => SortedSet.mem_insert.mpr (.inr hi)
        · exact .same
  | @failed id f ep _ applied hf due failed _ =>
      have torn (k : FiberId) : (({ rt with applies := rt.applies.erase id } : Runtime).teardownOf id f).find k = rt.find k :=
        teardownOf_find _ id k f
      exact .inr (changed_set torn hf h (.failed ep due failed))
  | provided hf there => exact .inr (changed_set (fun _ => rfl) hf h (.tracked _ there))

/-- An active fiber stays active, unless its unload begins or it is erased. -/
theorem Does.stays (d : rt.Does fr rt' fs) (hf : rt.find j = some f) (active : f.state = .active) :
    (∃ f', rt'.find j = some f' ∧ f'.state = .active ∧ f'.descriptor = f.descriptor ∧ f'.committed = f.committed) ∨
      (∃ b, fr = .beginUnload j b) ∨ fr = .resume (.retire j) := by
  have set {rt₁ : Runtime} {id : FiberId} {x g : FiberRecord} (same : ∀ k, rt₁.find k = rt.find k)
      (hx : rt.find id = some x) (own : x.state = .active → g.state = .active ∧ g.descriptor = x.descriptor ∧
        g.committed = x.committed) : ∃ f', (rt₁.set id g).find j = some f' ∧ f'.state = .active ∧
          f'.descriptor = f.descriptor ∧ f'.committed = f.committed := by
    rw [find_set]
    split
    · next hj =>
        subst hj
        cases hf.symm.trans hx
        exact ⟨g, rfl, own active⟩
    · exact ⟨f, (same j).trans hf, active, rfl, rfl⟩
  cases d with
  | passed | begun | gone | unstopped | held | drained | skipped | shut | toldNone | tells | unheard | heard | lost |
    wakes | overlooks | rested | ended | through => exact .inl ⟨f, hf, active, rfl, rfl⟩
  | heardAll => exact .inl ⟨f, (dropStale_find _ _).trans hf, active, rfl, rfl⟩
  | noted e hx hs _ | loaded hx hs _ _ _ _ | lapsed hx hs _ =>
      exact .inl (set (fun _ => rfl) hx fun up => by rw [hs] at up; cases up)
  | @raised id x b hx hs =>
      by_cases hj : j = id
      · exact .inr (.inl ⟨b, hj ▸ rfl⟩)
      · exact .inl ⟨f, (find_set ..).trans ((if_neg hj).trans hf), active, rfl, rfl⟩
  | @diverted id x b hx hs =>
      by_cases hj : j = id
      · exact .inr (.inl ⟨b, hj ▸ rfl⟩)
      · exact .inl ⟨f, (find_set ..).trans ((if_neg hj).trans hf), active, rfl, rfl⟩
  | @withdrew id x g b _ hx hs hg _ =>
      by_cases hj : j = id
      · exact .inr (.inl ⟨b, hj ▸ rfl⟩)
      · exact .inl ⟨f, (find_set ..).trans ((if_neg hj).trans hf), active, rfl, rfl⟩
  | stopped hx | released hx | opened hx _ | revived hx _ | waits hx _ =>
      exact .inl (set (fun _ => rfl) hx fun up => ⟨up, rfl, rfl⟩)
  | @finished id x hx hs _ =>
      exact .inl (set (fun k => teardownOf_find rt id k x) hx fun up => by rw [hs] at up; cases up)
  | @erased id =>
      by_cases hj : j = id
      · exact .inr (.inr (hj ▸ rfl))
      · exact .inl ⟨f, (find_eraseFiber ..).trans ((if_neg hj).trans hf), active, rfl, rfl⟩

theorem Changed.descriptor (h : rt.Changed id f call f') : f'.descriptor = f.descriptor := by
  cases h with
  | raised b _ => exact raiseReactivate_descriptor f b
  | diverted b _ | withdrew b _ _ => exact raiseReactivate_descriptor f b
  | failed ep =>
      obtain ⟨error, failed, same, -⟩ := applyOutcome_eq f ep
      rw [same]
      rfl
  | _ => rfl

theorem Changed.provide (h : rt.Changed id f call f') : f'.provide = f.provide :=
  congrArg Descriptor.provide h.descriptor

theorem Changed.down (h : rt.Changed id f call f') (down : f.reactivate < 0) : f'.reactivate < 0 := by
  have raised (b : Bool) : (raiseReactivate f b).reactivate < 0 := by
    unfold raiseReactivate
    rw [if_neg (Int.not_le.mpr down)]
    exact down
  cases h with
  | raised b _ | diverted b _ | withdrew b _ _ => exact raised b
  | revived up => exact absurd up (Int.not_lt.mpr (Int.le_of_lt down))
  | retired => exact Int.negSucc_lt_zero 0
  | failed ep =>
      obtain ⟨error, failed, same, -⟩ := applyOutcome_eq f ep
      rw [same]
      exact down
  | _ => exact down

theorem Does.contexts (d : rt.Does fr rt' fs) :
    rt'.contexts.tree = rt.contexts.tree ∧ rt'.contexts.realms = rt.contexts.realms := by
  cases d with
  | withdrew => exact markProvided_same
  | @finished id f => exact teardownOf_same rt id f
  | heardAll =>
      unfold dropStale
      split <;> exact ⟨rfl, rfl⟩
  | _ => exact ⟨rfl, rfl⟩

theorem Called.contexts {o : Op} (d : rt.Called o rt' fs) :
    rt'.contexts.tree = rt.contexts.tree ∧ rt'.contexts.realms = rt.contexts.realms := by
  cases d with
  | @published id f =>
      obtain ⟨fibers, same⟩ := addConsumer_eq
        ((({ rt with applies := rt.applies.erase id } : Runtime).markBindings id f .active).set id (activated f)) id
        f.committed.toList
      simp only [publish, same]
      exact markProvided_same
  | @failed id f => exact teardownOf_same _ id f
  | provided => exact ⟨Contexts.bind_tree .., Contexts.bind_realms ..⟩
  | _ => exact ⟨rfl, rfl⟩

theorem dropStale_contexts (rt : Runtime) (k : ServiceId) (stale : List FiberId) :
    (rt.dropStale k stale).contexts = rt.contexts := by
  unfold dropStale
  split <;> rfl

theorem Called.publishes {id : FiberId} {f : FiberRecord} (d : rt.Called (.complete id none) rt' fs)
    (hf : rt.find id = some f) (loading : f.state = .loading) (published : rt.publishes f none = true) :
    fs = [.notifyProvided id f.provide, .transitionFinished] ∧
      ∃ consumers, rt'.find id = some { activated f with consumers } := by
  cases d with
  | ignored _ idle => exact absurd loading (idle f hf).1
  | published _ hg =>
      cases hf.symm.trans hg
      exact ⟨rfl, publish_find f⟩
  | failed _ hg _ failed _ =>
      cases hf.symm.trans hg
      rw [published] at failed
      cases failed

theorem Called.stays {o : Op} {j : FiberId} {f : FiberRecord} (known : rt.Known) (d : rt.Called o rt' fs)
    (hf : rt.find j = some f) (active : f.state = .active) :
    ∃ f', rt'.find j = some f' ∧ f'.state = .active ∧ f'.descriptor = f.descriptor ∧ f'.committed = f.committed := by
  have set {rt₁ : Runtime} {id : FiberId} {x g : FiberRecord} (same : ∀ k, rt₁.find k = rt.find k)
      (hx : rt.find id = some x) (own : x.state = .active → g.state = .active ∧ g.descriptor = x.descriptor ∧
        g.committed = x.committed) : ∃ f', (rt₁.set id g).find j = some f' ∧ f'.state = .active ∧
          f'.descriptor = f.descriptor ∧ f'.committed = f.committed := by
    rw [find_set]
    split
    · next hj =>
        subst hj
        cases hf.symm.trans hx
        exact ⟨g, rfl, own active⟩
    · exact ⟨f, (same j).trans hf, active, rfl, rfl⟩
  cases d with
  | absent | ignored => exact ⟨f, hf, active, rfl, rfl⟩
  | @mounted spec =>
      have other : j ≠ rt.nextId := Nat.ne_of_lt (known j f hf)
      have find : (rt.mountLocked spec 0).find j = (rt.set rt.nextId (mountedRecord spec 0)).find j := rfl
      exact ⟨f, by rw [find, find_set, if_neg other, hf], active, rfl, rfl⟩
  | @erased id x hx inactive =>
      have other : j ≠ id := by
        rintro rfl
        cases hf.symm.trans hx
        rw [active] at inactive
        cases inactive
      exact ⟨f, (find_eraseFiber ..).trans ((if_neg other).trans hf), active, rfl, rfl⟩
  | retired hx _ => exact set (fun _ => rfl) hx fun up => ⟨up, rfl, rfl⟩
  | provided hx _ => exact set (fun _ => rfl) hx fun up => ⟨up, rfl, rfl⟩
  | @failed id x ep _ _ hx due _ _ =>
      refine set (fun k => teardownOf_find _ id k x) hx fun up => ?_
      simp [up] at due
  | @published id x _ hx loading _ =>
      simp only [publish, addConsumer_find]
      obtain ⟨g, hg, kept⟩ : ∃ g, ((({ rt with applies := rt.applies.erase id } : Runtime).markBindings id x .active).set
          id (activated x)).find j = some g ∧ g.state = .active ∧ g.descriptor = f.descriptor ∧
            g.committed = f.committed :=
        set (fun _ => rfl) hx fun up => by rw [loading] at up; cases up
      rw [hg, Option.map_some]
      split
      · exact ⟨_, rfl, kept⟩
      · exact ⟨_, rfl, kept⟩


end
end Runtime

/-! The routine runs -/

/-- The steps of a run of mounts, retirements and applies. -/
def RoutineStep (c : EngineConfig) : Label Op → Prop
  | .run => True
  | .op o => o.Routine c.state

/-- What one step of a routine run is. -/
inductive RoutineActs (c c' : EngineConfig) : Label Op → Prop
  | ran {fr : Frame} {rest fs : List Frame} : c.stack = fr :: rest → c.state.Does fr c'.state fs →
      c'.stack = fs ++ rest → RoutineActs c c' .run
  | threw {id : FiberId} {rest : List Frame} {f : FiberRecord} : c.stack = .evaluate id :: rest →
      c.state.find id = some f → f.state = .inactive → 0 ≤ f.reactivate →
      (c.state.resolve id f).satisfiable = true → f.descriptor.create f.config c.state.nextId = .throws →
      c'.state = c.state.drawId.set id (Runtime.committing f c.state.nextId (c.state.resolve id f)) →
      c'.stack = [] → RoutineActs c c' .run
  | called {o : Op} {fs : List Frame} : (c.stack = [] ∨ o.nested = true) → o.Routine c.state →
      c.state.Called o c'.state fs → c'.stack = fs ++ c.stack → RoutineActs c c' (.op o)

/-- What holds in every routine run: the waiters are retirements of their own fiber. -/
structure Routine (c : EngineConfig) : Prop where
  wellFormed : c.state.WellFormed
  known : c.state.Known
  condemned : Condemned c
  frames : ∀ fr ∈ c.stack, fr.Routine c.state
  waiters : ∀ j f, c.state.find j = some f → ∀ w ∈ f.done.waiters, w = .retire j ∧ f.reactivate < 0

section
variable {c c' : EngineConfig} {a : Label Op}

theorem routine_acts (inv : Routine c) (h : engine.next c a = some c') (ok : RoutineStep c a) : RoutineActs c c' a := by
  obtain ⟨fr, rest, s', fs, rfl, hst, hx, rfl⟩ | ⟨fr, rest, s', rfl, hst, hx, rfl⟩ |
    ⟨o, s', fs, rfl, hst, ho, rfl⟩ := StackMachine.next_cases h
  · exact .ran hst (Runtime.exec_does (inv.frames fr (hst ▸ List.mem_cons_self)) hx) rfl
  · have threw := Runtime.exec_deeds c.state fr
    rw [show c.state.exec fr = .throw s' from hx] at threw
    cases threw with
    | create r hf hs kept hr met applied created =>
        subst hr
        exact .threw hst hf hs kept met created rfl rfl
  · exact .called hst ok (Runtime.op_called ok inv.wellFormed.sound ho) rfl

theorem routine_start (start : engine.system.start c) : Routine c := by
  obtain ⟨fresh, empty⟩ := start
  have none (j : FiberId) (f : FiberRecord) : c.state.find j ≠ some f := by
    rw [Runtime.find, fresh.fibers]
    exact (Option.some_ne_none f).symm
  refine ⟨(withdrawal_start fresh).wellFormed, fun j f hf => absurd hf (none j f), fun j f hf => absurd hf (none j f),
    fun fr hfr => ?_, fun j f hf => absurd hf (none j f)⟩
  rw [empty] at hfr
  cases hfr

/-- A fiber that is erased while the stack runs is not active. -/
theorem Routine.erases_down (inv : Routine c) {j : FiberId} {f : FiberRecord} {rest : List Frame}
    (top : c.stack = .resume (.retire j) :: rest) (hf : c.state.find j = some f) : f.state ≠ .active := by
  intro active
  obtain ⟨id, same, down⟩ := inv.frames _ (top ▸ List.mem_cons_self)
  cases same
  obtain (inactive | unloading) | ⟨rest', other⟩ := inv.condemned j f hf (down f hf)
  · rw [active] at inactive
    cases inactive
  · rw [active] at unloading
    cases unloading
  · cases top.symm.trans other

/-- What a record of the next state was before. -/
theorem routine_changed (inv : Routine c) (acts : RoutineActs c c' a) {j : FiberId} {f' : FiberRecord}
    (hf : c'.state.find j = some f') :
    (∃ spec, a = .op (.mount spec) ∧ c.stack = [] ∧ j = c.state.nextId ∧ f' = Runtime.mountedRecord spec 0) ∨
      ∃ f call, c.state.find j = some f ∧ c.state.Changed j f call f' ∧ ∀ o, call = some o → a = .op o := by
  cases acts with
  | @ran fr rest fs hst d hst' =>
      obtain ⟨f, hf', changed⟩ := d.changed (inv.frames fr (hst ▸ List.mem_cons_self)) hf
      exact .inr ⟨f, none, hf', changed, fun o none => nomatch none⟩
  | threw hst hx hs kept met created set hst' =>
      rw [set] at hf
      obtain ⟨f, hf', changed⟩ := Runtime.changed_set (fun _ => rfl) hx hf (.stuck _ hs kept met)
      exact .inr ⟨f, none, hf', changed, fun o none => nomatch none⟩
  | @called o fs hst routine d hst' =>
      obtain ⟨spec, rfl, hj, hf'⟩ | ⟨f, hf', changed⟩ := d.changed hf
      · exact .inl ⟨spec, rfl, hst.resolve_right (by simp [Op.nested]), hj, hf'⟩
      · exact .inr ⟨f, some o, hf', changed, fun o' same => congrArg Label.op (Option.some.inj same)⟩

theorem Runtime.Changed.waiters {rt : Runtime} {id : FiberId} {f f' : FiberRecord} {call : Option Op}
    (h : rt.Changed id f call f') (was : ∀ w ∈ f.done.waiters, w = .retire id ∧ f.reactivate < 0)
    (w : Waiter) (hw : w ∈ f'.done.waiters) : w = .retire id ∧ f'.reactivate < 0 := by
  have kept (hw : w ∈ f.done.waiters) : w = .retire id ∧ f'.reactivate < 0 :=
    ⟨(was w hw).1, h.down (was w hw).2⟩
  cases h with
  | raised b _ | diverted b _ | withdrew b _ _ =>
      obtain ⟨n, same⟩ := raiseReactivate_eq f b
      rw [same] at hw
      exact kept hw
  | failed ep =>
      obtain ⟨error, failed, same, -⟩ := applyOutcome_eq f ep
      rw [same] at hw
      exact kept hw
  | opened => exact nomatch hw
  | waited down _ =>
      obtain before | now := List.mem_append.mp hw
      · exact was w before
      · exact ⟨List.mem_singleton.mp now, down⟩
  | _ => exact kept hw

/-- A frame that waits stays routine. -/
theorem Frame.Routine.kept {fr : Frame} (h : fr.Routine c.state) (inv : Araya.Routine c) (acts : RoutineActs c c' a)
    (below : fr ∈ c.stack) : fr.Routine c'.state := by
  have down {id : FiberId} (was : ∀ f, c.state.find id = some f → f.reactivate < 0) (f' : FiberRecord)
      (hf' : c'.state.find id = some f') : f'.reactivate < 0 := by
    obtain ⟨spec, _, empty, _⟩ | ⟨f, _, hf, changed, -⟩ := routine_changed inv acts hf'
    · rw [empty] at below
      cases below
    · exact changed.down (was f hf)
  cases fr with
  | awaitDone id w => exact ⟨h.1, down h.2⟩
  | resume w =>
      obtain ⟨id, rfl, was⟩ := h
      exact ⟨id, rfl, down was⟩
  | _ => exact h

theorem routine_frames (inv : Routine c) (acts : RoutineActs c c' a) : ∀ fr ∈ c'.stack, fr.Routine c'.state := by
  intro fr hfr
  have kept (below : fr ∈ c.stack) : fr.Routine c'.state := (inv.frames fr below).kept inv acts below
  obtain ⟨rt', st'⟩ := c'
  cases acts with
  | @ran top rest fs hst d hst' =>
      have routine := inv.frames top (hst ▸ List.mem_cons_self)
      obtain new | below := List.mem_append.mp (show fr ∈ fs ++ rest from hst' ▸ hfr)
      · cases d with
        | passed | noted | loaded | lapsed | gone | raised | diverted | unstopped | held | drained | shut | toldNone |
          unheard | heardAll | rested | ended | waits | erased => cases new
        | begun | stopped | skipped | revived | heard | lost | overlooks =>
            cases List.mem_singleton.mp new
            trivial
        | withdrew _ _ _ hfs =>
            subst hfs
            obtain cascade | last := List.mem_append.mp new
            · obtain ⟨i, -, rfl⟩ := List.mem_map.mp cascade
              trivial
            · cases List.mem_singleton.mp last
              trivial
        | finished =>
            simp only [List.mem_cons, List.not_mem_nil, or_false] at new
            rcases new with rfl | rfl | rfl | rfl | rfl <;> trivial
        | released | tells | wakes =>
            simp only [List.mem_cons, List.not_mem_nil, or_false] at new
            rcases new with rfl | rfl <;> trivial
        | @opened id f hf closed =>
            obtain ⟨w, hw, rfl⟩ := List.mem_map.mp new
            obtain ⟨rfl, down⟩ := inv.waiters id f hf w hw
            refine ⟨id, rfl, fun g hg => ?_⟩
            cases (Runtime.find_set_self ..).symm.trans hg
            exact down
        | through _ =>
            cases List.mem_singleton.mp new
            exact ⟨_, routine⟩
      · exact kept (hst ▸ List.mem_cons_of_mem _ below)
  | threw _ _ _ _ _ _ _ hst' =>
      cases (show fr ∈ [] from hst' ▸ hfr)
  | @called o fs hst routine d hst' =>
      obtain new | below := List.mem_append.mp (show fr ∈ fs ++ c.stack from hst' ▸ hfr)
      · cases d with
        | absent | erased | ignored | provided => cases new
        | mounted =>
            cases List.mem_singleton.mp new
            trivial
        | @retired id f hf awake =>
            simp only [List.mem_cons, List.not_mem_nil, or_false] at new
            rcases new with rfl | rfl
            · trivial
            · refine ⟨rfl, fun g hg => ?_⟩
              cases (Runtime.find_set_self ..).symm.trans hg
              exact Int.negSucc_lt_zero 0
        | published =>
            simp only [List.mem_cons, List.not_mem_nil, or_false] at new
            rcases new with rfl | rfl <;> trivial
        | failed _ _ _ _ calls =>
            subst calls
            simp only [List.mem_cons, List.mem_append, List.not_mem_nil, or_false] at new
            obtain (rfl | tried) | rfl := new
            · trivial
            · split at tried
              · cases List.mem_singleton.mp tried
                trivial
              · cases tried
            · trivial
      · exact kept below

theorem routine_step (inv : Routine c) (h : engine.next c a = some c') (ok : RoutineStep c a) : Routine c' := by
  have acts := routine_acts inv h ok
  refine ⟨(engine_moved inv.wellFormed inv.known h).2, engine_known h inv.known, condemned_step inv.condemned h,
    routine_frames inv acts, fun j f' hf' => ?_⟩
  obtain ⟨spec, -, -, -, rfl⟩ | ⟨f, _, hf, changed, -⟩ := routine_changed inv acts hf'
  · exact fun w hw => nomatch hw
  · exact changed.waiters (inv.waiters j f hf)

end
end Araya
