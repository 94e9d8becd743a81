import Araya.Runtime.OneScope
import Araya.Runtime.Roster

/-!
Routine runs. Components are mounted and retired, and their applies publish what they declare, and return or raise.
What a frame does in such a run, and what a call of the outside does, is listed exactly.
-/

namespace Araya

/-- Components are mounted and retired, and an apply publishes while it runs and comes to its end. -/
def Op.Routine (rt : Runtime) : Op → Prop
  | .mount _ | .retire _ | .complete .. => True
  | .provide id _ _ _ => ∃ f, rt.find id = some f ∧ (f.phase = .loading ∨ f.phase = .diverted)
  | _ => False

namespace Runtime

/-! What a step does -/

/-- What running a frame does. -/
inductive Does (rt : Runtime) : Frame → Runtime → List Frame → Prop
  | passed {id : FiberId} : (∀ f, rt.find id = some f → f.state = .loading ∨ f.state = .unloading ∨
      f.reactivate < 0 ∨
      f.state = .inactive ∧ ¬ ((rt.resolve id f).satisfiable = true ∧ f.applyFailed = false) ∨
      f.state = .active ∧ (rt.resolve id f).same f.committed = true) → Does rt (.evaluate id) rt []
  | noted {id : FiberId} {f : FiberRecord} (e : Option FiberError) : rt.find id = some f → f.state = .inactive →
      ¬ ((rt.resolve id f).satisfiable = true ∧ f.applyFailed = false) →
      Does rt (.evaluate id) (rt.set id { f with error := e }) []
  | loaded {id : FiberId} {f : FiberRecord} {r : Resolution} : rt.find id = some f → f.state = .inactive →
      0 ≤ f.reactivate → r = rt.resolve id f → r.satisfiable = true → f.applyFailed = false →
      Does rt (.evaluate id)
        ((rt.drawId.set id { committing f rt.nextId r with hasInstance := true }).spawn id) []
  | lapsed {id : FiberId} {f : FiberRecord} : rt.find id = some f → f.state = .inactive →
      f.descriptor.create f.config rt.nextId = .null → Does rt (.evaluate id) (rt.drawId.set id (factoryFailed f)) []
  | begun {id : FiberId} {f : FiberRecord} : rt.find id = some f → f.state = .active → 0 ≤ f.reactivate →
      (rt.resolve id f).same f.committed = false →
      Does rt (.evaluate id) rt [.beginUnload id (rt.resolve id f).satisfiable]
  | gone {id : FiberId} {b : Bool} : rt.find id = none → Does rt (.beginUnload id b) rt []
  | raised {id : FiberId} {f : FiberRecord} {b : Bool} : rt.find id = some f →
      (f.state = .inactive ∨ f.state = .unloading) → Does rt (.beginUnload id b) (rt.set id (raiseReactivate f b)) []
  | diverted {id : FiberId} {f : FiberRecord} {b : Bool} : rt.find id = some f → f.state = .loading →
      Does rt (.beginUnload id b) (rt.set id (Runtime.diverted (raiseReactivate f b))) []
  | withdrew {id : FiberId} {f g : FiberRecord} {b : Bool} {fs : List Frame} : rt.find id = some f →
      f.state = .active → g = raiseReactivate f b →
      fs = f.consumers.toList.map (.beginUnload · true) ++ [.requestStop id] →
      Does rt (.beginUnload id b)
        ((rt.set id (withdrawing g (rt.countInstalled g.consumers))).transitionStarted.markBindings id g .retiring) fs
  | unstopped {id : FiberId} : rt.find id = none → Does rt (.requestStop id) rt []
  | stopped {id : FiberId} {f : FiberRecord} : rt.find id = some f →
      Does rt (.requestStop id) (rt.set id { f with stopRequested := true }) [.maybeFinishUnload id]
  | held {id : FiberId} : (∀ f, rt.find id = some f → ¬ (f.state = .unloading ∧ f.remaining = 0)) →
      Does rt (.maybeFinishUnload id) rt []
  | finished {id : FiberId} {f : FiberRecord} : rt.find id = some f → f.state = .unloading → f.remaining = 0 →
      Does rt (.maybeFinishUnload id) ((rt.teardownOf id f).set id (parked f))
        [.releaseProviders id f.committed.toList, .openDone id, .notifyProvided id f.provide, .reactivate id,
          .transitionFinished]
  | drained {id : FiberId} : Does rt (.releaseProviders id []) rt []
  | skipped {id : FiberId} {e : ServiceId × FiberId} {es : List (ServiceId × FiberId)} : rt.find e.2 = none →
      Does rt (.releaseProviders id (e :: es)) rt [.releaseProviders id es]
  | released {id : FiberId} {e : ServiceId × FiberId} {es : List (ServiceId × FiberId)} {p : FiberRecord} :
      rt.find e.2 = some p → Does rt (.releaseProviders id (e :: es)) (rt.set e.2 (release id p))
        [.maybeFinishUnload e.2, .releaseProviders id es]
  | shut {id : FiberId} : (∀ f, rt.find id = some f → f.done.isOpen = true) → Does rt (.openDone id) rt []
  | opened {id : FiberId} {f : FiberRecord} : rt.find id = some f → f.done.isOpen = false →
      Does rt (.openDone id) (rt.set id { f with done := {} }) (f.done.waiters.map .resume)
  | toldNone {id : FiberId} {ks : List ServiceId} : rt.find id = none ∨ ks = [] → Does rt (.notifyProvided id ks) rt []
  | tells {id : FiberId} {f : FiberRecord} {k : ServiceId} {ks : List ServiceId} : rt.find id = some f →
      Does rt (.notifyProvided id (k :: ks)) rt
        [.notify k f.scope (rt.contexts.realmFor f.scope k), .notifyProvided id ks]
  | unheard {k : ServiceId} {s : ScopeId} {r : Realm} : rt.consumersOf.find? k = none → Does rt (.notify k s r) rt []
  | heard {k : ServiceId} {s : ScopeId} {r : Realm} {ids : SortedSet FiberId} : rt.consumersOf.find? k = some ids →
      Does rt (.notify k s r) rt [.notifyLoop k s r ids.toList []]
  | heardAll {k : ServiceId} {s : ScopeId} {r : Realm} {stale : List FiberId} :
      Does rt (.notifyLoop k s r [] stale) (rt.dropStale k stale) []
  | lost {k : ServiceId} {s : ScopeId} {r : Realm} {i : FiberId} {ids stale : List FiberId} : rt.find i = none →
      Does rt (.notifyLoop k s r (i :: ids) stale) rt [.notifyLoop k s r ids (stale ++ [i])]
  | wakes {k : ServiceId} {s : ScopeId} {r : Realm} {i : FiberId} {ids stale : List FiberId} {g : FiberRecord} :
      rt.find i = some g → rt.sees g k s r = true →
      Does rt (.notifyLoop k s r (i :: ids) stale) rt [.evaluate i, .notifyLoop k s r ids stale]
  | overlooks {k : ServiceId} {s : ScopeId} {r : Realm} {i : FiberId} {ids stale : List FiberId} {g : FiberRecord} :
      rt.find i = some g → rt.sees g k s r = false →
      Does rt (.notifyLoop k s r (i :: ids) stale) rt [.notifyLoop k s r ids stale]
  | rested {id : FiberId} : (∀ f, rt.find id = some f → f.reactivate ≤ 0) → Does rt (.reactivate id) rt []
  | revived {id : FiberId} {f : FiberRecord} : rt.find id = some f → 0 < f.reactivate →
      Does rt (.reactivate id) (rt.set id { f with reactivate := 0 }) [.evaluate id]
  | ended : Does rt .transitionFinished { rt with inFlight := rt.inFlight - 1 } []
  | through {id : FiberId} {w : Waiter} : (∀ f, rt.find id = some f → f.done.isOpen = true) →
      Does rt (.awaitDone id w) rt [.resume w]
  | waits {id : FiberId} {w : Waiter} {f : FiberRecord} : rt.find id = some f → f.done.isOpen = false →
      Does rt (.awaitDone id w) (rt.set id { f with done := { f.done with waiters := f.done.waiters ++ [w] } }) []
  | erased {id : FiberId} : Does rt (.resume (.retire id)) (rt.eraseFiber id) []

/-- What a call of the outside does. -/
inductive Called (rt : Runtime) : Op → Runtime → List Frame → Prop
  | mounted {spec : ComponentSpec} : Called rt (.mount spec) (rt.mountLocked spec 0) [.evaluate rt.nextId]
  | absent {id : FiberId} : rt.find id = none → Called rt (.retire id) rt []
  | erased {id : FiberId} {f : FiberRecord} : rt.find id = some f → f.state = .inactive →
      Called rt (.retire id) (rt.eraseFiber id) []
  | retired {id : FiberId} {f : FiberRecord} : rt.find id = some f → f.state ≠ .inactive →
      Called rt (.retire id) (rt.set id { f with reactivate := -1 }) [.beginUnload id false, .awaitDone id (.retire id)]
  | ignored {id : FiberId} {ep : Option String} : id ∈ rt.applies →
      (∀ f, rt.find id = some f → f.state ≠ .loading ∧ f.state ≠ .unloading) →
      Called rt (.complete id ep) { rt with applies := rt.applies.erase id } []
  | published {id : FiberId} {f : FiberRecord} : id ∈ rt.applies → rt.find id = some f → f.state = .loading →
      rt.publishes f none = true →
      Called rt (.complete id none) ({ rt with applies := rt.applies.erase id }.publish id f).1
        [.notifyProvided id f.provide, .transitionFinished]
  | failed {id : FiberId} {f : FiberRecord} {ep : Option String} {fs : List Frame} : id ∈ rt.applies →
      rt.find id = some f → (f.state = .loading ∨ f.state = .unloading) → rt.publishes f ep = false →
      fs = (if (!rt.providersStillActive f) = true ∧ 0 ≤ f.reactivate then [.evaluate id] else []) →
      Called rt (.complete id ep)
        (({ rt with applies := rt.applies.erase id }.teardownOf id f).set id (parked (applyOutcome f ep)))
        (.openDone id :: fs ++ [.transitionFinished])
  | provided {id : FiberId} {key : ServiceId} {value : Value} {available : Bool} {f : FiberRecord} {act : Activation} :
      rt.find id = some f → f.activation = some act → key ∈ f.provide → act.state ≠ .active →
      Called rt (.provide id key value available)
        ({ rt with contexts := rt.contexts.bind act.scope key ⟨some value, id, .loading, available⟩ }.set id
          { f with activation := some { act with effects := act.effects ++ [Effect.unbind key] } }) []

end Runtime

/-- The waiters of a routine run are retirements. -/
def Frame.Routine (rt : Runtime) : Frame → Prop
  | .evaluate _ | .beginUnload .. | .requestStop _ | .maybeFinishUnload _ | .releaseProviders .. | .openDone _ => True
  | .notifyProvided .. | .notify .. | .notifyLoop .. | .reactivate _ | .transitionFinished => True
  | .awaitDone id w => w = .retire id ∧ ∀ f, rt.find id = some f → f.reactivate < 0
  | .resume w => ∃ id, w = .retire id ∧ ∀ f, rt.find id = some f → f.reactivate < 0
  | _ => False

namespace Runtime

section
variable {rt rt' : Runtime} {s : ScopeId} {fr : Frame} {fs : List Frame}

theorem evaluate_does {id : FiberId} (hx : rt.evaluate id = .call rt' fs) : rt.Does (.evaluate id) rt' fs := by
  unfold evaluate at hx
  split at hx
  · next none =>
      cases hx
      exact .passed fun f hf => absurd (none.symm.trans hf) (by simp)
  · next f hf =>
      have only {P : FiberRecord → Prop} (h : P f) : ∀ g, rt.find id = some g → P g :=
        fun g hg => Option.some.inj (hf.symm.trans hg) ▸ h
      split at hx
      · next busy =>
          cases hx
          refine .passed (only ?_)
          cases hs : f.state <;> simp [hs] at busy ⊢
      · next idle =>
          split at hx
          · next down =>
              cases hx
              exact .passed (only (.inr (.inr (.inl down))))
          · next kept =>
              dsimp only at hx
              split at hx
              · next inactive =>
                  split at hx
                  · next due =>
                      unfold startLoading at hx
                      rw [hf] at hx
                      dsimp only at hx
                      rw [if_pos (show (rt.resolve id (starting f)).satisfiable = true from due.1)] at hx
                      split at hx
                      · cases hx
                      · next created =>
                          cases hx
                          exact .lapsed hf inactive created
                      · cases hx
                        exact .loaded hf inactive (Int.not_lt.mp kept) rfl due.1 due.2
                  · next unmet =>
                      split at hx
                      · cases hx
                        exact .noted _ hf inactive unmet
                      · cases hx
                        exact .passed (only (.inr (.inr (.inr (.inl ⟨inactive, unmet⟩)))))
              · next other =>
                  have active : f.state = .active := by
                    by_contra neither
                    exact idle ⟨other, neither⟩
                  split at hx
                  · next same =>
                      cases hx
                      exact .passed (only (.inr (.inr (.inr (.inr ⟨active, same⟩)))))
                  · next differ =>
                      cases hx
                      exact .begun hf active (Int.not_lt.mp kept) (Bool.eq_false_iff.mpr differ)

theorem notifyLoop_does {k : ServiceId} {t : ScopeId} {r : Realm} {ids stale : List FiberId}
    (hx : rt.notifyLoop k t r ids stale = .call rt' fs) : rt.Does (.notifyLoop k t r ids stale) rt' fs := by
  cases ids with
  | nil =>
      cases hx
      exact .heardAll
  | cons i ids =>
      obtain ⟨none, calls⟩ | ⟨g, hg, ⟨seen, calls⟩ | ⟨unseen, calls⟩⟩ := notifyLoop_cases rt k t r i ids stale
      · cases calls.symm.trans hx
        exact .lost none
      · cases calls.symm.trans hx
        exact .wakes hg seen
      · cases calls.symm.trans hx
        exact .overlooks hg unseen

theorem raiseReactivate_consumers (f : FiberRecord) (b : Bool) : (raiseReactivate f b).consumers = f.consumers := by
  unfold raiseReactivate
  split <;> rfl

/-- A frame of a routine run that returns does what is listed. -/
theorem exec_does (routine : fr.Routine rt) (hx : rt.exec fr = .call rt' fs) : rt.Does fr rt' fs := by
  have deeds : rt.Deeds fr (.call rt' fs) := hx ▸ exec_deeds rt fr
  cases fr with
  | evaluate id => exact evaluate_does hx
  | notifyLoop k t r ids stale => exact notifyLoop_does hx
  | beginUnload id b =>
      cases deeds with
      | errand _ unload => exact absurd rfl (unload id b)
      | absent none frame =>
          obtain ⟨_, same⟩ | same | same | same := frame <;> cases same
          exact .gone none
      | raised hf hs => exact .raised hf hs
      | diverted hf hs => exact .diverted hf hs
      | withdrew hf hs hg =>
          subst hg
          exact .withdrew hf hs rfl (by rw [raiseReactivate_consumers])
  | requestStop id =>
      cases deeds with
      | errand errand => exact errand.elim
      | absent none frame =>
          obtain ⟨_, same⟩ | same | same | same := frame <;> cases same
          exact .unstopped none
      | stopped hf => exact .stopped hf
  | maybeFinishUnload id =>
      cases deeds with
      | errand errand => exact errand.elim
      | absent none frame =>
          obtain ⟨_, same⟩ | same | same | same := frame <;> cases same
          exact .held fun f hf => absurd (none.symm.trans hf) (by simp)
      | held hf due => exact .held fun g hg => Option.some.inj (hf.symm.trans hg) ▸ due
      | finished hf hs hr => exact .finished hf hs hr
  | releaseProviders id es =>
      cases deeds with
      | errand errand => exact errand.elim
      | absent _ frame => obtain ⟨_, same⟩ | same | same | same := frame <;> cases same
      | drained => exact .drained
      | skipped none => exact .skipped none
      | released hp => exact .released hp
  | openDone id =>
      cases deeds with
      | errand errand => exact errand.elim
      | absent _ frame => obtain ⟨_, same⟩ | same | same | same := frame <;> cases same
      | shut open_ => exact .shut open_
      | opened hf closed => exact .opened hf closed
  | notifyProvided id ks =>
      cases ks with
      | nil =>
          cases hx
          exact .toldNone (.inr rfl)
      | cons k ks =>
          simp only [exec, notifyProvided] at hx
          split at hx
          · next none =>
              cases hx
              exact .toldNone (.inl none)
          · next f hf =>
              cases hx
              exact .tells hf
  | notify k t r =>
      simp only [exec, notify] at hx
      split at hx
      · next none =>
          cases hx
          exact .unheard none
      · next ids found =>
          cases hx
          exact .heard found
  | reactivate id =>
      simp only [exec, reactivateTail] at hx
      split at hx
      · next none =>
          cases hx
          exact .rested fun f hf => absurd (none.symm.trans hf) (by simp)
      · next f hf =>
          split at hx
          · next up =>
              cases hx
              exact .revived hf up
          · next down =>
              cases hx
              exact .rested fun g hg => Option.some.inj (hf.symm.trans hg) ▸ Int.not_lt.mp down
  | transitionFinished =>
      cases hx
      exact .ended
  | awaitDone id w =>
      cases deeds with
      | errand errand => exact errand.elim
      | absent _ frame => obtain ⟨_, same⟩ | same | same | same := frame <;> cases same
      | through open_ => exact .through open_
      | waits hf closed => exact .waits hf closed
  | resume w =>
      obtain ⟨id, rfl, -⟩ := routine
      cases hx
      exact .erased
  | _ => exact routine.elim

/-- A routine call of the outside does what is listed. -/
theorem op_called {o : Op} {r : Runtime × List Frame} (routine : o.Routine rt) (sound : ∀ j f, rt.find j = some f → f.Sound)
    (h : rt.op o = some r) : rt.Called o r.1 r.2 := by
  cases o with
  | mount spec =>
      cases h
      exact .mounted
  | retire id =>
      cases h
      unfold retire
      split
      · next none => exact .absent none
      · next f hf =>
          split
          · next inactive => exact .erased hf inactive
          · next awake => exact .retired hf awake
  | complete id ep =>
      simp only [op] at h
      split at h
      · next applied =>
          cases h
          unfold onApplyCompleted
          split
          · next gone => exact .ignored applied fun f hf => absurd (gone.symm.trans hf) (by simp)
          · next f hf =>
              split
              · next idle => exact .ignored applied fun g hg => Option.some.inj (hf.symm.trans hg) ▸ idle
              · next busy =>
                  have due : f.state = .loading ∨ f.state = .unloading := by
                    by_contra neither
                    exact busy ⟨fun h => neither (.inl h), fun h => neither (.inr h)⟩
                  dsimp only
                  split
                  · next published =>
                      cases ep with
                      | some what => simp [publishes] at published
                      | none =>
                          refine .published applied hf (due.resolve_right fun unloading => ?_) published
                          simp [publishes, unloading] at published
                  · next failed => exact .failed applied hf due (Bool.eq_false_iff.mpr failed) rfl
      · cases h
  | provide id key value available =>
      obtain ⟨rt', given, rfl⟩ := Option.map_eq_some_iff.mp h
      obtain ⟨f, hf, busy⟩ := routine
      unfold provide at given
      rw [hf] at given
      dsimp only at given
      split at given
      · cases given
      · next act there =>
          split at given
          · cases given
          · next declared =>
              have applying : act.state ≠ .active := by
                intro active
                have other := (sound id f hf)
                obtain loading | diverted := busy
                · have state := other.loading (FiberRecord.phase_loading.mp loading)
                  rw [there, Option.map_some, active] at state
                  cases state
                · obtain state | state := other.unloading (FiberRecord.phase_unloading.mp (.inr diverted))
                  · rw [there, Option.map_some, active] at state
                    cases state
                  · rw [there, Option.map_some, active] at state
                    cases state
              rw [if_neg applying] at given
              cases given
              exact .provided hf there (not_not.mp fun none => declared (.inr none)) applying
  | _ => exact routine.elim

end

end Runtime
end Araya
