import Araya.Runtime.Effects

/-!
What the engine does to the runtime, listed once. A `Deed` is the execution of
one frame that returns, `Threw` the one that does not, and a `Feat` is an
operation; each says which record it rewrites, under which guard, and which
calls it leaves. `engine_acts` shows that a step of the engine is one of these.
-/

namespace Araya

/-- Frames that rewrite at most one record and end no transition. -/
def Frame.Errand : Frame → Prop
  | .evaluate _ | .beginUnload .. | .reactivate _ | .notifyProvided .. | .notify .. | .notifyLoop .. => True
  | .forgetPath _ | .recordPath .. | .childMounted .. | .reconcileMount _ => True
  | .reassign .. | .reassignNotify .. | .reassignTail .. => True
  | _ => False

/-- The fiber a waiter erases when it resumes, unless it is a reconcile pass. -/
def Waiter.erases : Waiter → Option FiberId
  | .retire id | .retireChild id => some id
  | .reconcile _ => none

/-- The record differs from another in what the lifecycle does not read: its
place in the scopes, its configuration and its error. -/
structure FiberRecord.Alike (f g : FiberRecord) : Prop where
  descriptor : g.descriptor = f.descriptor
  parentFiber : g.parentFiber = f.parentFiber
  state : g.state = f.state
  activation : g.activation = f.activation
  hasInstance : g.hasInstance = f.hasInstance
  committed : g.committed = f.committed
  consumers : g.consumers = f.consumers
  remaining : g.remaining = f.remaining
  reactivate : g.reactivate = f.reactivate
  stopRequested : g.stopRequested = f.stopRequested
  done : g.done = f.done

theorem FiberRecord.Alike.refl (f : FiberRecord) : f.Alike f :=
  ⟨rfl, rfl, rfl, rfl, rfl, rfl, rfl, rfl, rfl, rfl, rfl⟩

namespace Runtime

/-- No record, apply, transition or binding differs; entries may wait to be mounted. -/
structure Still (rt rt' : Runtime) : Prop where
  fibers : rt'.fibers = rt.fibers
  nextId : rt'.nextId = rt.nextId
  bindings : rt'.contexts.bindings = rt.contexts.bindings
  inFlight : rt'.inFlight = rt.inFlight
  applies : rt'.applies = rt.applies
  posted : ∃ new, rt'.posted = rt.posted ++ new ∧
    ∀ p ∈ new, ∃ path spec rest, p = .mountEntry path spec rest

theorem Still.refl (rt : Runtime) : rt.Still rt := ⟨rfl, rfl, rfl, rfl, rfl, [], by simp, by simp⟩

theorem Still.find {rt rt' : Runtime} (h : rt.Still rt') (j : FiberId) : rt'.find j = rt.find j := by
  simp only [Runtime.find, h.fibers]

inductive Deed (rt : Runtime) : Frame → Runtime → List Frame → Prop
  | errand {fr : Frame} {rt' : Runtime} {fs : List Frame} : fr.Errand → (∀ id b, fr ≠ .beginUnload id b) →
      (∀ p s c, fr ≠ .childMounted p s c) → rt.Still rt' → (∀ g ∈ fs, g.Errand) → Deed rt fr rt' fs
  | noted {id : FiberId} {f : FiberRecord} (e : Option FiberError) : rt.find id = some f →
      f.state = .inactive → Deed rt (.evaluate id) (rt.set id { f with error := e }) []
  | loaded {id : FiberId} {f : FiberRecord} (r : Resolution) : rt.find id = some f → f.state = .inactive →
      0 ≤ f.reactivate → r = rt.resolve id (starting f) → r.satisfiable = true → f.applyFailed = false →
      f.descriptor.create f.config rt.nextId = .plugin → Deed rt (.evaluate id)
        ((rt.drawId.set id { committing f rt.nextId r with hasInstance := true }).spawn id) []
  | lapsed {id : FiberId} {f g : FiberRecord} : rt.find id = some f → f.state = .inactive →
      (g = factoryFailed f ∨ ∃ r, g = unresolved f r) → Deed rt (.evaluate id) (rt.drawId.set id g) []
  | absent {id : FiberId} {fr : Frame} : rt.find id = none →
      ((∃ b, fr = .beginUnload id b) ∨ fr = .requestStop id ∨ fr = .maybeFinishUnload id ∨
        fr = .retireChildTail id) → Deed rt fr rt []
  | raised {id : FiberId} {f : FiberRecord} {b : Bool} : rt.find id = some f →
      (f.state = .inactive ∨ f.state = .unloading) →
      Deed rt (.beginUnload id b) (rt.set id (raiseReactivate f b)) []
  | diverted {id : FiberId} {f : FiberRecord} {b : Bool} : rt.find id = some f → f.state = .loading →
      Deed rt (.beginUnload id b) (rt.set id (Runtime.diverted (raiseReactivate f b))) []
  | withdrew {id : FiberId} {f g : FiberRecord} {b : Bool} : rt.find id = some f → f.state = .active →
      g = raiseReactivate f b →
      Deed rt (.beginUnload id b)
        ((rt.set id (withdrawing g (rt.countInstalled g.consumers))).transitionStarted.markBindings id g .retiring)
        (g.consumers.toList.map (.beginUnload · true) ++ [.requestStop id])
  | stopped {id : FiberId} {f : FiberRecord} : rt.find id = some f →
      Deed rt (.requestStop id) (rt.set id { f with stopRequested := true }) [.maybeFinishUnload id]
  | held {id : FiberId} {f : FiberRecord} : rt.find id = some f →
      ¬ (f.state = .unloading ∧ f.remaining = 0) → Deed rt (.maybeFinishUnload id) rt []
  | finished {id : FiberId} {f : FiberRecord} : rt.find id = some f → f.state = .unloading →
      f.remaining = 0 →
      Deed rt (.maybeFinishUnload id) ((rt.teardownOf id f).set id (parked f))
        [.releaseProviders id f.committed.toList, .openDone id, .notifyProvided id f.provide,
          .reactivate id, .transitionFinished]
  | drained {id : FiberId} : Deed rt (.releaseProviders id []) rt []
  | skipped {id : FiberId} {e : ServiceId × FiberId} {es : List (ServiceId × FiberId)} :
      rt.find e.2 = none → Deed rt (.releaseProviders id (e :: es)) rt [.releaseProviders id es]
  | released {id : FiberId} {e : ServiceId × FiberId} {es : List (ServiceId × FiberId)} {p : FiberRecord} :
      rt.find e.2 = some p →
      Deed rt (.releaseProviders id (e :: es)) (rt.set e.2 (release id p))
        [.maybeFinishUnload e.2, .releaseProviders id es]
  | shut {id : FiberId} : (∀ f, rt.find id = some f → f.done.isOpen = true) → Deed rt (.openDone id) rt []
  | opened {id : FiberId} {f : FiberRecord} : rt.find id = some f → f.done.isOpen = false →
      Deed rt (.openDone id) (rt.set id { f with done := {} }) (f.done.waiters.map .resume)
  | revived {id : FiberId} {f : FiberRecord} : rt.find id = some f → 0 < f.reactivate →
      Deed rt (.reactivate id) (rt.set id { f with reactivate := 0 }) [.evaluate id]
  | ended : Deed rt .transitionFinished { rt with inFlight := rt.inFlight - 1 } []
  | through {id : FiberId} {w : Waiter} : (∀ f, rt.find id = some f → f.done.isOpen = true) →
      Deed rt (.awaitDone id w) rt [.resume w]
  | waits {id : FiberId} {w : Waiter} {f : FiberRecord} : rt.find id = some f → f.done.isOpen = false →
      Deed rt (.awaitDone id w)
        (rt.set id { f with done := { f.done with waiters := f.done.waiters ++ [w] } }) []
  | erased {id : FiberId} {w : Waiter} : w.erases = some id →
      Deed rt (.resume w) (rt.eraseFiber id) []
  | resumed {job : ReconcileJob} : Deed rt (.resume (.reconcile job)) rt [.reconcileAwait job]
  | childErased {id : FiberId} {f : FiberRecord} : rt.find id = some f → f.state = .inactive →
      Deed rt (.retireChildTail id) (rt.eraseFiber id) []
  | childWaits {id : FiberId} {f : FiberRecord} : rt.find id = some f → f.state ≠ .inactive →
      Deed rt (.retireChildTail id) rt [.awaitDone id (.retireChild id)]
  | childMounted {parent child : FiberId} {serial : Nat} :
      Deed rt (.childMounted parent serial child)
        { rt with posted := rt.posted ++ [.addChildEffect parent serial child] } []
  | diffDone {desired : List DesiredComponent} {toAwait : List FiberId} :
      Deed rt (.reconcileDiff desired [] toAwait) rt [.reconcileAwait ⟨desired, toAwait, toAwait⟩]
  | dropped {desired : List DesiredComponent} {es es' : List (String × FiberId)} {path : String}
      {toAwait : List FiberId} {rt' : Runtime} {id : FiberId} {f : FiberRecord} :
      rt.Still rt' → rt.find id = some f →
      Deed rt (.reconcileDiff desired es toAwait) (rt'.set id { f with reactivate := -1 })
        [.beginUnload id false, .forgetPath path, .reconcileDiff desired es' (toAwait ++ [id])]
  | kept {desired : List DesiredComponent} {es es' : List (String × FiberId)} {toAwait : List FiberId}
      {rt' : Runtime} {fs : List Frame} : rt.Still rt' → (∀ g ∈ fs, g.Errand) →
      Deed rt (.reconcileDiff desired es toAwait) rt' (fs ++ [.reconcileDiff desired es' toAwait])
  | revised {desired : List DesiredComponent} {es es' : List (String × FiberId)} {toAwait : List FiberId}
      {rt' : Runtime} {fs : List Frame} {id : FiberId} {f g : FiberRecord} :
      rt.Still rt' → (∀ g ∈ fs, g.Errand) → rt.find id = some f → f.Alike g →
      Deed rt (.reconcileDiff desired es toAwait) (rt'.set id g) (fs ++ [.reconcileDiff desired es' toAwait])
  | moved {id : FiberId} {f : FiberRecord} {next : ComponentSpec} {scope : ScopeId}
      {oldRealms : List (ServiceId × Realm)} {fs : List Frame} : rt.find id = some f →
      (∀ g ∈ fs, g.Errand) →
      Deed rt (.reassign id next scope oldRealms)
        { rt with contexts := (moveBindings rt.contexts id f.scope scope oldRealms).1 } fs
  | placed {id : FiberId} {f g : FiberRecord} {next : ComponentSpec} {scope : ScopeId} {fs : List Frame} :
      rt.find id = some f → f.Alike g → (∀ g ∈ fs, g.Errand) →
      Deed rt (.reassignTail id next scope) (rt.set id g) fs
  | awaitNext {desired : List DesiredComponent} {id : FiberId} {ids retired : List FiberId} :
      Deed rt (.reconcileAwait ⟨desired, id :: ids, retired⟩) rt
        [.awaitDone id (.reconcile ⟨desired, ids, retired⟩)]
  | erasedAll {desired : List DesiredComponent} {retired : List FiberId} :
      Deed rt (.reconcileAwait ⟨desired, [], retired⟩) (retired.foldl eraseFiber rt)
        [.reconcileMount desired]

/-- A throwing factory: the fiber stays loading without an apply. -/
inductive Threw (rt : Runtime) : Frame → Runtime → Prop
  | create {id : FiberId} {f : FiberRecord} (r : Resolution) : rt.find id = some f → f.state = .inactive →
      0 ≤ f.reactivate → r = rt.resolve id (starting f) → r.satisfiable = true → f.applyFailed = false →
      f.descriptor.create f.config rt.nextId = .throws →
      Threw rt (.evaluate id) (rt.drawId.set id (committing f rt.nextId r))

/-- What running a frame amounts to. -/
def Deeds (rt : Runtime) (fr : Frame) : Ran → Prop
  | .call rt' fs => rt.Deed fr rt' fs
  | .throw rt' => rt.Threw fr rt'

/-! Frames -/

section
variable (rt : Runtime) (id : FiberId)

theorem Deeds.idle {rt : Runtime} {fr : Frame} {fs : List Frame} (errand : fr.Errand)
    (unload : ∀ id b, fr ≠ .beginUnload id b) (child : ∀ p s c, fr ≠ .childMounted p s c)
    (calls : ∀ g ∈ fs, g.Errand) : rt.Deeds fr (.call rt fs) :=
  .errand errand unload child (.refl rt) calls

theorem startLoading_deeds {f : FiberRecord} (hf : rt.find id = some f) (hs : f.state = .inactive)
    (kept : 0 ≤ f.reactivate) (applied : f.applyFailed = false) : rt.Deeds (.evaluate id) (rt.startLoading id) := by
  unfold startLoading
  rw [hf]
  dsimp only
  split
  · next met =>
      split
      · next created => exact .create _ hf hs kept rfl met applied created
      · exact .lapsed hf hs (.inl rfl)
      · next created => exact .loaded _ hf hs kept rfl met applied created
  · exact .lapsed hf hs (.inr ⟨_, rfl⟩)

theorem evaluate_deeds : rt.Deeds (.evaluate id) (rt.evaluate id) := by
  have idle : ∀ {fs : List Frame}, (∀ g ∈ fs, g.Errand) → rt.Deeds (.evaluate id) (.call rt fs) :=
    Deeds.idle trivial (by simp) (by simp)
  unfold evaluate
  split
  · exact idle (by simp)
  · next f hf =>
      split
      · exact idle (by simp)
      · split
        · exact idle (by simp)
        · next kept =>
            dsimp only
            split
            · next hs =>
                split
                · next due => exact startLoading_deeds rt id hf hs (Int.not_lt.mp kept) due.2
                · split
                  · exact .noted _ hf hs
                  · exact idle (by simp)
            · split
              · exact idle (by simp)
              · exact idle (by simp [Frame.Errand])

theorem raiseReactivate_state (f : FiberRecord) (b : Bool) : (raiseReactivate f b).state = f.state := by
  unfold raiseReactivate
  split <;> rfl

theorem raiseReactivate_activation (f : FiberRecord) (b : Bool) :
    (raiseReactivate f b).activation = f.activation := by
  unfold raiseReactivate
  split <;> rfl

theorem beginUnload_deeds (b : Bool) : rt.Deeds (.beginUnload id b) (rt.beginUnload id b) := by
  unfold beginUnload
  split
  · next hf => exact .absent hf (.inl ⟨b, rfl⟩)
  · next f hf =>
      dsimp only
      split
      · next hs => exact .raised hf (.inr ((raiseReactivate_state f b).symm.trans hs))
      · next hs => exact .raised hf (.inl ((raiseReactivate_state f b).symm.trans hs))
      · next hs => exact .diverted hf ((raiseReactivate_state f b).symm.trans hs)
      · next hs => exact .withdrew hf ((raiseReactivate_state f b).symm.trans hs) rfl

theorem requestStop_deeds : rt.Deeds (.requestStop id) (rt.requestStop id) := by
  unfold requestStop
  split
  · next hf => exact .absent hf (.inr (.inl rfl))
  · next f hf => exact .stopped hf

theorem maybeFinishUnload_deeds : rt.Deeds (.maybeFinishUnload id) (rt.maybeFinishUnload id) := by
  unfold maybeFinishUnload finishUnload
  split
  · next hf => exact .absent hf (.inr (.inr (.inl rfl)))
  · next f hf =>
      split
      · next due => exact .finished hf due.1 due.2
      · next due => exact .held hf due

theorem releaseProviders_deeds (es : List (ServiceId × FiberId)) :
    rt.Deeds (.releaseProviders id es) (rt.releaseProviders id es) := by
  cases es with
  | nil => exact .drained
  | cons e es =>
      simp only [releaseProviders]
      split
      · next he => exact .skipped he
      · next p hp => exact .released hp

theorem openDone_deeds : rt.Deeds (.openDone id) (rt.openDone id) := by
  unfold openDone
  split
  · next hf => exact .shut fun f h => absurd (hf.symm.trans h) (by simp)
  · next f hf =>
      split
      · next hd => exact .shut fun g h => Option.some.inj (hf.symm.trans h) ▸ hd
      · next hd => exact .opened hf (Bool.eq_false_iff.mpr hd)

theorem reactivateTail_deeds : rt.Deeds (.reactivate id) (rt.reactivateTail id) := by
  unfold reactivateTail
  split
  · exact .idle trivial (by simp) (by simp) (by simp)
  · next f hf =>
      split
      · next hp => exact .revived hf hp
      · exact .idle trivial (by simp) (by simp) (by simp)

theorem notifyProvided_deeds (keys : List ServiceId) :
    rt.Deeds (.notifyProvided id keys) (rt.notifyProvided id keys) := by
  cases keys with
  | nil => exact .idle trivial (by simp) (by simp) (by simp)
  | cons k ks =>
      simp only [notifyProvided]
      split
      · exact .idle trivial (by simp) (by simp) (by simp)
      · exact .idle trivial (by simp) (by simp) (by simp [Frame.Errand])

theorem notify_deeds (key : ServiceId) (scope : ScopeId) (realm : Realm) :
    rt.Deeds (.notify key scope realm) (rt.notify key scope realm) := by
  unfold notify
  split
  · exact .idle trivial (by simp) (by simp) (by simp)
  · exact .idle trivial (by simp) (by simp) (by simp [Frame.Errand])

theorem dropStale_still (key : ServiceId) (stale : List FiberId) : rt.Still (rt.dropStale key stale) := by
  unfold dropStale
  split
  · exact .refl rt
  · exact ⟨rfl, rfl, rfl, rfl, rfl, [], by simp, by simp⟩

theorem notifyLoop_deeds (key : ServiceId) (scope : ScopeId) (realm : Realm) (ids stale : List FiberId) :
    rt.Deeds (.notifyLoop key scope realm ids stale) (rt.notifyLoop key scope realm ids stale) := by
  cases ids with
  | nil => exact .errand trivial (by simp) (by simp) (dropStale_still rt key stale) (by simp)
  | cons c ids =>
      simp only [notifyLoop]
      split
      · exact .idle trivial (by simp) (by simp) (by simp [Frame.Errand])
      · split
        · exact .idle trivial (by simp) (by simp) (by simp [Frame.Errand])
        · exact .idle trivial (by simp) (by simp) (by simp [Frame.Errand])

theorem awaitDone_deeds (w : Waiter) : rt.Deeds (.awaitDone id w) (rt.awaitDone id w) := by
  unfold awaitDone
  split
  · next hf => exact .through fun f h => absurd (hf.symm.trans h) (by simp)
  · next f hf =>
      split
      · next hd => exact .through fun g h => Option.some.inj (hf.symm.trans h) ▸ hd
      · next hd => exact .waits hf (Bool.eq_false_iff.mpr hd)

theorem resume_deeds (w : Waiter) : rt.Deeds (.resume w) (rt.resume w) := by
  cases w with
  | retire id => exact .erased rfl
  | retireChild id => exact .erased rfl
  | reconcile job => exact .resumed

theorem retireChildTail_deeds : rt.Deeds (.retireChildTail id) (rt.retireChildTail id) := by
  unfold retireChildTail
  split
  · next hf => exact .absent hf (.inr (.inr (.inr rfl)))
  · next f hf =>
      split
      · next hs => exact .childErased hf hs
      · next hs => exact .childWaits hf hs

/-! The reconcile pass -/

theorem errands_nil : ∀ g ∈ ([] : List Frame), g.Errand := by simp

theorem errands_reassign (id : FiberId) (spec : ComponentSpec) (scope : ScopeId)
    (old : List (ServiceId × Realm)) : ∀ g ∈ [Frame.reassign id spec scope old], g.Errand := by
  simp [Frame.Errand]

theorem forgetPath_still (path : String) : rt.Still (rt.forgetPath path) :=
  ⟨rfl, rfl, rfl, rfl, rfl, [], by simp [forgetPath], by simp⟩

theorem entryScopeFor_still (path : String) (spec : ComponentSpec) :
    rt.Still (rt.entryScopeFor path spec).1 := by
  obtain ⟨c, m, n, hc, he⟩ := entryScopeFor_eq rt path spec
  rw [he]
  exact ⟨rfl, rfl, hc, rfl, rfl, [], by simp, by simp⟩

/-- An entry's scope is found without a look at the records. -/
theorem entryScopeFor_set (path : String) (spec : ComponentSpec) (g : FiberRecord) :
    (rt.set id g).entryScopeFor path spec =
      ((rt.entryScopeFor path spec).1.set id g, (rt.entryScopeFor path spec).2) := by
  simp only [entryScopeFor, entryCtx, Runtime.set]
  split
  · rfl
  · cases (rt.entryCtxs.find? path).filter fun s =>
      rt.contexts.tree.parent s == some (spec.parent.getD rootScope) <;> rfl

theorem retireEntry_deeds {rt' : Runtime} (still : rt.Still rt') {desired : List DesiredComponent}
    {path : String} {f : FiberRecord} (hf : rt.find id = some f) (es es' : List (String × FiberId))
    (toAwait : List FiberId) :
    rt.Deeds (.reconcileDiff desired es toAwait) (rt'.retireEntry desired path id f es' toAwait) :=
  .dropped still hf

theorem retainEntry_deeds {desired : List DesiredComponent} {path : String} {f : FiberRecord}
    (hf : rt.find id = some f) (spec : ComponentSpec) (es es' : List (String × FiberId))
    (toAwait : List FiberId) :
    rt.Deeds (.reconcileDiff desired es toAwait) (rt.retainEntry desired path id f spec es' toAwait) := by
  have still := entryScopeFor_still rt path spec
  unfold retainEntry
  generalize rt.entryScopeFor path spec = entered at still
  obtain ⟨rt', scope⟩ := entered
  dsimp only
  split
  · exact retireEntry_deeds rt id still hf es es' toAwait
  · split
    · split
      · exact .kept still (errands_reassign id spec scope _)
      · exact .revised still errands_nil hf ⟨rfl, rfl, rfl, rfl, rfl, rfl, rfl, rfl, rfl, rfl, rfl⟩
    · exact .kept still errands_nil

/-- An active entry that takes its new configuration stays. -/
theorem reconfigured_deeds {desired : List DesiredComponent} {path : String} {f g : FiberRecord}
    (hf : rt.find id = some f) (alike : f.Alike g) (hs : g.state = .active) (spec : ComponentSpec)
    (es es' : List (String × FiberId)) (toAwait : List FiberId) :
    rt.Deeds (.reconcileDiff desired es toAwait)
      ((rt.set id g).retainEntry desired path id g spec es' toAwait) := by
  have still := entryScopeFor_still rt path spec
  unfold retainEntry
  rw [entryScopeFor_set]
  generalize rt.entryScopeFor path spec = entered at still
  obtain ⟨rt', scope⟩ := entered
  dsimp only
  rw [if_neg (by simp [hs])]
  split
  · rw [if_pos (.inl hs)]
    exact .revised still (errands_reassign id spec scope _) hf alike
  · exact .revised still errands_nil hf alike

theorem reconcileDiff_deeds (desired : List DesiredComponent) (es : List (String × FiberId))
    (toAwait : List FiberId) :
    rt.Deeds (.reconcileDiff desired es toAwait) (rt.reconcileDiff desired es toAwait) := by
  cases es with
  | nil => exact .diffDone
  | cons e es =>
      obtain ⟨path, id⟩ := e
      simp only [reconcileDiff]
      split
      · exact .kept (forgetPath_still rt path) errands_nil
      · next f hf =>
          split
          · exact retireEntry_deeds rt id (.refl rt) hf _ _ _
          · next node _ =>
              split
              · exact retireEntry_deeds rt id (.refl rt) hf _ _ _
              · split
                · split
                  · next applied =>
                      have alike : f.Alike { f with config := node.spec.config } :=
                        ⟨rfl, rfl, rfl, rfl, rfl, rfl, rfl, rfl, rfl, rfl, rfl⟩
                      exact reconfigured_deeds rt id hf alike applied.2.1 node.spec _ _ _
                  · exact retireEntry_deeds rt id (.refl rt) hf _ _ _
                · exact retainEntry_deeds rt id hf _ _ _ _

theorem reassign_deeds (spec : ComponentSpec) (scope : ScopeId) (old : List (ServiceId × Realm)) :
    rt.Deeds (.reassign id spec scope old) (rt.reassign id spec scope old) := by
  unfold reassign
  split
  · exact .idle trivial (by simp) (by simp) (by simp)
  · next f hf =>
      refine .moved hf fun g hg => ?_
      rcases List.mem_append.mp hg with hg | hg
      · split at hg
        · rw [List.mem_singleton.mp hg]
          trivial
        · cases hg
      · rw [List.mem_singleton.mp hg]
        trivial

theorem reassignNotify_deeds (old scope : ScopeId) (keys : List (ServiceId × Realm)) :
    rt.Deeds (.reassignNotify old scope keys) (rt.reassignNotify old scope keys) := by
  cases keys with
  | nil => exact .idle trivial (by simp) (by simp) (by simp)
  | cons e es => exact .idle trivial (by simp) (by simp) (by simp [Frame.Errand])

theorem reassignTail_deeds (spec : ComponentSpec) (scope : ScopeId) :
    rt.Deeds (.reassignTail id spec scope) (rt.reassignTail id spec scope) := by
  unfold reassignTail
  split
  · exact .idle trivial (by simp) (by simp) (by simp)
  · next f hf =>
      refine .placed hf ⟨rfl, rfl, rfl, rfl, rfl, rfl, rfl, rfl, rfl, rfl, rfl⟩ fun g hg => ?_
      split at hg
      · rw [List.mem_singleton.mp hg]
        trivial
      · cases hg

theorem reconcileAwait_deeds (job : ReconcileJob) : rt.Deeds (.reconcileAwait job) (rt.reconcileAwait job) := by
  obtain ⟨desired, awaiting, retired⟩ := job
  cases awaiting with
  | nil => exact .erasedAll
  | cons id ids => exact .awaitNext

theorem reconcileMount_call (desired : List DesiredComponent) :
    ∃ rt', rt.reconcileMount desired = .call rt' [] ∧ rt.Still rt' := by
  induction desired with
  | nil => exact ⟨rt, rfl, .refl rt⟩
  | cons node rest ih =>
      have still := entryScopeFor_still rt node.path node.spec
      simp only [reconcileMount]
      split
      · exact ih
      · generalize rt.entryScopeFor node.path node.spec = entered at still
        obtain ⟨rt', scope⟩ := entered
        obtain ⟨new, posted, entries⟩ := still.posted
        refine ⟨_, rfl, still.fibers, still.nextId, still.bindings, still.inFlight, still.applies, ?_⟩
        refine ⟨new ++ [.mountEntry node.path _ rest], by rw [posted, List.append_assoc], fun p hp => ?_⟩
        rcases List.mem_append.mp hp with hp | hp
        · exact entries p hp
        · exact ⟨_, _, _, List.mem_singleton.mp hp⟩

/-- Every frame's execution is a deed, or it throws. -/
theorem exec_deeds (fr : Frame) : rt.Deeds fr (rt.exec fr) := by
  cases fr with
  | evaluate id => exact evaluate_deeds rt id
  | beginUnload id b => exact beginUnload_deeds rt id b
  | requestStop id => exact requestStop_deeds rt id
  | maybeFinishUnload id => exact maybeFinishUnload_deeds rt id
  | releaseProviders id es => exact releaseProviders_deeds rt id es
  | openDone id => exact openDone_deeds rt id
  | notifyProvided id keys => exact notifyProvided_deeds rt id keys
  | notify key scope realm => exact notify_deeds rt key scope realm
  | notifyLoop key scope realm ids stale => exact notifyLoop_deeds rt key scope realm ids stale
  | reactivate id => exact reactivateTail_deeds rt id
  | transitionFinished => exact .ended
  | awaitDone id w => exact awaitDone_deeds rt id w
  | resume w => exact resume_deeds rt w
  | retireChildTail id => exact retireChildTail_deeds rt id
  | reconcileDiff desired es toAwait => exact reconcileDiff_deeds rt desired es toAwait
  | forgetPath path => exact .errand trivial (by simp) (by simp) (forgetPath_still rt path) (by simp)
  | reassign id spec scope old => exact reassign_deeds rt id spec scope old
  | reassignNotify old scope keys => exact reassignNotify_deeds rt old scope keys
  | reassignTail id spec scope => exact reassignTail_deeds rt id spec scope
  | reconcileAwait job => exact reconcileAwait_deeds rt job
  | recordPath path id =>
      exact .errand trivial (by simp) (by simp) ⟨rfl, rfl, rfl, rfl, rfl, [], by simp, by simp⟩ (by simp)
  | childMounted parent serial child => exact .childMounted
  | reconcileMount desired =>
      obtain ⟨rt', he, still⟩ := reconcileMount_call rt desired
      rw [exec, he]
      exact .errand trivial (by simp) (by simp) still (by simp)

end

/-! Operations -/

/-- The completion of a fiber is published. -/
def Publishes (rt : Runtime) (id : FiberId) (ep : Option String) : Prop :=
  ∃ f, rt.find id = some f ∧ rt.publishes f ep = true

/-- The handlers of the strand. -/
inductive Delivery (rt : Runtime) : Posted → Runtime → List Frame → Prop
  | gone {id : FiberId} : rt.find id = none → Delivery rt (.retireChild id) rt []
  | retired {id : FiberId} {f : FiberRecord} : rt.find id = some f →
      Delivery rt (.retireChild id) (rt.set id { f with reactivate := -1 })
        [.beginUnload id false, .retireChildTail id]
  | child {parent : FiberId} {serial : Nat} {spec : ComponentSpec} :
      Delivery rt (.mountChild parent serial spec) (rt.mountLocked spec parent)
        [.evaluate rt.nextId, .childMounted parent serial rt.nextId]
  | untracked {parent : FiberId} {serial : Nat} {child : FiberId} :
      (∀ f act, rt.find parent = some f → f.activation = some act → act.serial ≠ serial) →
      Delivery rt (.addChildEffect parent serial child) rt []
  | tracked {parent : FiberId} {child : FiberId} {f : FiberRecord} {act : Activation} :
      rt.find parent = some f → f.activation = some act →
      Delivery rt (.addChildEffect parent act.serial child)
        (rt.set parent { f with
          activation := some { act with effects := act.effects ++ [.retireChild child] } }) []
  | entry {path : String} {spec : ComponentSpec} {rest : List DesiredComponent} :
      Delivery rt (.mountEntry path spec rest) (rt.mountLocked spec 0)
        [.evaluate rt.nextId, .recordPath path rt.nextId, .reconcileMount rest]
  | unloadAll : Delivery rt .unloadAll rt rt.unloadAll

inductive Feat (rt : Runtime) : Op → Runtime → List Frame → Prop
  | mounted {spec : ComponentSpec} : Feat rt (.mount spec) (rt.mountLocked spec 0) [.evaluate rt.nextId]
  | asked {parent : FiberId} {spec spec' : ComponentSpec} {f : FiberRecord} {act : Activation} {c : Contexts} :
      rt.find parent = some f → f.activation = some act → c.bindings = rt.contexts.bindings →
      Feat rt (.mountChild parent spec)
        { rt with contexts := c, posted := rt.posted ++ [.mountChild parent act.serial spec'] } []
  | absent {id : FiberId} : rt.find id = none → Feat rt (.retire id) rt []
  | erased {id : FiberId} {f : FiberRecord} : rt.find id = some f → f.state = .inactive →
      Feat rt (.retire id) (rt.eraseFiber id) []
  | retired {id : FiberId} {f : FiberRecord} : rt.find id = some f → f.state ≠ .inactive →
      Feat rt (.retire id) (rt.set id { f with reactivate := -1 })
        [.beginUnload id false, .awaitDone id (.retire id)]
  | reconciled {desired : List DesiredComponent} :
      Feat rt (.reconcile desired) rt [.reconcileDiff desired rt.reconciled.toList []]
  | ignored {id : FiberId} {ep : Option String} : id ∈ rt.applies →
      (∀ f, rt.find id = some f → f.state ≠ .loading ∧ f.state ≠ .unloading) →
      Feat rt (.complete id ep) { rt with applies := rt.applies.erase id } []
  | published {id : FiberId} {ep : Option String} {f : FiberRecord} : id ∈ rt.applies →
      rt.find id = some f → f.state = .loading → rt.publishes f ep = true →
      Feat rt (.complete id ep) ({ rt with applies := rt.applies.erase id }.publish id f).1
        [.notifyProvided id f.provide, .transitionFinished]
  | failed {id : FiberId} {ep : Option String} {f : FiberRecord} {fs : List Frame} : id ∈ rt.applies →
      rt.find id = some f → (f.state = .loading ∨ f.state = .unloading) → rt.publishes f ep = false →
      (∀ g ∈ fs, g.Errand) →
      Feat rt (.complete id ep)
        (({ rt with applies := rt.applies.erase id }.teardownOf id f).set id (parked (applyOutcome f ep)))
        (.openDone id :: fs ++ [.transitionFinished])
  | provided {id : FiberId} {key : ServiceId} {value : Value} {available : Bool} {f : FiberRecord}
      {act : Activation} {state : ProviderState} : rt.find id = some f → f.activation = some act →
      act.state ≠ .inactive → state = (if act.state = .active then .active else .loading) →
      Feat rt (.provide id key value available)
        ({ rt with contexts := rt.contexts.bind act.scope key ⟨some value, id, state, available⟩ }.set id
          { f with activation := some { act with effects := act.effects ++ [Effect.unbind key] } }) []
  | available {id : FiberId} {key : ServiceId} : Feat rt (.promote id key) rt []
  | promoted {id : FiberId} {key : ServiceId} {scope : ScopeId} :
      Feat rt (.promote id key)
        { rt with contexts := rt.contexts.modifyLookup scope key fun b => { b with available := true } }
        [.notify key scope (rt.contexts.realmFor scope key)]
  | unknown {id : FiberId} : rt.find id = none → Feat rt (.cancel id) rt []
  | cancelled {id : FiberId} {f : FiberRecord} : rt.find id = some f →
      Feat rt (.cancel id) (rt.set id { f with stopRequested := true }) []
  | delivered {n : Nat} {p : Posted} {rt' : Runtime} {fs : List Frame} : rt.posted[n]? = some p →
      { rt with posted := rt.posted.eraseIdx n }.Delivery p rt' fs → Feat rt (.deliver n) rt' fs

section
variable {rt : Runtime} {id : FiberId}

theorem runPosted_delivery (p : Posted) : rt.Delivery p (rt.runPosted p).1 (rt.runPosted p).2 := by
  cases p with
  | retireChild id =>
      simp only [runPosted]
      split
      · next hf => exact .gone hf
      · next f hf => exact .retired hf
  | mountChild parent serial spec => exact .child
  | addChildEffect parent serial child =>
      simp only [runPosted, addChildEffect]
      split
      · next hf => exact .untracked fun f _ h => absurd (hf.symm.trans h) (by simp)
      · next f hf =>
          split
          · next ha =>
              refine .untracked fun g act h hg => ?_
              cases hf.symm.trans h
              exact absurd (ha.symm.trans hg) (by simp)
          · next act ha =>
              split
              · next hs => exact hs ▸ .tracked hf ha
              · next hs =>
                  refine .untracked fun g act' h hg => ?_
                  cases hf.symm.trans h
                  cases ha.symm.trans hg
                  exact hs
  | mountEntry path spec rest => exact .entry
  | unloadAll => exact .unloadAll

theorem onApplyCompleted_feat (hin : id ∈ rt.applies) (ep : Option String) :
    rt.Feat (.complete id ep) ({ rt with applies := rt.applies.erase id }.onApplyCompleted id ep).1
      ({ rt with applies := rt.applies.erase id }.onApplyCompleted id ep).2 := by
  unfold onApplyCompleted
  split
  · next hf => exact .ignored hin fun f h => absurd (hf.symm.trans h) (by simp)
  · next f hf =>
      split
      · next hs =>
          refine .ignored hin fun g h => ?_
          cases hf.symm.trans h
          exact hs
      · next hs =>
          have due : f.state = .loading ∨ f.state = .unloading := by
            by_contra none
            exact hs ⟨fun h => none (.inl h), fun h => none (.inr h)⟩
          dsimp only
          split
          · next published =>
              refine .published hin hf (due.resolve_right fun unloading => ?_) published
              simp [publishes, unloading] at published
          · next failed =>
              refine .failed hin hf due (Bool.eq_false_iff.mpr failed) fun g hg => ?_
              split at hg
              · rw [List.mem_singleton.mp hg]
                trivial
              · cases hg

theorem retire_feat (rt : Runtime) (id : FiberId) : rt.Feat (.retire id) (rt.retire id).1 (rt.retire id).2 := by
  unfold retire
  split
  · next hf => exact .absent hf
  · next f hf =>
      split
      · next hs => exact .erased hf hs
      · next hs => exact .retired hf hs

theorem mountChild_feat {spec : ComponentSpec} {rt' : Runtime} (h : rt.mountChild id spec = some rt') :
    rt.Feat (.mountChild id spec) rt' [] := by
  unfold mountChild at h
  split at h
  · cases h
  · next act hb =>
      obtain ⟨f, hf, ha⟩ := Option.bind_eq_some_iff.mp hb
      cases h
      refine .asked hf ha ?_
      rfl

theorem provide_feat {key : ServiceId} {value : Value} {available : Bool} {rt' : Runtime}
    (h : rt.provide id key value available = some rt') :
    rt.Feat (.provide id key value available) rt' [] := by
  unfold provide at h
  split at h
  · cases h
  · next f hf =>
      split at h
      · cases h
      · next act ha =>
          split at h
          · cases h
          · next live =>
              cases h
              exact .provided hf ha (fun none => live (.inl none)) rfl

theorem promote_feat {key : ServiceId} {r : Runtime × List Frame} (h : rt.promote id key = some r) :
    rt.Feat (.promote id key) r.1 r.2 := by
  unfold promote at h
  split at h
  · cases h
  · split at h
    · cases h
    · split at h
      · cases h
      · split at h
        · cases h
          exact .available
        · cases h
          exact .promoted

/-- Every operation that is possible is a feat. -/
theorem op_feat {o : Op} {r : Runtime × List Frame} (h : rt.op o = some r) : rt.Feat o r.1 r.2 := by
  cases o with
  | mount spec =>
      cases h
      exact .mounted
  | mountChild parent spec =>
      obtain ⟨rt', hp, rfl⟩ := Option.map_eq_some_iff.mp h
      exact mountChild_feat hp
  | retire id =>
      cases h
      exact retire_feat rt id
  | reconcile desired =>
      cases h
      exact .reconciled
  | complete id ep =>
      simp only [op] at h
      split at h
      · next hin =>
          cases h
          exact onApplyCompleted_feat hin ep
      · cases h
  | provide id key value available =>
      obtain ⟨rt', hp, rfl⟩ := Option.map_eq_some_iff.mp h
      exact provide_feat hp
  | promote id key => exact promote_feat h
  | cancel id =>
      cases h
      simp only [cancel]
      split
      · next hf => exact .unknown hf
      · next f hf => exact .cancelled hf
  | deliver n =>
      simp only [op, deliver] at h
      split at h
      · cases h
      · next p hp =>
          cases h
          exact .delivered hp (runPosted_delivery p)

end
end Runtime

/-- What one step of the engine is. -/
inductive Acts (c c' : EngineConfig) : Label Op → Prop
  | deed {fr : Frame} {rest fs : List Frame} : c.stack = fr :: rest → c.state.Deed fr c'.state fs →
      c'.stack = fs ++ rest → Acts c c' .run
  | threw {fr : Frame} {rest : List Frame} : c.stack = fr :: rest →
      c.state.exec fr = .throw c'.state → c.state.Threw fr c'.state → c'.stack = [] → Acts c c' .run
  | feat {o : Op} {fs : List Frame} : (c.stack = [] ∨ o.nested = true) → c.state.Feat o c'.state fs →
      c'.stack = fs ++ c.stack → Acts c c' (.op o)

theorem engine_acts {c c' : EngineConfig} {a : Label Op} (h : engine.next c a = some c') : Acts c c' a := by
  obtain ⟨fr, rest, s', fs, rfl, hst, hx, rfl⟩ | ⟨fr, rest, s', rfl, hst, hx, rfl⟩ |
    ⟨o, s', fs, rfl, hst, ho, rfl⟩ := StackMachine.next_cases h
  · have deeds : c.state.Deeds fr (.call s' fs) := hx ▸ Runtime.exec_deeds c.state fr
    exact .deed hst deeds rfl
  · have deeds : c.state.Deeds fr (.throw s') := hx ▸ Runtime.exec_deeds c.state fr
    exact .threw hst hx deeds rfl
  · exact .feat hst (Runtime.op_feat ho) rfl

end Araya
