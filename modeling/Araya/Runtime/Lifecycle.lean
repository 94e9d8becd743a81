import Araya.Runtime.Fiber
import Araya.Util.Machine

/-!
The lifecycle functions of the runtime. A `Frame` is a call that is still to be
made, or the part of a function that runs after the calls it has made; each
function takes the runtime to the state it leaves before its first nested call,
and to the frames that follow. Invariant assertions are compiled out, as in a
release build.
-/

namespace Araya

inductive Frame where
  | evaluate (id : FiberId)
  | beginUnload (id : FiberId) (reactivate : Bool)
  /-- The end of `begin_unload`: `request_stop` and `maybe_finish_unload`. -/
  | requestStop (id : FiberId)
  | maybeFinishUnload (id : FiberId)
  /-- The loop of `finish_unload` over the committed map it detached. -/
  | releaseProviders (id : FiberId) (committed : List (ServiceId × FiberId))
  | openDone (id : FiberId)
  /-- The loop that notifies every key the fiber declares to provide. -/
  | notifyProvided (id : FiberId) (keys : List ServiceId)
  | notify (key : ServiceId) (scope : ScopeId) (realm : Realm)
  | notifyLoop (key : ServiceId) (scope : ScopeId) (realm : Realm) (ids stale : List FiberId)
  /-- The end of `finish_unload`: the pending reactivation. -/
  | reactivate (id : FiberId)
  | transitionFinished
  | awaitDone (id : FiberId) (w : Waiter)
  | resume (w : Waiter)
  | retireChildTail (id : FiberId)
  | reconcileDiff (desired : List DesiredComponent) (entries : List (String × FiberId))
      (toAwait : List FiberId)
  | forgetPath (path : String)
  | reassign (id : FiberId) (next : ComponentSpec) (scope : ScopeId) (oldRealms : List (ServiceId × Realm))
  | reassignNotify (oldScope scope : ScopeId) (keys : List (ServiceId × Realm))
  | reassignTail (id : FiberId) (next : ComponentSpec) (scope : ScopeId)
  | reconcileAwait (job : ReconcileJob)
  /-- `reconcile` resumes with the handle of the entry it mounted. -/
  | recordPath (path : String) (id : FiberId)
  /-- `plugin_context::mount` resumes with the handle of the child it mounted. -/
  | childMounted (parent : FiberId) (serial : Nat) (child : FiberId)
  | reconcileMount (desired : List DesiredComponent)

abbrev Ran := Outcome Runtime Frame

namespace Runtime

/-! Resolution -/

structure Resolution where
  satisfiable : Bool := true
  providers : SortedMap ServiceId FiberId := ∅
  bindings : SortedMap ServiceId Binding := ∅
  error : Option FiberError := none

/-- The test of `resolve` on a found binding: present, active, available and not
the fiber's own. -/
def usable (id : FiberId) (b : Binding) : Bool :=
  b.value.isSome && b.state == .active && b.available && b.provider != id

/-- The usable binding of a key in a scope. -/
def binding? (rt : Runtime) (id : FiberId) (scope : ScopeId) (key : ServiceId) : Option Binding :=
  (rt.contexts.lookup scope key).filter (usable id)

def resolveLoop (rt : Runtime) (id : FiberId) (scope : ScopeId) :
    List Dependency → Resolution → Resolution
  | [], r => r
  | d :: ds, r =>
    match rt.binding? id scope d.key with
    | some b =>
      rt.resolveLoop id scope ds
        { r with providers := r.providers.insert d.key b.provider, bindings := r.bindings.insert d.key b }
    | none =>
      if d.required then { r with satisfiable := false, error := some (.unresolved d.key) }
      else rt.resolveLoop id scope ds r

def resolve (rt : Runtime) (id : FiberId) (f : FiberRecord) : Resolution :=
  rt.resolveLoop id f.scope f.inject {}

/-- `evaluate`'s comparison of a resolution with the committed map. -/
def Resolution.same (r : Resolution) (committed : SortedMap ServiceId FiberId) : Bool :=
  r.satisfiable && r.providers.size == committed.size &&
    r.providers.toList.all fun e => committed.find? e.1 == some e.2

def providersStillActive (rt : Runtime) (f : FiberRecord) : Bool :=
  f.committed.toList.all fun e =>
    match rt.contexts.lookup f.scope e.1 with
    | none => false
    | some b => b.value.isSome && b.provider == e.2 && b.state == .active && b.available

/-! Loading and publication -/

/-- A fresh activation of a fiber over the bindings it commits to. -/
def freshActivation (serial : Nat) (f : FiberRecord) (r : Resolution) : Activation :=
  { serial, scope := f.scope, committedView := r.bindings }

/-- The record `start_loading` resets before it resolves. -/
def starting (f : FiberRecord) : FiberRecord :=
  { f with error := none, applyFailed := false, state := .loading, stopRequested := false }

def unresolved (f : FiberRecord) (r : Resolution) : FiberRecord :=
  { starting f with error := r.error, state := .inactive }

def committing (f : FiberRecord) (serial : Nat) (r : Resolution) : FiberRecord :=
  { starting f with activation := some (freshActivation serial f r), committed := r.providers }

/-- The record a factory that returned null leaves behind. -/
def factoryFailed (f : FiberRecord) : FiberRecord :=
  { starting f with
    error := some (.factoryNull f.descriptor.name), state := .inactive, activation := none,
    committed := ∅, hasInstance := false }

/-- Draws the identity of an activation. -/
def drawId (rt : Runtime) : Runtime := { rt with nextId := rt.nextId + 1 }

/-- `transition_started`, with the apply of a fiber spawned. -/
def spawn (rt : Runtime) (id : FiberId) : Runtime :=
  { rt with inFlight := rt.inFlight + 1, applies := id :: rt.applies }

def startLoading (rt : Runtime) (id : FiberId) : Ran :=
  match rt.find id with
  | none => .call rt []
  | some f =>
    let r := rt.resolve id (starting f)
    if r.satisfiable then
      match f.descriptor.create f.config rt.nextId with
      | .throws => .throw (rt.drawId.set id (committing f rt.nextId r))
      | .null => .call (rt.drawId.set id (factoryFailed f)) []
      | .plugin =>
        .call ((rt.drawId.set id { committing f rt.nextId r with hasInstance := true }).spawn id) []
    else .call (rt.drawId.set id (unresolved f r)) []

def evaluate (rt : Runtime) (id : FiberId) : Ran :=
  match rt.find id with
  | none => .call rt []
  | some f =>
    if f.state ≠ .inactive ∧ f.state ≠ .active then .call rt []
    else if f.reactivate < 0 then .call rt []
    else
      let r := rt.resolve id f
      if f.state = .inactive then
        if r.satisfiable ∧ f.applyFailed = false then rt.startLoading id
        else if f.error.isNone then .call (rt.set id { f with error := r.error }) []
        else .call rt []
      else if r.same f.committed then .call rt []
      else .call rt [.beginUnload id r.satisfiable]

/-- Sets the state of every binding that the fiber provides under a declared key. -/
def markProvided (c : Contexts) (id : FiberId) (scope : ScopeId) (state : ProviderState)
    (keys : List ServiceId) : Contexts :=
  keys.foldl (fun c k =>
    match c.lookup scope k with
    | none => c
    | some b => if b.provider = id then c.modifyLookup scope k fun b => { b with state } else c) c

def addConsumer (rt : Runtime) (id : FiberId) (providers : List (ServiceId × FiberId)) : Runtime :=
  providers.foldl (fun rt e =>
    match rt.find e.2 with
    | none => rt
    | some p => rt.set e.2 { p with consumers := p.consumers.insert id }) rt

/-- The record of a published fiber. -/
def activated (f : FiberRecord) : FiberRecord :=
  { f with state := .active, activation := f.activation.map (·.withState .active) }

def markBindings (rt : Runtime) (id : FiberId) (f : FiberRecord) (state : ProviderState) : Runtime :=
  { rt with contexts := markProvided rt.contexts id f.scope state f.provide }

def publish (rt : Runtime) (id : FiberId) (f : FiberRecord) : Runtime × List Frame :=
  (((rt.markBindings id f .active).set id (activated f)).addConsumer id f.committed.toList,
    [.notifyProvided id f.provide, .transitionFinished])

def runEffect (id : FiberId) (scope : ScopeId) (rt : Runtime) : Effect → Runtime
  | .unbind k =>
    match rt.contexts.lookup scope k with
    | none => rt
    | some b => if b.provider = id then { rt with contexts := rt.contexts.unbind scope k } else rt
  | .retireChild child => { rt with posted := rt.posted ++ [.retireChild child] }

/-- `activation::teardown`: the recorded cleanups in reverse order. -/
def teardown (rt : Runtime) (id : FiberId) (act : Activation) : Runtime :=
  act.effects.reverse.foldl (runEffect id act.scope) rt

def teardownOf (rt : Runtime) (id : FiberId) (f : FiberRecord) : Runtime :=
  match f.activation with
  | none => rt
  | some act => rt.teardown id act

/-- The record a failed or finished activation leaves behind. -/
def parked (f : FiberRecord) : FiberRecord :=
  { f with activation := f.activation.map (·.tornDown), state := .inactive, committed := ∅, hasInstance := false }

/-- The outcome `on_apply_completed` writes on a fiber that is not published. -/
def applyOutcome (f : FiberRecord) (ep : Option String) : FiberRecord :=
  if f.error.isNone then
    match ep with
    | some what => { f with error := some (.raised what), applyFailed := true }
    | none => if f.stopRequested then { f with error := some .cancelled } else f
  else f

/-- Whether a completed apply is published. -/
def publishes (rt : Runtime) (f : FiberRecord) (ep : Option String) : Bool :=
  !(ep.isSome || f.stopRequested || !rt.providersStillActive f || f.state == .unloading)

def onApplyCompleted (rt : Runtime) (id : FiberId) (ep : Option String) : Runtime × List Frame :=
  match rt.find id with
  | none => (rt, [])
  | some f =>
    if f.state ≠ .loading ∧ f.state ≠ .unloading then (rt, [])
    else
      let stale := !rt.providersStillActive f
      if rt.publishes f ep then rt.publish id f
      else
        let frames := if stale ∧ 0 ≤ f.reactivate then [Frame.evaluate id] else []
        ((rt.teardownOf id f).set id (parked (applyOutcome f ep)),
          .openDone id :: frames ++ [.transitionFinished])

/-! Withdrawal -/

/-- How many members of a consumer set are mounted and not inactive. -/
def countInstalled (rt : Runtime) (consumers : SortedSet FiberId) : Nat :=
  consumers.count fun c =>
    match rt.find c with
    | none => false
    | some g => g.state != .inactive

/-- `begin_unload`'s update of the retirement flag, on which `-1` is sticky. -/
def raiseReactivate (f : FiberRecord) (reactivate : Bool) : FiberRecord :=
  if 0 ≤ f.reactivate then { f with reactivate := max f.reactivate (if reactivate then 1 else 0) } else f

/-- A cancelled load: its apply is asked to stop. -/
def diverted (f : FiberRecord) : FiberRecord :=
  { f with state := .unloading, done := f.done.close, stopRequested := true }

/-- An active fiber whose unload began, with the consumers it waits for. -/
def withdrawing (f : FiberRecord) (remaining : Nat) : FiberRecord :=
  { f with
    state := .unloading, activation := f.activation.map (·.withState .unloading),
    done := f.done.close, remaining }

/-- `transition_started`. -/
def transitionStarted (rt : Runtime) : Runtime := { rt with inFlight := rt.inFlight + 1 }

def beginUnload (rt : Runtime) (id : FiberId) (reactivate : Bool) : Ran :=
  match rt.find id with
  | none => .call rt []
  | some f =>
    let f := raiseReactivate f reactivate
    match f.state with
    | .unloading | .inactive => .call (rt.set id f) []
    | .loading => .call (rt.set id (diverted f)) []
    | .active =>
      .call ((rt.set id (withdrawing f (rt.countInstalled f.consumers))).transitionStarted.markBindings
          id f .retiring)
        (f.consumers.toList.map (.beginUnload · true) ++ [.requestStop id])

def requestStop (rt : Runtime) (id : FiberId) : Ran :=
  match rt.find id with
  | none => .call rt []
  | some f => .call (rt.set id { f with stopRequested := true }) [.maybeFinishUnload id]

def finishUnload (rt : Runtime) (id : FiberId) : Ran :=
  match rt.find id with
  | none => .call rt []
  | some f =>
    .call ((rt.teardownOf id f).set id (parked f))
      [.releaseProviders id f.committed.toList, .openDone id, .notifyProvided id f.provide,
        .reactivate id, .transitionFinished]

def maybeFinishUnload (rt : Runtime) (id : FiberId) : Ran :=
  match rt.find id with
  | none => .call rt []
  | some f => if f.state = .unloading ∧ f.remaining = 0 then rt.finishUnload id else .call rt []

/-- What releasing one provider does to its record: the consumer leaves the set,
and a positive counter goes down. -/
def release (id : FiberId) (p : FiberRecord) : FiberRecord :=
  { p with consumers := p.consumers.erase id, remaining := p.remaining - 1 }

def releaseProviders (rt : Runtime) (id : FiberId) : List (ServiceId × FiberId) → Ran
  | [] => .call rt []
  | e :: rest =>
    match rt.find e.2 with
    | none => .call rt [.releaseProviders id rest]
    | some p => .call (rt.set e.2 (release id p)) [.maybeFinishUnload e.2, .releaseProviders id rest]

def openDone (rt : Runtime) (id : FiberId) : Ran :=
  match rt.find id with
  | none => .call rt []
  | some f =>
    if f.done.isOpen then .call rt []
    else .call (rt.set id { f with done := {} }) (f.done.waiters.map .resume)

def reactivateTail (rt : Runtime) (id : FiberId) : Ran :=
  match rt.find id with
  | none => .call rt []
  | some f => if 0 < f.reactivate then .call (rt.set id { f with reactivate := 0 }) [.evaluate id] else .call rt []

/-! Notification -/

def notifyProvided (rt : Runtime) (id : FiberId) : List ServiceId → Ran
  | [] => .call rt []
  | k :: ks =>
    match rt.find id with
    | none => .call rt []
    | some f => .call rt [.notify k f.scope (rt.contexts.realmFor f.scope k), .notifyProvided id ks]

def notify (rt : Runtime) (key : ServiceId) (scope : ScopeId) (realm : Realm) : Ran :=
  match rt.consumersOf.find? key with
  | none => .call rt []
  | some ids => .call rt [.notifyLoop key scope realm ids.toList []]

def dropStale (rt : Runtime) (key : ServiceId) (stale : List FiberId) : Runtime :=
  match rt.consumersOf.find? key with
  | none => rt
  | some ids => { rt with consumersOf := rt.consumersOf.insert key (stale.foldl SortedSet.erase ids) }

/-- Whether the scope and the realm of a consumer let it see a changed binding. -/
def sees (rt : Runtime) (c : FiberRecord) (key : ServiceId) (scope : ScopeId) (realm : Realm) : Bool :=
  rt.contexts.tree.onChain scope c.scope && rt.contexts.realmFor c.scope key == realm

def notifyLoop (rt : Runtime) (key : ServiceId) (scope : ScopeId) (realm : Realm) :
    List FiberId → List FiberId → Ran
  | [], stale => .call (rt.dropStale key stale) []
  | c :: ids, stale =>
    match rt.find c with
    | none => .call rt [.notifyLoop key scope realm ids (stale ++ [c])]
    | some g =>
      if rt.sees g key scope realm then .call rt [.evaluate c, .notifyLoop key scope realm ids stale]
      else .call rt [.notifyLoop key scope realm ids stale]

/-! Waiting -/

def awaitDone (rt : Runtime) (id : FiberId) (w : Waiter) : Ran :=
  match rt.find id with
  | none => .call rt [.resume w]
  | some f =>
    if f.done.isOpen then .call rt [.resume w]
    else .call (rt.set id { f with done := { f.done with waiters := f.done.waiters ++ [w] } }) []

def resume (rt : Runtime) : Waiter → Ran
  | .retire id => .call (rt.eraseFiber id) []
  | .retireChild id => .call (rt.eraseFiber id) []
  | .reconcile job => .call rt [.reconcileAwait job]

def retireChildTail (rt : Runtime) (id : FiberId) : Ran :=
  match rt.find id with
  | none => .call rt []
  | some f =>
    if f.state = .inactive then .call (rt.eraseFiber id) []
    else .call rt [.awaitDone id (.retireChild id)]

end Runtime
end Araya
