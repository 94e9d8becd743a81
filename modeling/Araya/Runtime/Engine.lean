import Araya.Runtime.Reconcile

/-!
The engine: every frame's execution, and what the outside of the runtime may do
to it. An operation starts a handler on the control strand, so it needs an empty
stack; publishing a service and mounting a child are calls a plugin makes from
its own code, and the synchronous prefix of an `apply` runs inside the step that
started it.
-/

namespace Araya

inductive Op where
  | mount (spec : ComponentSpec)
  | mountChild (parent : FiberId) (spec : ComponentSpec)
  | retire (id : FiberId)
  | reconcile (desired : List DesiredComponent)
  /-- The apply of a fiber returns, or raises. -/
  | complete (id : FiberId) (ep : Option String)
  | provide (id : FiberId) (key : ServiceId) (value : Value) (available : Bool)
  /-- `set_available` on a binding the fiber provides. -/
  | promote (id : FiberId) (key : ServiceId)
  | cancel (id : FiberId)
  /-- The strand runs one of its posted handlers. -/
  | deliver (n : Nat)

namespace Runtime

def exec (rt : Runtime) : Frame → Ran
  | .evaluate id => rt.evaluate id
  | .beginUnload id reactivate => rt.beginUnload id reactivate
  | .requestStop id => rt.requestStop id
  | .maybeFinishUnload id => rt.maybeFinishUnload id
  | .releaseProviders id committed => rt.releaseProviders id committed
  | .openDone id => rt.openDone id
  | .notifyProvided id keys => rt.notifyProvided id keys
  | .notify key scope realm => rt.notify key scope realm
  | .notifyLoop key scope realm ids stale => rt.notifyLoop key scope realm ids stale
  | .reactivate id => rt.reactivateTail id
  | .transitionFinished => .call { rt with inFlight := rt.inFlight - 1 } []
  | .awaitDone id w => rt.awaitDone id w
  | .resume w => rt.resume w
  | .retireChildTail id => rt.retireChildTail id
  | .reconcileDiff desired entries toAwait => rt.reconcileDiff desired entries toAwait
  | .forgetPath path => .call (rt.forgetPath path) []
  | .reassign id next scope oldRealms => rt.reassign id next scope oldRealms
  | .reassignNotify oldScope scope keys => rt.reassignNotify oldScope scope keys
  | .reassignTail id next scope => rt.reassignTail id next scope
  | .reconcileAwait job => rt.reconcileAwait job
  | .recordPath path id => .call { rt with reconciled := rt.reconciled.insert path id } []
  | .childMounted parent serial child =>
    .call { rt with posted := rt.posted ++ [.addChildEffect parent serial child] } []
  | .reconcileMount desired => rt.reconcileMount desired

/-! Mounting -/

/-- The record `mount_locked` builds for a specification. -/
def mountedRecord (spec : ComponentSpec) (parentFiber : FiberId) : FiberRecord where
  descriptor := spec.descriptor
  config := spec.config
  scope := spec.parent.getD rootScope
  isolate := spec.isolate
  name := spec.name
  parentFiber

/-- Registers a fresh fiber; its identity is the counter's next value. -/
def mountLocked (rt : Runtime) (spec : ComponentSpec) (parentFiber : FiberId) : Runtime :=
  let id := rt.nextId
  let rt := rt.set id (mountedRecord spec parentFiber)
  { rt with
    nextId := id + 1
    consumersOf := index rt.consumersOf id spec.descriptor.injectKeys
    providersOf := index rt.providersOf id spec.descriptor.provide }

/-- `plugin_context::mount`: the child's context derives from the activation's,
which may be torn down already. -/
def mountChild (rt : Runtime) (parent : FiberId) (spec : ComponentSpec) : Option Runtime :=
  match (rt.find parent).bind (·.activation) with
  | none => none
  | some act =>
    let child := rt.contexts.tree.nodes.length
    some { rt with
      contexts := { rt.contexts with tree := rt.contexts.tree.add act.scope false }
      posted := rt.posted ++ [.mountChild parent act.serial { spec with parent := some child }] }

/-- The child's retirement joins the effects of the activation that mounted it. -/
def addChildEffect (rt : Runtime) (parent : FiberId) (serial : Nat) (child : FiberId) : Runtime :=
  match rt.find parent with
  | none => rt
  | some f =>
    match f.activation with
    | none => rt
    | some act =>
      if act.serial = serial then
        rt.set parent { f with activation := some { act with effects := act.effects ++ [.retireChild child] } }
      else rt

/-! Operations -/

def retire (rt : Runtime) (id : FiberId) : Runtime × List Frame :=
  match rt.find id with
  | none => (rt, [])
  | some f =>
    if f.state = .inactive then (rt.eraseFiber id, [])
    else (rt.set id { f with reactivate := -1 }, [.beginUnload id false, .awaitDone id (.retire id)])

/-- `provide_raw` under a declared key, from the code of a live activation. -/
def provide (rt : Runtime) (id : FiberId) (key : ServiceId) (value : Value) (available : Bool) :
    Option Runtime :=
  match rt.find id with
  | none => none
  | some f =>
    match f.activation with
    | none => none
    | some act =>
      if act.state = .inactive ∨ key ∉ f.provide then none
      else
        let state := if act.state = .active then ProviderState.active else .loading
        let bound := { rt with contexts := rt.contexts.bind act.scope key ⟨some value, id, state, available⟩ }
        some (bound.set id { f with activation := some { act with effects := act.effects ++ [.unbind key] } })

/-- `signal_availability` as `set_available` calls it: only a promotion passes. -/
def promote (rt : Runtime) (id : FiberId) (key : ServiceId) : Option (Runtime × List Frame) :=
  match (rt.find id).bind (·.activation) with
  | none => none
  | some act =>
    match rt.contexts.lookup act.scope key with
    | none => none
    | some b =>
      if b.value.isNone ∨ b.provider ≠ id then none
      else if b.available then some (rt, [])
      else
        some ({ rt with contexts := rt.contexts.modifyLookup act.scope key fun b => { b with available := true } },
          [.notify key act.scope (rt.contexts.realmFor act.scope key)])

def cancel (rt : Runtime) (id : FiberId) : Runtime :=
  match rt.find id with
  | none => rt
  | some f => rt.set id { f with stopRequested := true }

/-- Begins the unload of every mounted fiber. -/
def unloadAll (rt : Runtime) : List Frame := rt.fibers.toList.map fun e => .beginUnload e.1 false

def runPosted (rt : Runtime) : Posted → Runtime × List Frame
  | .retireChild id =>
    match rt.find id with
    | none => (rt, [])
    | some f =>
      (rt.set id { f with reactivate := -1 }, [.beginUnload id false, .retireChildTail id])
  | .mountChild parent serial spec =>
    (rt.mountLocked spec parent, [.evaluate rt.nextId, .childMounted parent serial rt.nextId])
  | .addChildEffect parent serial child => (rt.addChildEffect parent serial child, [])
  | .mountEntry path spec rest =>
    (rt.mountLocked spec 0,
      [.evaluate rt.nextId, .recordPath path rt.nextId, .reconcileMount rest])
  | .unloadAll => (rt, rt.unloadAll)

def deliver (rt : Runtime) (n : Nat) : Option (Runtime × List Frame) :=
  match rt.posted[n]? with
  | none => none
  | some h => some ({ rt with posted := rt.posted.eraseIdx n }.runPosted h)

def op : Op → Runtime → Option (Runtime × List Frame)
  | .mount spec, rt => some (rt.mountLocked spec 0, [.evaluate rt.nextId])
  | .mountChild parent spec, rt => (rt.mountChild parent spec).map (·, [])
  | .retire id, rt => some (rt.retire id)
  | .reconcile desired, rt => some (rt, [.reconcileDiff desired rt.reconciled.toList []])
  | .complete id ep, rt =>
    if id ∈ rt.applies then
      some ({ rt with applies := rt.applies.erase id }.onApplyCompleted id ep)
    else none
  | .provide id key value available, rt => (rt.provide id key value available).map (·, [])
  | .promote id key, rt => rt.promote id key
  | .cancel id, rt => some (rt.cancel id, [])
  | .deliver n, rt => rt.deliver n

/-- A runtime no component was mounted in yet. -/
structure Fresh (rt : Runtime) : Prop where
  fibers : rt.fibers = ∅
  consumersOf : rt.consumersOf = ∅
  providersOf : rt.providersOf = ∅
  bindings : rt.contexts.bindings = ∅
  reconciled : rt.reconciled = ∅
  inFlight : rt.inFlight = 0
  applies : rt.applies = []
  posted : rt.posted = []

end Runtime

/-- Publishing, mounting a child and `cancel` may also happen inside a running
cascade: the first two from the synchronous prefix of an apply, the last from
any thread. -/
def Op.nested : Op → Bool
  | .provide .. | .mountChild .. | .cancel .. => true
  | _ => false

def engine : StackMachine Runtime Frame Op where
  start := Runtime.Fresh
  exec f rt := rt.exec f
  op := Runtime.op
  nested := Op.nested

abbrev EngineConfig := Config Runtime Frame

end Araya
