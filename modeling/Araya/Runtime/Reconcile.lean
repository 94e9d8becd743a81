import Araya.Runtime.Lifecycle

/-!
The reconcile pass: the diff of the reconciled entries against the desired
list, the realm and scope moves it makes in place, the wait for the retired
fibers, and the mounts. Every `co_await` is a point where the pass returns to
the strand: a waiter on a gate, or a posted handler.
-/

namespace Araya
namespace Runtime

/-- The root context of a runtime is the first one. -/
def rootScope : ScopeId := 0

/-- Applies realm tags in place. -/
def isolateAll (c : Contexts) (s : ScopeId) (tags : List (String × Realm)) : Contexts :=
  tags.foldl (fun c t => c.isolate s ⟨t.1, 1⟩ t.2) c

/-- Drops the tags whose name is no longer present. -/
def unisolateDropped (c : Contexts) (s : ScopeId) (isolate : SortedMap String Realm)
    (applied : List (String × Realm)) : Contexts :=
  applied.foldl (fun c t => if isolate.contains t.1 then c else c.unisolate s ⟨t.1, 1⟩) c

/-- The entry's own context, kept while its parent is the base scope. -/
def entryCtx (rt : Runtime) (path : String) (base : ScopeId) : Runtime × ScopeId :=
  let reusable := (rt.entryCtxs.find? path).filter fun s => rt.contexts.tree.parent s == some base
  match reusable with
  | some s => (rt, s)
  | none =>
    let s := rt.contexts.tree.nodes.length
    ({ rt with
        contexts := { rt.contexts with tree := rt.contexts.tree.add base true }
        entryCtxs := rt.entryCtxs.insert path s }, s)

def entryScopeFor (rt : Runtime) (path : String) (spec : ComponentSpec) : Runtime × ScopeId :=
  let base := spec.parent.getD rootScope
  if spec.isolate.size = 0 then
    ({ rt with entryCtxs := rt.entryCtxs.erase path, entryIsolates := rt.entryIsolates.erase path }, base)
  else
    let (rt, s) := rt.entryCtx path base
    let applied := (rt.entryIsolates.find? path).getD ∅
    let tagged := isolateAll rt.contexts s spec.isolate.toList
    ({ rt with
        contexts := unisolateDropped tagged s spec.isolate applied.toList
        entryIsolates := rt.entryIsolates.insert path spec.isolate }, s)

def forgetPath (rt : Runtime) (path : String) : Runtime :=
  { rt with reconciled := rt.reconciled.erase path, entryCtxs := rt.entryCtxs.erase path }

/-- The last desired entry of a path wins, as in `desired_by_path`. -/
def desiredAt (desired : List DesiredComponent) (path : String) : Option DesiredComponent :=
  desired.reverse.find? fun d => d.path == path

/-- Marks an entry retired, unloads it and drops its path. -/
def retireEntry (rt : Runtime) (desired : List DesiredComponent) (path : String) (id : FiberId)
    (f : FiberRecord) (entries : List (String × FiberId)) (toAwait : List FiberId) : Ran :=
  .call (rt.set id { f with reactivate := -1 })
    [.beginUnload id false, .forgetPath path, .reconcileDiff desired entries (toAwait ++ [id])]

/-- Moves or retags an entry whose component is retained. -/
def retainEntry (rt : Runtime) (desired : List DesiredComponent) (path : String) (id : FiberId)
    (f : FiberRecord) (spec : ComponentSpec) (entries : List (String × FiberId))
    (toAwait : List FiberId) : Ran :=
  let oldRealms := f.provide.map fun k => (k, rt.contexts.realmFor f.scope k)
  let (rt, scope) := rt.entryScopeFor path spec
  if f.scope ≠ scope ∧ f.state = .loading then rt.retireEntry desired path id f entries toAwait
  else if f.scope ≠ scope ∨ f.isolate ≠ spec.isolate then
    if f.state = .active ∨ f.state = .loading then
      .call rt [.reassign id spec scope oldRealms, .reconcileDiff desired entries toAwait]
    else
      .call (rt.set id { f with scope, isolate := spec.isolate }) [.reconcileDiff desired entries toAwait]
  else .call rt [.reconcileDiff desired entries toAwait]

/-- One entry of the diff loop over `reconciled_`. -/
def reconcileDiff (rt : Runtime) (desired : List DesiredComponent) :
    List (String × FiberId) → List FiberId → Ran
  | [], toAwait => .call rt [.reconcileAwait ⟨desired, toAwait, toAwait⟩]
  | (path, id) :: entries, toAwait =>
    match rt.find id with
    | none => .call (rt.forgetPath path) [.reconcileDiff desired entries toAwait]
    | some f =>
      match desiredAt desired path with
      | none => rt.retireEntry desired path id f entries toAwait
      | some node =>
        if f.descriptor.name ≠ node.spec.descriptor.name then
          rt.retireEntry desired path id f entries toAwait
        else if f.config ≠ node.spec.config then
          if f.hasInstance ∧ f.state = .active ∧ f.descriptor.reconfigure node.spec.config then
            let g := { f with config := node.spec.config }
            (rt.set id g).retainEntry desired path id g node.spec entries toAwait
          else rt.retireEntry desired path id f entries toAwait
        else rt.retainEntry desired path id f node.spec entries toAwait

/-- The rebinding loop of `reassign` over the fiber's own bindings. -/
def moveBindings (c : Contexts) (id : FiberId) (oldScope scope : ScopeId) :
    List (ServiceId × Realm) → Contexts × Bool
  | [] => (c, false)
  | (k, oldRealm) :: rest =>
    match c.lookupRealm oldScope k oldRealm with
    | none => moveBindings c id oldScope scope rest
    | some b =>
      let realm := c.realmFor scope k
      if b.provider ≠ id then moveBindings c id oldScope scope rest
      else if oldScope = scope ∧ oldRealm = realm then moveBindings c id oldScope scope rest
      else if (c.lookupRealm scope k realm).isSome then moveBindings c id oldScope scope rest
      else
        let moved := (c.bindRealm scope k realm b).unbindRealm oldScope k oldRealm
        ((moveBindings moved id oldScope scope rest).1, true)

def reassign (rt : Runtime) (id : FiberId) (next : ComponentSpec) (scope : ScopeId)
    (oldRealms : List (ServiceId × Realm)) : Ran :=
  match rt.find id with
  | none => .call rt []
  | some f =>
    let moved := moveBindings rt.contexts id f.scope scope oldRealms
    let notifies :=
      if moved.2 ∨ f.scope ≠ scope then [Frame.reassignNotify f.scope scope oldRealms] else []
    .call { rt with contexts := moved.1 } (notifies ++ [.reassignTail id next scope])

def reassignNotify (rt : Runtime) (oldScope scope : ScopeId) : List (ServiceId × Realm) → Ran
  | [] => .call rt []
  | (k, oldRealm) :: rest =>
    .call rt [.notify k oldScope oldRealm, .notify k scope (rt.contexts.realmFor scope k),
      .reassignNotify oldScope scope rest]

def reassignTail (rt : Runtime) (id : FiberId) (next : ComponentSpec) (scope : ScopeId) : Ran :=
  match rt.find id with
  | none => .call rt []
  | some f =>
    .call (rt.set id { f with scope, isolate := next.isolate, name := next.name })
      (if f.state = .active then [.evaluate id] else [])

/-- Waits for the gates in order, then erases every fiber of the batch. -/
def reconcileAwait (rt : Runtime) (job : ReconcileJob) : Ran :=
  match job.awaiting with
  | [] => .call (job.retired.foldl eraseFiber rt) [.reconcileMount job.desired]
  | id :: rest => .call rt [.awaitDone id (.reconcile { job with awaiting := rest })]

/-- The mount loop up to its next `co_await mount`. -/
def reconcileMount (rt : Runtime) : List DesiredComponent → Ran
  | [] => .call rt []
  | node :: rest =>
    if rt.reconciled.contains node.path then rt.reconcileMount rest
    else
      let (rt, scope) := rt.entryScopeFor node.path node.spec
      let spec := { node.spec with parent := some scope }
      .call { rt with posted := rt.posted ++ [.mountEntry node.path spec rest] } []

end Runtime
end Araya
