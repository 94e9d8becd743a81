import Araya.Runtime.Context

/-!
The records of the runtime: components and their declarations, one mounted
fiber with its current activation, and the runtime that owns them. Kept out
are the handle's shared cell (a mirror of the record's state and error) and the
process-wide stop-token registry; nothing modelled reads either.
-/

namespace Araya

/-! Components -/

abbrev PluginConfig := SortedMap String String

structure Dependency where
  key : ServiceId
  required : Bool := true
  deriving DecidableEq, Repr

/-- What `plugin_descriptor::create` does: it returns a plugin, it returns
null, or it throws. -/
inductive CreateOutcome where
  | plugin
  | null
  | throws
  deriving DecidableEq, Repr

/-- The static description of a component type. `create` may answer differently
at every activation, so it is told the activation's serial. -/
structure Descriptor where
  name : String
  inject : List Dependency := []
  provide : List ServiceId := []
  create : PluginConfig → Nat → CreateOutcome := fun _ _ => .plugin
  reconfigure : PluginConfig → Bool := fun _ => false

def Descriptor.injectKeys (d : Descriptor) : List ServiceId := d.inject.map (·.key)

structure ComponentSpec where
  descriptor : Descriptor
  config : PluginConfig := ∅
  parent : Option ScopeId := none
  name : String := ""
  isolate : SortedMap String Realm := ∅

structure DesiredComponent where
  path : String
  spec : ComponentSpec

/-! Fibers -/

inductive FiberState where
  | inactive
  | loading
  | active
  | unloading
  deriving DecidableEq, Repr

inductive FiberError where
  | unresolved (key : ServiceId)
  | factoryNull (name : String)
  | raised (what : String)
  | cancelled
  deriving DecidableEq, Repr

/-- A cleanup recorded by an activation. -/
inductive Effect where
  | unbind (key : ServiceId)
  | retireChild (id : FiberId)
  deriving DecidableEq, Repr

/-- One activation of a fiber. `serial` is the identity the constructor draws
from the fiber id counter. -/
structure Activation where
  serial : Nat
  scope : ScopeId
  state : FiberState := .loading
  committedView : SortedMap ServiceId Binding := ∅
  effects : List Effect := []

def Activation.withState (a : Activation) (s : FiberState) : Activation := { a with state := s }

/-- `activation::teardown` leaves the accumulator empty. -/
def Activation.tornDown (a : Activation) : Activation := { a with state := .inactive, effects := [] }

/-- A suspended `reconcile`: the gates it still waits for, and every fiber it
will erase once they are open. -/
structure ReconcileJob where
  desired : List DesiredComponent
  awaiting : List FiberId
  retired : List FiberId

/-- Who waits on a fiber's `done` gate. -/
inductive Waiter where
  | retire (id : FiberId)
  | retireChild (id : FiberId)
  | reconcile (job : ReconcileJob)

structure Gate where
  isOpen : Bool := true
  waiters : List Waiter := []

def Gate.close (g : Gate) : Gate := { g with isOpen := false }

structure FiberRecord where
  descriptor : Descriptor
  config : PluginConfig := ∅
  scope : ScopeId
  isolate : SortedMap String Realm := ∅
  name : String := ""
  parentFiber : FiberId := 0
  state : FiberState := .inactive
  activation : Option Activation := none
  hasInstance : Bool := false
  committed : SortedMap ServiceId FiberId := ∅
  consumers : SortedSet FiberId := ∅
  remaining : Nat := 0
  reactivate : Int := 0
  applyFailed : Bool := false
  error : Option FiberError := none
  stopRequested : Bool := false
  done : Gate := {}

namespace FiberRecord

abbrev inject (f : FiberRecord) : List Dependency := f.descriptor.inject
abbrev provide (f : FiberRecord) : List ServiceId := f.descriptor.provide

/-- The committed map names the fiber as the provider of some key. -/
def Names (f : FiberRecord) (p : FiberId) : Prop := ∃ k, f.committed.find? k = some p

end FiberRecord

/-! The runtime -/

/-- A handler posted to the control strand. -/
inductive Posted where
  | retireChild (id : FiberId)
  | mountChild (parent : FiberId) (serial : Nat) (spec : ComponentSpec)
  | addChildEffect (parent : FiberId) (serial : Nat) (child : FiberId)
  | mountEntry (path : String) (spec : ComponentSpec) (rest : List DesiredComponent)
  /-- The unloads of a destroyed runtime. -/
  | unloadAll

structure Runtime where
  fibers : SortedMap FiberId FiberRecord := ∅
  nextId : Nat := 1
  contexts : Contexts := {}
  consumersOf : SortedMap ServiceId (SortedSet FiberId) := ∅
  providersOf : SortedMap ServiceId (SortedSet FiberId) := ∅
  reconciled : SortedMap String FiberId := ∅
  entryCtxs : SortedMap String ScopeId := ∅
  entryIsolates : SortedMap String (SortedMap String Realm) := ∅
  inFlight : Nat := 0
  /-- The spawned `apply` coroutines that have not completed. -/
  applies : List FiberId := []
  posted : List Posted := []

namespace Runtime

def find (rt : Runtime) (id : FiberId) : Option FiberRecord := rt.fibers.find? id

def set (rt : Runtime) (id : FiberId) (f : FiberRecord) : Runtime :=
  { rt with fibers := rt.fibers.insert id f }

@[simp] theorem find_set (rt : Runtime) (id j : FiberId) (f : FiberRecord) :
    (rt.set id f).find j = if j = id then some f else rt.find j :=
  SortedMap.find?_insert _ _ _ _

theorem find_set_self (rt : Runtime) (id : FiberId) (f : FiberRecord) : (rt.set id f).find id = some f := by
  rw [find_set, if_pos rfl]

@[simp] theorem set_contexts (rt : Runtime) (id : FiberId) (f : FiberRecord) :
    (rt.set id f).contexts = rt.contexts := rfl

def index (m : SortedMap ServiceId (SortedSet FiberId)) (id : FiberId) (keys : List ServiceId) :
    SortedMap ServiceId (SortedSet FiberId) :=
  keys.foldl (fun m k => m.insert k (((m.find? k).getD ∅).insert id)) m

def unindexMap (m : SortedMap ServiceId (SortedSet FiberId)) (id : FiberId) :
    SortedMap ServiceId (SortedSet FiberId) :=
  m.filterMap fun ids => if (ids.erase id).card = 0 then none else some (ids.erase id)

def unindex (rt : Runtime) (id : FiberId) : Runtime :=
  { rt with consumersOf := unindexMap rt.consumersOf id, providersOf := unindexMap rt.providersOf id }

/-- Drops a fiber's record and its index entries. -/
def eraseFiber (rt : Runtime) (id : FiberId) : Runtime :=
  { rt with fibers := rt.fibers.erase id }.unindex id

@[simp] theorem find_eraseFiber (rt : Runtime) (id j : FiberId) :
    (rt.eraseFiber id).find j = if j = id then none else rt.find j :=
  SortedMap.find?_erase _ _ _

end Runtime
end Araya
