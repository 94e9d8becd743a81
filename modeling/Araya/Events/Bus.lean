import Araya.Util.Machine
import Araya.Runtime.Context

/-!
The event bus: typed entries whose listener vectors are shared with the
dispatches in flight. A dispatch holds a vector by reference and calls the slots
through it, one at a time; what listeners do in between are further operations
of the bus. A moved-from callable is empty, and calling it raises
`bad_function_call`. Messages are left out: no delivery decision reads one.
-/

namespace Araya

inductive DispatchMode where
  | emit
  | parallel
  | serial
  | waterfall
  | bail
  deriving DecidableEq, Repr

structure ListenerOptions where
  prepend : Bool := false
  once : Bool := false
  global : Bool := false
  scope : Option ScopeId := none
  deriving DecidableEq, Repr

abbrev Token := Nat

/-- The identity of a callable object. -/
abbrev Callable := Nat

/-- A slot of a listener vector. A raw slot is one with the default options. -/
structure ListenerSlot where
  owner : Nat
  token : Token
  fn : Option Callable
  opts : ListenerOptions := {}
  deriving DecidableEq, Repr

abbrev Call := Token × Option Callable

def ListenerSlot.call (s : ListenerSlot) : Call := (s.token, s.fn)

/-! Shared listener vectors -/

/-- The vectors an entry made, kept while a snapshot may hold them, and the one
it holds now. -/
structure ListenerStore where
  vectors : List (List ListenerSlot) := [[]]
  current : Nat := 0
  bound : current < vectors.length := by decide

namespace ListenerStore

def get (s : ListenerStore) (r : Nat) : List ListenerSlot := s.vectors[r]?.getD []

def now (s : ListenerStore) : List ListenerSlot := s.get s.current

/-- Makes a vector without letting go of the current one. -/
def keep (s : ListenerStore) (v : List ListenerSlot) : ListenerStore :=
  ⟨s.vectors ++ [v], s.current, Nat.lt_of_lt_of_le s.bound (by simp)⟩

/-- `listeners_ = std::move(updated)`. -/
def publish (s : ListenerStore) (v : List ListenerSlot) : ListenerStore :=
  ⟨s.vectors ++ [v], s.vectors.length, by simp⟩

/-- What `remove` leaves of a slot in the vector it moves the others out of. -/
def movedFrom (token : Token) (s : ListenerSlot) : ListenerSlot :=
  if s.token = token then s else { s with fn := none }

def kept (token : Token) (v : List ListenerSlot) : List ListenerSlot :=
  v.filter fun s => s.token != token

/-- `remove`: every other slot is moved into a fresh vector. -/
def remove (s : ListenerStore) (token : Token) : ListenerStore :=
  publish
    ⟨s.vectors.set s.current (s.now.map (movedFrom token)), s.current, by simpa using s.bound⟩
    (kept token s.now)

section
variable {s : ListenerStore} {v : List ListenerSlot} {r : Nat} {token : Token}

theorem get_append (h : r < s.vectors.length) (c : Nat) (hc : c < (s.vectors ++ [v]).length) :
    get ⟨s.vectors ++ [v], c, hc⟩ r = s.get r := by
  simp only [get, List.getElem?_append_left h]

theorem get_keep (h : r < s.vectors.length) : (s.keep v).get r = s.get r := get_append h _ _

theorem get_publish (h : r < s.vectors.length) : (s.publish v).get r = s.get r := get_append h _ _

theorem get_keep_new : (s.keep v).get s.vectors.length = v := by
  simp [keep, get]

@[simp] theorem now_keep : (s.keep v).now = s.now := get_keep s.bound

@[simp] theorem now_publish : (s.publish v).now = v := by
  simp [now, publish, get]

@[simp] theorem now_remove : (s.remove token).now = kept token s.now := now_publish

@[simp] theorem length_keep : (s.keep v).vectors.length = s.vectors.length + 1 := by
  simp [keep]

@[simp] theorem length_publish : (s.publish v).vectors.length = s.vectors.length + 1 := by
  simp [publish]

@[simp] theorem length_remove : (s.remove token).vectors.length = s.vectors.length + 1 := by
  simp [remove, publish]

/-- A removal empties the other slots of the current vector, and touches no other. -/
theorem get_remove (h : r < s.vectors.length) : (s.remove token).get r =
    if r = s.current then (s.get r).map (movedFrom token) else s.get r := by
  have hr : r < (s.vectors.set s.current (s.now.map (movedFrom token))).length := by simpa using h
  refine (get_publish hr).trans ?_
  by_cases hc : r = s.current
  · subst hc
    simp [get, now, s.bound]
  · simp [get, hc, List.getElem?_set_ne (Ne.symm hc)]

end
end ListenerStore

/-! Entries and dispatches -/

structure EventEntry where
  mode : DispatchMode
  listeners : ListenerStore := {}
  raw : ListenerStore := {}

inductive DispatchPhase where
  | typed
  | raw
  /-- Every listener was called. -/
  | finished
  /-- A listener short-circuited the chain, or a call raised. -/
  | stopped
  deriving DecidableEq, Repr

/-- A dispatch in flight. `due` records the calls its listeners amounted to when
it started; the code keeps no such list. -/
structure Dispatch where
  event : ServiceId
  mode : DispatchMode
  scope : Option ScopeId
  listeners : Nat
  raw : Nat
  phase : DispatchPhase := .typed
  next : Nat := 0
  invoked : List Call := []
  due : List Call

structure EventBus where
  entries : SortedMap ServiceId EventEntry := ∅
  nextToken : Token := 1
  dispatches : List Dispatch := []

namespace EventEntry

/-- `deliver`, over the realm tags of the contexts. -/
def deliver (c : Contexts) (id : ServiceId) (scope : Option ScopeId) (s : ListenerSlot) : Bool :=
  match scope, s.opts.scope with
  | some a, some l => s.opts.global || c.realmFor a id == c.realmFor l id
  | _, _ => true

def add (e : EventEntry) (slot : ListenerSlot) (atFront : Bool) : EventEntry :=
  let updated := if atFront then slot :: e.listeners.now else e.listeners.now ++ [slot]
  { e with listeners := e.listeners.publish updated }

def addRaw (e : EventEntry) (slot : ListenerSlot) : EventEntry :=
  { e with raw := e.raw.publish (e.raw.now ++ [slot]) }

def remove (e : EventEntry) (token : Token) : EventEntry :=
  { e with listeners := e.listeners.remove token, raw := e.raw.remove token }

/-- Waterfall and bail dispatches have no raw listeners. -/
def reachesRaw : DispatchMode → Bool
  | .emit | .parallel | .serial => true
  | .waterfall | .bail => false

/-- The calls a dispatch that starts now owes. -/
def delivering (c : Contexts) (e : EventEntry) (id : ServiceId) (scope : Option ScopeId) : List Call :=
  ((e.listeners.now.filter (deliver c id scope)) ++
    if reachesRaw e.mode then e.raw.now else []).map ListenerSlot.call

end EventEntry

namespace EventBus
open EventEntry

/-! Registration -/

def setEntry (b : EventBus) (id : ServiceId) (e : EventEntry) : EventBus :=
  { b with entries := b.entries.insert id e }

/-- The entry with a listener under the next token. -/
def register (b : EventBus) (id : ServiceId) (e : EventEntry) : EventBus :=
  { b with entries := b.entries.insert id e, nextToken := b.nextToken + 1 }

/-- `add_listener`; a conflicting mode throws. -/
def addListener (b : EventBus) (id : ServiceId) (mode : DispatchMode) (fn : Callable) (owner : Nat)
    (opts : ListenerOptions) : Option EventBus :=
  let e := (b.entries.find? id).getD { mode }
  if e.mode = mode then
    some (b.register id (e.add ⟨owner, b.nextToken, some fn, opts⟩ opts.prepend))
  else none

def addRawListener (b : EventBus) (id : ServiceId) (mode : DispatchMode) (fn : Callable)
    (owner : Nat) : Option EventBus :=
  if mode = .bail then none
  else
    match b.entries.find? id with
    | none => none
    | some e =>
      if e.mode = mode then
        some (b.register id (e.addRaw ⟨owner, b.nextToken, some fn, {}⟩))
      else none

def removeListener (b : EventBus) (id : ServiceId) (token : Token) : EventBus :=
  match b.entries.find? id with
  | none => b
  | some e => b.setEntry id (e.remove token)

/-! Dispatch -/

def start (b : EventBus) (d : Dispatch) : EventBus :=
  { b with dispatches := b.dispatches ++ [d] }

/-- The five entry points: a dispatch takes its snapshot. A scoped waterfall
composes its chain from copies of the delivering slots. -/
def dispatch (c : Contexts) (b : EventBus) (id : ServiceId) (mode : DispatchMode)
    (scope : Option ScopeId) : Option EventBus :=
  match b.entries.find? id with
  | none => some b
  | some e =>
    if e.mode = mode then
      let started : Dispatch :=
        { event := id, mode, scope, listeners := e.listeners.current, raw := e.raw.current,
          due := e.delivering c id scope }
      if mode = .waterfall ∧ scope.isSome then
        let filtered := e.listeners.now.filter (deliver c id scope)
        some ((b.setEntry id { e with listeners := e.listeners.keep filtered }).start
          { started with listeners := e.listeners.vectors.length })
      else some (b.start started)
    else none

/-- The dispatch after it called a slot. Calling an emptied one raises, which
only an emit dispatch survives. -/
def called (d : Dispatch) (s : ListenerSlot) : Dispatch :=
  { d with
    next := d.next + 1
    invoked := d.invoked ++ [s.call]
    phase := if s.fn.isNone ∧ d.mode ≠ .emit then .stopped else d.phase }

/-- After the typed listeners: serial dispatches read the raw vector only now. -/
def typedDone (e : EventEntry) (d : Dispatch) : Dispatch :=
  match d.mode with
  | .emit | .parallel => { d with phase := .raw, next := 0 }
  | .serial => { d with phase := .raw, next := 0, raw := e.raw.current }
  | .waterfall | .bail => { d with phase := .finished }

/-- One turn of a dispatch's loop: the dispatch it leaves, and the token that a
`once` listener removes before it runs. -/
def advance (c : Contexts) (e : EventEntry) (d : Dispatch) : Option (Dispatch × Option Token) :=
  match d.phase with
  | .typed =>
    match (e.listeners.get d.listeners)[d.next]? with
    | some s =>
      if deliver c d.event d.scope s then
        some (called d s, if s.fn.isSome ∧ s.opts.once then some s.token else none)
      else some ({ d with next := d.next + 1 }, none)
    | none => some (typedDone e d, none)
  | .raw =>
    match (e.raw.get d.raw)[d.next]? with
    | some s => some (called d s, none)
    | none => some ({ d with phase := .finished }, none)
  | .finished | .stopped => none

def setDispatch (b : EventBus) (n : Nat) (d : Dispatch) : EventBus :=
  { b with dispatches := b.dispatches.set n d }

/-- The dispatch takes a turn, up to where a `once` listener removes itself. -/
def visiting (c : Contexts) (b : EventBus) (n : Nat) : Option (EventBus × Option (ServiceId × Token)) :=
  match b.dispatches[n]? with
  | none => none
  | some d =>
    match b.entries.find? d.event with
    | none => none
    | some e => (advance c e d).map fun r => (b.setDispatch n r.1, r.2.map (d.event, ·))

def visit (c : Contexts) (b : EventBus) (n : Nat) : Option EventBus :=
  (b.visiting c n).map fun r =>
    match r.2 with
    | none => r.1
    | some (id, token) => r.1.removeListener id token

/-- A listener ends the chain: it raises, bails, or drops its continuation. -/
def stop (b : EventBus) (n : Nat) : Option EventBus :=
  match b.dispatches[n]? with
  | none => none
  | some d =>
    if (d.mode = .serial ∨ d.mode = .waterfall ∨ d.mode = .bail) ∧
        (d.phase = .typed ∨ d.phase = .raw) ∧ d.invoked ≠ [] then
      some (b.setDispatch n { d with phase := .stopped })
    else none

/-- A waterfall listener calls its continuation once more. -/
def callAgain (b : EventBus) (n i : Nat) : Option EventBus :=
  match b.dispatches[n]? with
  | none => none
  | some d =>
    match b.entries.find? d.event with
    | none => none
    | some e =>
      if d.mode = .waterfall ∧ 0 < i ∧ i < d.next then
        ((e.listeners.get d.listeners)[i]?).map fun s =>
          b.setDispatch n { d with invoked := d.invoked ++ [s.call] }
      else none

end EventBus

inductive BusOp where
  | addListener (id : ServiceId) (mode : DispatchMode) (fn : Callable) (owner : Nat)
      (opts : ListenerOptions)
  | addRawListener (id : ServiceId) (mode : DispatchMode) (fn : Callable) (owner : Nat)
  | removeListener (id : ServiceId) (token : Token)
  | dispatch (id : ServiceId) (mode : DispatchMode) (scope : Option ScopeId)
  | visit (n : Nat)
  | stop (n : Nat)
  | callAgain (n i : Nat)

namespace EventBus

/-- What an operation does; `none` where it throws or is not possible. -/
def run (c : Contexts) (b : EventBus) : BusOp → Option EventBus
  | .addListener id mode fn owner opts => b.addListener id mode fn owner opts
  | .addRawListener id mode fn owner => b.addRawListener id mode fn owner
  | .removeListener id token => some (b.removeListener id token)
  | .dispatch id mode scope => b.dispatch c id mode scope
  | .visit n => b.visit c n
  | .stop n => b.stop n
  | .callAgain n i => b.callAgain n i

end EventBus

/-- The runs of one bus over contexts whose realm tags stay as they are. -/
def busSystem (c : Contexts) : System EventBus BusOp where
  start b := b = {}
  step b o b' := b.run c o = some b'

end Araya
