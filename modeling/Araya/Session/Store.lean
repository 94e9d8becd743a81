import Araya.Util.Machine
import Araya.Session.Validate

/-!
The session store. Session objects outlive their entry in the store, so they are
kept by index and the store maps identities to indices. An append publishes its
event before it enters the log: what listeners do meanwhile happens while the
event waits on the stack. The typed projections are erased to one state type.
Ownership of a session by a fiber is the disposal that the fiber's unload runs.
-/

namespace Araya.Sessions

structure Session where
  header : Header
  inheritedEventCount : Nat := 0
  firstLiveSeq : Nat := 0
  nextSeq : Nat := 0
  log : List Event := []
  surface : Surface := {}

def Session.id (s : Session) : SessionId := s.header.id

structure CreateOptions where
  seed : List Event := []
  inheritedEventCount : Nat := 0
  cwd : Option String := none
  parentSession : Option SessionId := none
  createdAt : Option Int := none
  isSeeded : Bool := false
  origin : Origin := .none
  delegationDepth : Option UInt32 := none
  agentPreset : Option String := none

/-- A typed projection. `apply` mutates the state it is given, and may throw
after it did. -/
structure EventProjection (σ : Type) where
  types : List String := []
  init : Header → Except String σ
  apply : σ → Event → σ × Option String

def EventProjection.accepts {σ : Type} (p : EventProjection σ) (type : String) : Bool :=
  p.types.isEmpty || p.types.contains type

structure ProjectionCell (σ : Type) where
  spec : EventProjection σ
  cells : SortedMap SessionId σ := ∅

structure SessionStore (σ : Type) where
  /-- Sessions still reach the store through their weak pointer. -/
  alive : Bool := true
  bus : Bool := true
  sessions : List Session := []
  store : SortedMap SessionId Nat := ∅
  projections : List MessageProjection := []
  projectionCells : SortedMap Nat (ProjectionCell σ) := ∅
  projectionCounter : Nat := 0

/-- What the store dispatches on the bus. -/
inductive Notice where
  | created (header : Header)
  | appended (id : SessionId) (ev : Event)
  | disposed (id : SessionId)
  | flush (id : SessionId)

/-- The end of an append: its event enters the log. -/
inductive SessionFrame where
  | commit (session : Nat) (ev : Event)

/-- How a call of the store ends. -/
structure Done (σ : Type) where
  store : SessionStore σ
  notices : List Notice := []
  frames : List SessionFrame := []
  threw : Option String := none

section
variable {σ : Type}

namespace ProjectionCell

def drive (id : SessionId) (ev : Event) (c : ProjectionCell σ) : ProjectionCell σ × Option String :=
  if c.spec.accepts ev.type then
    match c.cells.find? id with
    | none => (c, none)
    | some x =>
      ({ c with cells := c.cells.insert id (c.spec.apply x ev).1 }, (c.spec.apply x ev).2)
  else (c, none)

def drop (id : SessionId) (c : ProjectionCell σ) : ProjectionCell σ :=
  { c with cells := c.cells.erase id }

/-- Replays a log through a cell, up to the event it throws at. -/
def replay (id : SessionId) : List Event → ProjectionCell σ → ProjectionCell σ × Option String
  | [], c => (c, none)
  | ev :: evs, c =>
    match c.drive id ev with
    | (c, some what) => (c, some what)
    | (c, none) => replay id evs c

/-- `seed`: a cell the session already has is kept. -/
def seed (header : Header) (log : List Event) (c : ProjectionCell σ) :
    ProjectionCell σ × Option String :=
  match c.spec.init header with
  | .error what => (c, some what)
  | .ok x =>
    let c := if c.cells.contains header.id then c else { c with cells := c.cells.insert header.id x }
    c.replay header.id log

end ProjectionCell

namespace SessionStore

def hasProjection (st : SessionStore σ) (type : String) : Bool :=
  st.projections.any fun p => p.eventType == type

/-- The mark of vocabulary that nothing here interprets. -/
def ignorable (st : SessionStore σ) (type : String) : Bool :=
  !isBuiltinSurfaceType type && !st.hasProjection type

def set (st : SessionStore σ) (h : Nat) (s : Session) : SessionStore σ :=
  { st with sessions := st.sessions.set h s }

/-- Visits the cells in order, up to the one that throws. -/
def eachCell (visit : ProjectionCell σ → ProjectionCell σ × Option String) :
    List (Nat × ProjectionCell σ) → SortedMap Nat (ProjectionCell σ) →
      SortedMap Nat (ProjectionCell σ) × Option String
  | [], m => (m, none)
  | (pid, c) :: rest, m =>
    match visit c with
    | (c, some what) => (m.insert pid c, some what)
    | (c, none) => eachCell visit rest (m.insert pid c)

def visitCells (st : SessionStore σ) (visit : ProjectionCell σ → ProjectionCell σ × Option String) :
    SessionStore σ × Option String :=
  let r := eachCell visit st.projectionCells.toList st.projectionCells
  ({ st with projectionCells := r.1 }, r.2)

/-! Appending -/

/-- `session_store::publish` on the session at an index. -/
def publish (st : SessionStore σ) (h : Nat) (s : Session) (ev : Event) (refuses : Option String) :
    Done σ :=
  match validateEvent ev with
  | .error what => { store := st, threw := some what }
  | .ok _ =>
    let ev := { ev with ignorable := st.ignorable ev.type }
    match foldEvent ev st.projections with
    | .error what => { store := st, threw := some what }
    | .ok plan =>
      let folded := st.set h { s with surface := s.surface.apply ev.seq plan }
      match folded.visitCells (ProjectionCell.drive s.id ev) with
      | (driven, some what) => { store := driven, threw := some what }
      | (driven, none) =>
        if driven.bus && driven.store.contains s.id then
          match refuses with
          | some what => { store := driven, threw := some what }
          | none => { store := driven, notices := [.appended s.id ev], frames := [.commit h ev] }
        else { store := driven, frames := [.commit h ev] }

/-- The event an append of the session makes; it takes the next number at once. -/
def newEvent (s : Session) (type : String) (data : Json) (now : Int) : Event :=
  { seq := s.nextSeq, time := now, type, data }

def numbered (s : Session) : Session := { s with nextSeq := s.nextSeq + 1 }

/-- `session::append`. Without its store a session keeps a log of its own. -/
def append (st : SessionStore σ) (h : Nat) (s : Session) (type : String) (data : Json) (now : Int)
    (refuses : Option String) : Done σ :=
  let ev := newEvent s type data now
  let drawn := st.set h (numbered s)
  if st.alive then drawn.publish h (numbered s) ev refuses
  else
    let ev := { ev with ignorable := !isBuiltinSurfaceType type }
    let surface := s.surface.apply ev.seq (foldBuiltin ev)
    { store := st.set h { numbered s with surface }, frames := [.commit h ev] }

/-! Preparing -/

def checkSeed (st : SessionStore σ) : Nat → List Event → Except String (List Event)
  | _, [] => .ok []
  | i, ev :: rest => do
    ensure (ev.seq == i) ("seed seq discontinuity at index " ++ toString i)
    validateEvent ev
    let rest ← st.checkSeed (i + 1) rest
    .ok ({ ev with ignorable := st.ignorable ev.type } :: rest)

/-- The marker of the fork cut. -/
def endSeed (now : Int) (seed : List Event) (inherited : Nat) : Event where
  seq := seed.length
  time := lastTime now seed
  type := "session/end-seed"
  data := .obj [("inherited", .uint inherited)]

/-- The log a session opens with: the checked seed, its repair and the marker. -/
def openingLog (now : Int) (options : CreateOptions) (seed : List Event) : List Event :=
  let repaired := repairInterruptedTurns now seed
  if options.isSeeded && 0 < options.inheritedEventCount then
    repaired ++ [endSeed now repaired options.inheritedEventCount]
  else repaired

def newHeader (id : SessionId) (options : CreateOptions) (now : Int) : Header where
  id
  createdAt := options.createdAt.getD now
  cwd := options.cwd
  parentSession := options.parentSession
  isSeeded := options.isSeeded
  delegationDepth := options.delegationDepth.getD 0
  origin := options.origin
  agentPreset := options.agentPreset

/-- The constructor's fold of a log. -/
def foldLog (projections : List MessageProjection) : List Event → Surface → Except String Surface
  | [], s => .ok s
  | ev :: rest, s => do
    let plan ← foldEvent ev projections
    foldLog projections rest (s.apply ev.seq plan)

/-- `prepare`: the session it builds, without entering it. -/
def prepared (st : SessionStore σ) (id : SessionId) (options : CreateOptions) (now : Int) :
    Except String Session := do
  ensure (id != "") "session id is empty"
  ensure (!st.store.contains id) ("session '" ++ id ++ "' already exists")
  let seed ← st.checkSeed 0 options.seed
  let log := openingLog now options seed
  let surface ← foldLog st.projections log {}
  .ok { header := newHeader id options now, inheritedEventCount := options.inheritedEventCount,
        firstLiveSeq := seed.length, nextSeq := log.length, log, surface }

def addSession (st : SessionStore σ) (s : Session) : SessionStore σ :=
  { st with sessions := st.sessions ++ [s] }

def prepare (st : SessionStore σ) (id : SessionId) (options : CreateOptions) (now : Int) : Done σ :=
  match st.prepared id options now with
  | .error what => { store := st, threw := some what }
  | .ok s => { store := st.addSession s }

/-! Entering, announcing, leaving -/

def enter (st : SessionStore σ) (h : Nat) (s : Session) : Done σ :=
  if st.store.contains s.id then
    { store := st, threw := some ("session '" ++ s.id ++ "' already exists") }
  else { store := { st with store := st.store.insert s.id h } }

/-- `announce`: the cells are seeded before the session entered under the
identity is announced. -/
def announce (st : SessionStore σ) (s : Session) : Done σ :=
  match (st.store.find? s.id).bind fun h => st.sessions[h]? with
  | none => { store := st, threw := some "announce requires an entered session" }
  | some entered =>
    match st.visitCells (ProjectionCell.seed s.header s.log) with
    | (seeded, some what) => { store := seeded, threw := some what }
    | (seeded, none) =>
      { store := seeded, notices := if seeded.bus then [.created entered.header] else [] }

/-- `create`: prepare, enter, announce. -/
def create (st : SessionStore σ) (id : SessionId) (options : CreateOptions) (now : Int) : Done σ :=
  match st.prepared id options now with
  | .error what => { store := st, threw := some what }
  | .ok s =>
    let entered := (st.addSession s).enter st.sessions.length s
    if entered.threw.isSome then entered else entered.store.announce s

def forkOptions (parent : Session) (at_ : Nat) : CreateOptions where
  seed := parent.log.take at_
  inheritedEventCount := at_
  cwd := parent.header.cwd
  parentSession := some parent.id
  isSeeded := decide (0 < at_)
  origin := parent.header.origin
  delegationDepth := some parent.header.delegationDepth
  agentPreset := parent.header.agentPreset

/-- `fork` under a given child identity, minted or supplied. -/
def fork (st : SessionStore σ) (parent child : SessionId) (cut : Option Nat) (now : Int) : Done σ :=
  match (st.store.find? parent).bind fun h => st.sessions[h]? with
  | none => { store := st, threw := some ("cannot fork unknown session '" ++ parent ++ "'") }
  | some source =>
    let cutAt := cut.getD source.log.length
    if source.log.length < cutAt then
      { store := st
        threw := some ("fork cut " ++ toString cutAt ++ " beyond log length " ++
          toString source.log.length) }
    else st.create child (forkOptions source cutAt) now

def dropCells (st : SessionStore σ) (id : SessionId) : SortedMap Nat (ProjectionCell σ) :=
  st.projectionCells.filterMap fun c => some (c.drop id)

def dispose (st : SessionStore σ) (id : SessionId) : Done σ :=
  if st.store.contains id then
    { store := { st with store := st.store.erase id, projectionCells := st.dropCells id }
      notices := if st.bus then [.disposed id] else [] }
  else { store := st }

/-- The store goes away: every entered session leaves it. -/
def expire (st : SessionStore σ) : Done σ where
  store := { st with alive := false, store := ∅, projections := [], projectionCells := ∅ }
  notices := if st.bus then st.store.toList.map fun e => .disposed e.1 else []

def flush (st : SessionStore σ) (id : SessionId) : Done σ where
  store := st
  notices := if st.bus && st.store.contains id then [.flush id] else []

def registerMessageProjection (st : SessionStore σ) (p : MessageProjection) : Done σ :=
  if st.hasProjection p.eventType then
    { store := st
      threw := some ("session message projection '" ++ p.eventType ++ "' is already registered") }
  else { store := { st with projections := st.projections ++ [p] } }

def dropMessageProjection (st : SessionStore σ) (type : String) : SessionStore σ :=
  { st with projections := st.projections.filter fun p => p.eventType != type }

def registerProjection (st : SessionStore σ) (spec : EventProjection σ) : SessionStore σ :=
  { st with
    projectionCells := st.projectionCells.insert st.projectionCounter { spec }
    projectionCounter := st.projectionCounter + 1 }

def dropProjection (st : SessionStore σ) (pid : Nat) : SessionStore σ :=
  { st with projectionCells := st.projectionCells.erase pid }

end SessionStore

inductive SessionOp (σ : Type) where
  | append (session : Nat) (type : String) (data : Json) (now : Int) (refuses : Option String)
  | create (id : SessionId) (options : CreateOptions) (now : Int)
  | prepare (id : SessionId) (options : CreateOptions) (now : Int)
  | enter (session : Nat)
  | announce (session : Nat)
  | fork (parent child : SessionId) (cut : Option Nat) (now : Int)
  | dispose (id : SessionId)
  | expire
  | flush (id : SessionId)
  | registerMessageProjection (p : MessageProjection)
  | dropMessageProjection (type : String)
  | registerProjection (spec : EventProjection σ)
  | dropProjection (pid : Nat)

namespace SessionStore

/-- What a call does; sessions are reached through objects that exist, and a
store that is gone through none of its own functions. -/
def run (st : SessionStore σ) : SessionOp σ → Option (Done σ)
  | .append h type data now refuses =>
    (st.sessions[h]?).map fun s => st.append h s type data now refuses
  | .create id options now => if st.alive then some (st.create id options now) else none
  | .prepare id options now => if st.alive then some (st.prepare id options now) else none
  | .enter h => if st.alive then (st.sessions[h]?).map (st.enter h) else none
  | .announce h => if st.alive then (st.sessions[h]?).map st.announce else none
  | .fork parent child cut now => if st.alive then some (st.fork parent child cut now) else none
  | .dispose id => if st.alive then some (st.dispose id) else none
  | .expire => if st.alive then some st.expire else none
  | .flush id => if st.alive then some (st.flush id) else none
  | .registerMessageProjection p => if st.alive then some (st.registerMessageProjection p) else none
  | .dropMessageProjection type => some { store := st.dropMessageProjection type }
  | .registerProjection spec => if st.alive then some { store := st.registerProjection spec } else none
  | .dropProjection pid => some { store := st.dropProjection pid }

/-- `log_.push_back`. -/
def commit (st : SessionStore σ) : SessionFrame → SessionStore σ
  | .commit h ev =>
    match st.sessions[h]? with
    | none => st
    | some s => st.set h { s with log := s.log ++ [ev] }

end SessionStore

/-- The store with its callers: listeners may call it while an event is published. -/
def sessionMachine (σ : Type) : StackMachine (SessionStore σ) SessionFrame (SessionOp σ) where
  start st := st = { bus := st.bus }
  exec f st := .call (st.commit f) []
  op o st := (st.run o).map fun d => (d.store, d.frames)
  nested _ := true

abbrev SessionConfig (σ : Type) := Config (SessionStore σ) SessionFrame

end
end Araya.Sessions
