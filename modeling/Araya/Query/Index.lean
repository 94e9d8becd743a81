import Araya.Query.Engine
import Araya.Session.Growth

/-!
The search index. A reconcile compares each session with its row, and reads it again when its revision or
its liveness has changed.
-/

namespace Araya.Query

open Sessions

/-! What is indexed -/

structure StoredFile where
  revision : String
  content : Option StoredSession

/-- The persistence backend: the sessions it lists, each with its file if there is one. A file has the header of
the session it is named after; reading it may throw. -/
structure Backend where
  files : SortedMap SessionId (Option StoredFile)
  named : ∀ id file s, files.find? id = some (some file) → file.content = some s → s.header.id = id

namespace Backend

def revision (b : Backend) (id : SessionId) : Option String := (b.files.find? id).join.map (·.revision)

def read (b : Backend) (id : SessionId) : Option StoredSession := (b.files.find? id).join.bind (·.content)

end Backend

structure WantedRow where
  revision : String
  live : Bool
  persisted : Bool
  deriving DecidableEq

/-- A row of `indexed_sessions`. -/
structure IndexedRow where
  live : Bool
  persisted : Bool
  revision : String
  createdAt : Int
  cwd : Option String
  parentSession : Option SessionId
  delegationDepth : UInt32
  agentPreset : Option String
  deriving DecidableEq

/-- A row of `documents`. -/
structure DocumentRow where
  text : String
  session : SessionId
  seq : Int
  type : String
  time : Int
  surface : String
  deriving DecidableEq

structure Tables where
  sessions : SortedMap SessionId IndexedRow := ∅
  documents : List DocumentRow := []
  generation : Nat := 0

section
variable {σ : Type}

def entered? (st : SessionStore σ) (id : SessionId) : Option Session := (st.store.find? id).bind (st.sessions[·]?)

def liveRevision (s : Session) : String :=
  "live:" ++ toString s.log.length ++ ":" ++ toString s.surface.generation

def wantLive (st : SessionStore σ) (backend : Option Backend) (desired : SortedMap SessionId WantedRow) (id : SessionId) :
    SortedMap SessionId WantedRow :=
  match entered? st id with
  | none => desired
  | some s => desired.insert id {
      revision := liveRevision s
      live := true
      persisted := (backend.bind (·.revision id)).isSome }

def wantStored (desired : SortedMap SessionId WantedRow) (id : SessionId) (file : Option StoredFile) :
    SortedMap SessionId WantedRow :=
  if desired.contains id then desired
  else match file with
    | none => desired
    | some file => desired.insert id { revision := file.revision, live := false, persisted := true }

def desiredSessions (st : SessionStore σ) (backend : Option Backend) : SortedMap SessionId WantedRow :=
  let live := st.store.toList.foldl (fun desired e => wantLive st backend desired e.1) ∅
  match backend with
  | none => live
  | some b => b.files.toList.foldl (fun desired e => wantStored desired e.1 e.2) live

def sourceOf (st : SessionStore σ) (backend : Option Backend) (id : SessionId) (live : Bool) : Option SessionSource :=
  let stored := (backend.bind (·.read id)).map fun s =>
    { header := s.header, events := s.events, persisted := true }
  if live then
    match entered? st id with
    | some s => some { header := s.header, events := s.log, live := true }
    | none => stored
  else stored

end

/-! The tables -/

namespace Tables

def deleteSession (t : Tables) (id : SessionId) : Tables :=
  { t with documents := t.documents.filter (·.session ≠ id), sessions := t.sessions.erase id }

def document (id : SessionId) (event : Event) (surface : EventSurface) : Option DocumentRow :=
  let text := extractEventText event
  if text.isEmpty then none
  else some {
    text
    session := id
    seq := toInt64 event.seq
    type := event.type
    time := event.time
    surface := surfaceName surface }

/-- The documents of a session: its events that have a text. -/
def documentsOf (header : Header) (events : List Event) : List DocumentRow :=
  (events.zip (classifySurfaces events)).filterMap fun e => document header.id e.1 e.2

def rowOf (header : Header) (want : WantedRow) : IndexedRow where
  live := want.live
  persisted := want.persisted
  revision := want.revision
  createdAt := header.createdAt
  cwd := header.cwd
  parentSession := header.parentSession
  delegationDepth := header.delegationDepth
  agentPreset := header.agentPreset

def indexSession (t : Tables) (source : SessionSource) (want : WantedRow) : Tables :=
  { t with
    documents := t.documents ++ documentsOf source.header source.events
    sessions := t.sessions.insert source.header.id (rowOf source.header want) }

/-- A row that is left as it is. -/
def unchanged (want : WantedRow) (row : IndexedRow) : Bool := row.revision == want.revision && row.live == want.live

/-- A session that is gone, with the mark of a change. -/
def purge (desired : SortedMap SessionId WantedRow) (t : Tables × Bool) (id : SessionId) : Tables × Bool :=
  if desired.contains id then t else (t.1.deleteSession id, true)

/-- A session that is wanted; `indexed` are the rows from before. -/
def refresh (source : SessionId → Bool → Option SessionSource) (indexed : SortedMap SessionId IndexedRow) (t : Tables × Bool)
    (id : SessionId) (want : WantedRow) : Tables × Bool :=
  if (indexed.find? id).any (unchanged want) then t
  else match source id want.live with
    | none => if indexed.contains id then (t.1.deleteSession id, true) else t
    | some source => ((t.1.deleteSession id).indexSession source want, true)

def reconcile (t : Tables) (desired : SortedMap SessionId WantedRow) (source : SessionId → Bool → Option SessionSource) :
    Tables :=
  let purged := t.sessions.toList.foldl (fun t e => purge desired t e.1) (t, false)
  let refreshed := desired.toList.foldl (fun u e => refresh source t.sessions u e.1 e.2) purged
  if refreshed.2 then { refreshed.1 with generation := refreshed.1.generation + 1 } else refreshed.1

end Tables

/-! The index beside its store -/

/-- What a row was made from: a session object, or the content of a file. -/
inductive Made where
  | object (index : Nat)
  | stored (s : StoredSession)

/-- The store with its callers, the backend if one is attached, the tables, and what their rows were made from. -/
structure IndexState (σ : Type) where
  store : SessionConfig σ
  backend : Option Backend := none
  tables : Tables := {}
  made : SortedMap SessionId Made := ∅

inductive IndexOp (σ : Type) where
  | session (label : Label (SessionOp σ))
  | backend (backend : Option Backend)
  | reconcile

namespace IndexState
variable {σ : Type} (c : IndexState σ)

def desired : SortedMap SessionId WantedRow := desiredSessions c.store.state c.backend

def source (id : SessionId) (live : Bool) : Option SessionSource := sourceOf c.store.state c.backend id live

/-- What a row made now is made from. -/
def origin (id : SessionId) (live : Bool) : Option Made :=
  if live then (c.store.state.store.find? id).map .object else (c.backend.bind (·.read id)).map .stored

/-- A row that is made again takes what it is made from. -/
def remake (made : SortedMap SessionId Made) (id : SessionId) (want : WantedRow) : SortedMap SessionId Made :=
  if (c.tables.sessions.find? id).any (Tables.unchanged want) then made
  else match c.origin id want.live with
    | none => made
    | some own => made.insert id own

def next : IndexOp σ → Option (IndexState σ)
  | .session label => ((sessionMachine σ).next c.store label).map fun store => { c with store }
  | .backend backend => some { c with backend }
  | .reconcile => some { c with
      tables := c.tables.reconcile c.desired c.source
      made := c.desired.toList.foldl (fun made e => c.remake made e.1 e.2) c.made }

end IndexState

/-- The runs that start with an empty index. -/
def indexSystem (σ : Type) : System (IndexState σ) (IndexOp σ) where
  start c := (sessionMachine σ).start c.store.state ∧ c.store.stack = [] ∧ c.backend = none ∧ c.tables = {} ∧ c.made = ∅
  step c op c' := c.next op = some c'

end Araya.Query
