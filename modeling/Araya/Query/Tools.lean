import Araya.Query.Engine

/-!
The session-query tools. Each checks by itself what its caller may see, and presents what the engine gives.
-/

namespace Araya.Query

open Sessions

/-- The time facets of the standard library. -/
structure Clock where
  /-- `std::get_time` and `timegm` with a fraction of a second, in milliseconds. -/
  parse : String → Option Int
  /-- `gmtime` and `std::put_time`. -/
  format : Int → String

/-! Where a turn stands -/

structure StepBoundary where
  start : Bool := true
  seq : Nat := 0

structure TurnState where
  openTurnStartSeq : Option Nat := none
  lastStepStartSeq : Option Nat := none
  lastStepBoundary : Option StepBoundary := none
  lastTurn : Nat := 0

def turnOf (data : Json) : Option Nat := data.ifObject.bind (Json.optUintField · "turn")

def TurnState.apply (state : TurnState) (event : Event) : TurnState :=
  if event.type = "turn/start" then
    { state with openTurnStartSeq := some event.seq, lastTurn := (turnOf event.data).getD state.lastTurn }
  else if event.type = "turn/end" then { state with openTurnStartSeq := none }
  else if event.type = "step/start" then
    { state with lastStepStartSeq := some event.seq, lastStepBoundary := some { seq := event.seq } }
  else if event.type = "step/end" then { state with lastStepBoundary := some { start := false, seq := event.seq } }
  else state

/-- `turn_boundary` of a session that the projection has seen. -/
def turnBoundary (log : List Event) : TurnState := log.foldl TurnState.apply {}

/-! Arguments -/

def stringArray (object : Json.Members) (key : String) : List String :=
  ((Json.arrayField object key).getD []).filterMap Json.ifString

def boolField (object : Json.Members) (key : String) : Bool := ((Json.find? object key).bind Json.ifBool).getD false

def decimal (digits : List Char) : Int := digits.foldl (fun n c => n * 10 + (c.toNat - '0'.toNat : Nat)) 0

def parseTimestamp (clock : Clock) (text : String) : Except Thrown Int :=
  let trimmed := trim text
  if trimmed.isEmpty then .error (.other "timestamp must not be empty")
  else
    let signed := trimmed.toList.head? = some '-'
    let digits := if signed then trimmed.toList.tail else trimmed.toList
    if !digits.isEmpty && digits.all Char.isDigit then
      let millis := if signed then -decimal digits else decimal digits
      if -2 ^ 63 ≤ millis ∧ millis < 2 ^ 63 then .ok millis else .error (.other "stoll")
    else match clock.parse trimmed with
      | some millis => .ok millis
      | none => .error (.other "timestamp must be epoch milliseconds or ISO 8601 (e.g. 2026-01-01T00:00:00Z)")

/-- A clause for an argument that is given. -/
def optional {α β : Type} (value : Option α) (clause : α → Except Thrown β) : Except Thrown (List β) :=
  match value with
  | none => .ok []
  | some a => (clause a).map fun b => [b]

def clauseUnless {β : Type} (empty : Bool) (clause : β) : List β := if empty then [] else [clause]

def buildSessionFilters (clock : Clock) (object : Json.Members) : Except Thrown (List SessionFilter) := do
  let ids := stringArray object "session_ids"
  let created ← optional (Json.stringField object "created_at_from") fun text =>
    (parseTimestamp clock text).map fun bound => { clause := .createdAt, fromBound := some bound }
  let before ← optional (Json.stringField object "created_at_to") fun text =>
    (parseTimestamp clock text).map fun bound => { clause := .createdAt, toBound := some bound }
  let parents := stringArray object "parent_session_ids"
  let root := boolField object "include_root_sessions"
  let availability := stringArray object "availability"
  return clauseUnless ids.isEmpty { clause := .id, values := ids } ++ created ++ before ++
    clauseUnless (parents.isEmpty && !root) { clause := .parent, values := parents, allowRoot := root } ++
    clauseUnless availability.isEmpty { clause := .availability, values := availability }

/-- The names of the arguments of an event search. -/
structure EventKeys where
  seqFrom : String
  seqTo : String
  timeFrom : String
  timeTo : String
  types : String
  surfaces : String

def buildEventFilters (clock : Clock) (object : Json.Members) (keys : EventKeys) : Except Thrown (List EventFilter) := do
  let seqFrom := (Json.optUintField object keys.seqFrom).map fun n => ({ clause := .seq, fromBound := some (toInt64 n) } : EventFilter)
  let seqTo := (Json.optUintField object keys.seqTo).map fun n => ({ clause := .seq, toBound := some (toInt64 n) } : EventFilter)
  let timeFrom ← optional (Json.stringField object keys.timeFrom) fun text =>
    (parseTimestamp clock text).map fun bound => { clause := .time, fromBound := some bound }
  let timeTo ← optional (Json.stringField object keys.timeTo) fun text =>
    (parseTimestamp clock text).map fun bound => { clause := .time, toBound := some bound }
  let types := stringArray object keys.types
  let surfaces := stringArray object keys.surfaces
  return seqFrom.toList ++ seqTo.toList ++ timeFrom ++ timeTo ++ clauseUnless types.isEmpty { clause := .type, values := types } ++
    clauseUnless surfaces.isEmpty { clause := .surface, values := surfaces }

/-! The caller -/

structure CallerInfo where
  id : SessionId
  cwd : Option String

def authorized (caller : CallerInfo) (header : Header) : Bool :=
  header.id == caller.id || caller.cwd.any fun cwd => header.cwd == some cwd

def targetId (object : Json.Members) (caller : CallerInfo) : SessionId :=
  match Json.stringField object "session_id" with
  | some id => if id.isEmpty then caller.id else id
  | none => caller.id

def safeError : Thrown → String
  | .query .staleCursor _ => "session history changed while paging; retry the complete search call"
  | .query .sessionNotFound _ => "session not found"
  | .query _ message | .other message => message

/-! Replies -/

/-- What a tool presents; a title stands next to the session it is of. -/
inductive Reply where
  | error (text : String)
  | noSessions
  | sessions (hits : List (SessionSearchHit × String)) (capped : Bool)
  | events (session : Header) (title : String) (hits : List EventSearchHit) (capped : Bool)
  | lineage (target : LineageNode × String) (ancestors : List (LineageNode × String))
      (descendants : List (DescendantNode × String))
  | eventTrace (trace : EventTrace)
  | event (session : SessionId) (read : EventRead)

def availabilityText (live persisted : Bool) : String :=
  if live && persisted then "live, persisted"
  else if live then "live"
  else if persisted then "persisted"
  else "unavailable"

def capNote (capped : Bool) : String :=
  if capped then "Result cap reached. Narrow the query or add filters to find additional matches.\n" else ""

def seqList (records : List EventRecord) : String := String.join (records.map fun record => " seq " ++ toString record.seq)

def neighbours (heading : String) (events : List Event) : String :=
  if events.isEmpty then ""
  else heading ++ String.join (events.map fun event => "- seq " ++ toString event.seq ++ " | " ++ event.type ++ "\n")

def lineageList (lines : List String) : String := if lines.isEmpty then "- (none)\n" else String.join lines

/-- The text of a reply; `serialize` is that of the JSON library. -/
def Reply.present (clock : Clock) (serialize : Json → String) : Reply → String
  | .error text => "Error: " ++ text
  | .noSessions => "No prior session matches found."
  | .sessions hits capped =>
    if hits.isEmpty then "No prior session matches found."
    else "Session search results (" ++ toString hits.length ++ "):\n" ++ String.join (hits.mapIdx fun i hit =>
      toString (i + 1) ++ ". Session " ++ hit.1.session.header.id ++ " — " ++ hit.2 ++ "\n" ++
        "   Created: " ++ clock.format hit.1.session.header.createdAt ++ "\n" ++
        "   Availability: " ++ availabilityText hit.1.session.live hit.1.session.persisted ++ "\n" ++
        "   Best match: seq " ++ toString hit.1.bestMatch.seq ++ " | " ++ hit.1.bestMatch.type ++ " | " ++
          surfaceName hit.1.bestMatch.surface ++ "\n" ++
        "   Snippet: " ++ hit.1.bestMatch.snippet ++ "\n") ++ capNote capped
  | .events session title hits capped =>
    "Session " ++ session.id ++ " — " ++ title ++ "\n" ++
      if hits.isEmpty then "No prior event matches found."
      else "Event search results (" ++ toString hits.length ++ "):\n" ++ String.join (hits.mapIdx fun i hit =>
        toString (i + 1) ++ ". seq " ++ toString hit.seq ++ " | " ++ hit.type ++ " | " ++ surfaceName hit.surface ++
          " | " ++ clock.format hit.time ++ "\n" ++ "   Snippet: " ++ hit.snippet ++ "\n") ++ capNote capped
  | .lineage target ancestors descendants =>
    "Session " ++ target.1.header.id ++ " — " ++ target.2 ++ "\nCreated: " ++ clock.format target.1.header.createdAt ++
      "\nAvailability: " ++ availabilityText target.1.live target.1.persisted ++ "\n" ++
      "Ancestors (nearest first):\n" ++
      lineageList (ancestors.map fun node => "- " ++ node.1.header.id ++ " — " ++ node.2 ++ "\n") ++ "Descendants:\n" ++
      lineageList (descendants.map fun node => String.ofList (List.replicate (node.1.depth - 1) ' ') ++ "- " ++
        node.1.node.header.id ++ " — " ++ node.2 ++ "\n")
  | .eventTrace trace =>
    "Target: seq " ++ toString trace.target.seq ++ " | " ++ trace.target.type ++ " | " ++ surfaceName trace.target.surface ++
      "\n" ++ (trace.replacedBy.map fun record => "Replaced by: seq " ++ toString record.seq ++ "\n").getD "" ++
      (if trace.replacementChain.isEmpty then "" else "Replacement chain:" ++ seqList trace.replacementChain ++ "\n") ++
      if trace.replacedEvents.isEmpty then "" else "Events replaced by target:" ++ seqList trace.replacedEvents ++ "\n"
  | .event _ read =>
    "Target event seq " ++ toString read.target.seq ++ ":\n```json\n" ++ serialize read.target.data ++ "\n```\n" ++
      neighbours "Before:\n" read.before ++ neighbours "After:\n" read.after

/-! The handlers -/

/-- What the tools reach: the sessions, whether the agent service has a boundary for a session, the results a
search may give, and how long the walks of a trace may go on. -/
structure QueryTools where
  contents : Contents
  bounded : SessionId → Bool
  maxResults : Nat := 100
  clock : Clock
  fuel : Nat

namespace QueryTools
variable (t : QueryTools)

def requireCaller (session : String) : Except Thrown CallerInfo :=
  if session.isEmpty then .error (.other "session query tools require an owning agent session")
  else match t.contents.live.find? session with
    | none => .error (.other "session query: the calling session is not entered")
    | some s => .ok { id := s.id, cwd := s.header.cwd }

def titleOf (id : SessionId) : String := (t.contents.readTitle id).getD "untitled"

def sessionKeys : EventKeys where
  seqFrom := "event_seq_from"
  seqTo := "event_seq_to"
  timeFrom := "event_time_from"
  timeTo := "event_time_to"
  types := "event_types"
  surfaces := "event_surfaces"

def eventKeys : EventKeys where
  seqFrom := "seq_from"
  seqTo := "seq_to"
  timeFrom := "time_from"
  timeTo := "time_to"
  types := "event_types"
  surfaces := "surfaces"

def sessionSearch (caller : CallerInfo) (object : Json.Members) : Except Thrown Reply := do
  let queryText := (Json.stringField object "query").getD ""
  if (trim queryText).isEmpty then return .error "query must not be empty"
  match caller.cwd with
  | none => return .noSessions
  | some cwd =>
    let sessionFilters ← buildSessionFilters t.clock object
    let eventFilters ← buildEventFilters t.clock object sessionKeys
    let page ← t.contents.searchSessions {
      query := queryText
      sessionFilters := sessionFilters ++ [{ clause := .cwd, values := [cwd] }]
      eventFilters
      limit := t.maxResults }
    let items := page.items.filter fun hit => hit.session.header.id != caller.id
    return .sessions (items.map fun hit => (hit, t.titleOf hit.session.header.id)) (t.maxResults ≤ items.length)

/-- The first upper bound on the numbers is lowered, or one is added. -/
def clampSeq (upper : Int) : List EventFilter → List EventFilter
  | [] => [{ clause := .seq, toBound := some upper }]
  | filter :: filters =>
    match filter.clause, filter.toBound with
    | .seq, some bound => { filter with toBound := some (min bound upper) } :: filters
    | _, _ => filter :: clampSeq upper filters

/-- The search itself. -/
def searchTarget (target : SessionId) (queryText : String) (filters : List EventFilter) : Except Thrown Reply := do
  let page ← t.contents.searchEvents { session := target, query := queryText, filters, limit := t.maxResults }
  return .events page.session (t.titleOf page.session.id) page.items (t.maxResults ≤ page.items.length)

/-- A session read and checked before its events are given out. -/
def readTarget (caller : CallerInfo) (object : Json.Members) : SessionSource ⊕ String :=
  match t.contents.readSession (targetId object caller) with
  | none => .inr "session not found"
  | some source =>
    if authorized caller source.header then .inl source else .inr "session target is outside the caller workspace"

/-- The start of the last step of an entered session, as the agent service knows it. -/
def stepStart (id : SessionId) : Option Nat :=
  if t.bounded id then (t.contents.live.find? id).bind fun s => (turnBoundary s.log).lastStepStartSeq else none

def eventSearch (caller : CallerInfo) (object : Json.Members) : Except Thrown Reply := do
  let queryText := (Json.stringField object "query").getD ""
  if (trim queryText).isEmpty then return .error "query must not be empty"
  let target := targetId object caller
  match t.readTarget caller object with
  | .inr refusal => return .error refusal
  | .inl source =>
    let filters ← buildEventFilters t.clock object eventKeys
    if target = caller.id then
      match t.stepStart target with
      | none => return .error "session query requires an open model step"
      | some start =>
        let upper := toInt64 start - 1
        if upper < 0 then return .events source.header (t.titleOf source.header.id) [] false
        else t.searchTarget target queryText (clampSeq upper filters)
    else t.searchTarget target queryText filters

def sessionTrace (caller : CallerInfo) (object : Json.Members) : Option Reply :=
  (t.contents.traceSession t.fuel (targetId object caller)).map fun
    | none => .error "session not found"
    | some trace =>
      if authorized caller trace.target.header then
        let titled (node : LineageNode) := (node, t.titleOf node.header.id)
        .lineage (titled trace.target) ((trace.ancestors.filter fun node => authorized caller node.header).map titled)
          ((trace.descendants.filter fun node => authorized caller node.node.header).map fun node =>
            (node, t.titleOf node.node.header.id))
      else .error "session target is outside the caller workspace"

def eventTrace (caller : CallerInfo) (object : Json.Members) : Reply :=
  match t.readTarget caller object with
  | .inr refusal => .error refusal
  | .inl _ =>
    match Json.optUintField object "seq" with
    | none => .error "seq is required"
    | some seq =>
      match t.contents.traceEvent (targetId object caller) seq with
      | none => .error "event not found"
      | some trace => .eventTrace trace

def eventRead (caller : CallerInfo) (object : Json.Members) : Reply :=
  match t.readTarget caller object with
  | .inr refusal => .error refusal
  | .inl _ =>
    match Json.optUintField object "seq" with
    | none => .error "seq is required"
    | some seq =>
      let neighbourCount (key : String) := (Json.optUintField object key).getD 0 % 2 ^ 32
      match t.contents.readEvent (targetId object caller) seq (neighbourCount "before") (neighbourCount "after") with
      | none => .error "event not found"
      | some read => .event (targetId object caller) read

end QueryTools

inductive QueryTool where
  | sessionSearch
  | eventSearch
  | sessionTrace
  | eventTrace
  | eventRead
  deriving DecidableEq

def QueryTool.name : QueryTool → String
  | .sessionSearch => "session_search"
  | .eventSearch => "session_event_search"
  | .sessionTrace => "session_trace"
  | .eventTrace => "session_event_trace"
  | .eventRead => "session_event_read"

/-- The catch of a handler. -/
def caught : Except Thrown Reply → Reply
  | .ok reply => reply
  | .error thrown => .error (safeError thrown)

/-- A call of one of the tools; a trace whose walk goes on gives no reply. -/
def QueryTools.call (t : QueryTools) (tool : QueryTool) (session : String) (arguments : Json) : Option Reply :=
  match arguments.ifObject with
  | none => some (.error (tool.name ++ " requires an arguments object"))
  | some object =>
    match t.requireCaller session with
    | .error thrown => some (.error (safeError thrown))
    | .ok caller =>
      match tool with
      | .sessionSearch => some (caught (t.sessionSearch caller object))
      | .eventSearch => some (caught (t.eventSearch caller object))
      | .sessionTrace => t.sessionTrace caller object
      | .eventTrace => some (t.eventTrace caller object)
      | .eventRead => some (t.eventRead caller object)

/-- The result of a call: the text of its reply. -/
def QueryTools.result (t : QueryTools) (serialize : Json → String) (tool : QueryTool) (session : String) (arguments : Json) :
    Option String := (t.call tool session arguments).map (·.present t.clock serialize)

end Araya.Query
