import Araya.Query.Filters

/-!
The in-memory engine: sessions are observed through their store, or else through the persistence backend.
Nothing suspends, so a request sees one content of both.
-/

namespace Araya.Query

open Sessions

structure StoredSession where
  header : Header
  events : List Event

/-- The entered sessions, and the stored ones; one whose read throws has no content. A log is held in
memory, and the backend writes the header of a session under its own id. -/
structure Contents where
  live : SortedMap SessionId Session := ∅
  stored : SortedMap SessionId (Option StoredSession) := ∅
  entered : ∀ id s, live.find? id = some s → s.id = id ∧ Canonical s.log ∧ s.log.length < 2 ^ 63
  attached : ∀ id s, stored.find? id = some (some s) → s.header.id = id

structure SessionRecord where
  header : Header
  live : Bool := false
  persisted : Bool := false

structure SessionSource where
  header : Header
  events : List Event
  live : Bool := false
  persisted : Bool := false

structure EventSearchHit extends EventRecord where
  snippet : String := ""

structure SessionSearchHit where
  session : SessionRecord
  bestMatch : EventSearchHit

structure SessionSearchRequest where
  query : String
  sessionFilters : List SessionFilter := []
  eventFilters : List EventFilter := []
  limit : Nat := 20
  cursor : String := ""

structure EventSearchRequest where
  session : SessionId
  query : String
  filters : List EventFilter := []
  limit : Nat := 20
  cursor : String := ""

structure SessionSearchPage where
  items : List SessionSearchHit
  nextCursor : String := ""

structure EventSearchPage where
  session : Header
  items : List EventSearchHit
  nextCursor : String := ""

structure EventRead where
  target : Event
  before : List Event := []
  after : List Event := []

structure LineageNode where
  header : Header
  live : Bool := false
  persisted : Bool := false

structure DescendantNode where
  node : LineageNode
  depth : Nat := 1

structure SessionTrace where
  target : LineageNode
  ancestors : List LineageNode := []
  descendants : List DescendantNode := []

structure EventTrace where
  target : EventRecord
  replacedBy : Option EventRecord := none
  replacementChain : List EventRecord := []
  replacedEvents : List EventRecord := []

inductive QueryErrorCode where
  | invalidQuery
  | invalidCursor
  | sessionNotFound
  | staleCursor
  deriving DecidableEq

/-- What a query throws: an error of its own, or one of the standard library. -/
inductive Thrown where
  | query (code : QueryErrorCode) (message : String)
  | other (message : String)

/-! The text of an event -/

def appendLine (out text : String) : String :=
  if text.isEmpty then out else if out.isEmpty then text else out ++ "\n" ++ text

/-- A block of a content that is an object; `nested` is the text of its own content appended. -/
def appendBlock (out : String) (block : Json.Members) (nested : String) : String :=
  let field (key : String) := (Json.stringField block key).getD ""
  if field "type" = "text" then appendLine out (field "text")
  else if field "type" = "tool_call" then
    if (field "name").isEmpty && (field "arguments").isEmpty then out
    else
      (if out.isEmpty then out else out ++ "\n") ++ field "name" ++
        (if (field "arguments").isEmpty then "" else " " ++ field "arguments")
  else if field "type" = "tool_result" then nested
  else out

mutual

def appendTextValue (out : String) : Json → String
  | .str text => appendLine out text
  | .arr blocks => appendBlocks out blocks
  | _ => out

def appendBlocks (out : String) : List Json → String
  | [] => out
  | .obj block :: blocks => appendBlocks (appendBlock out block (appendContent out block)) blocks
  | value :: blocks => appendBlocks (appendTextValue out value) blocks

/-- The first member called `content`. -/
def appendContent (out : String) : List (String × Json) → String
  | [] => out
  | (key, value) :: members => if key == "content" then appendTextValue out value else appendContent out members

end

/-- `content_of`: the messages of the agent and of the system are wrapped. -/
def contentOf (object : Json.Members) (wrapped : Bool) : Option Json :=
  if wrapped then (Json.objectField object "message").bind (Json.find? · "content") else Json.find? object "content"

def extractEventText (event : Event) : String :=
  match event.data.ifObject with
  | none => ""
  | some object =>
    let textOf (wrapped : Bool) := ((contentOf object wrapped).map (appendTextValue "")).getD ""
    if event.type = "user/message" then textOf false
    else if event.type = "assistant/message" ∨ event.type = "system/message" then textOf true
    else if event.type = "tool/result" then textOf false
    else if event.type = "turn/end" then
      let reason := (Json.stringField object "reason").getD ""
      if reason ≠ "completed" ∧ reason ≠ "max_tokens" then reason else ""
    else ""

def makeSnippet (text : String) (found : MatchInfo) (maxChars : Nat) : String :=
  let chars := text.toList
  if chars.isEmpty then ""
  else match found.first with
    | none => String.ofList (chars.take maxChars)
    | some first =>
      let start := if maxChars / 3 < first then first - maxChars / 3 else 0
      let stop := min chars.length (start + maxChars)
      (if 0 < start then "..." else "") ++ String.ofList ((chars.take stop).drop start) ++
        (if stop < chars.length then "..." else "")

/-! Cursors -/

def encodeCursor (offset : Nat) : String := "v1:" ++ toString offset

def invalidCursor : Except Thrown Nat := .error (.query .invalidCursor "invalid cursor")

def decodeCursor (cursor : String) : Except Thrown Nat :=
  match cursor.toList with
  | [] => .ok 0
  | 'v' :: '1' :: ':' :: digits =>
    if digits.isEmpty || !digits.all Char.isDigit then invalidCursor
    else
      let offset := digits.foldl (fun n c => n * 10 + (c.toNat - '0'.toNat)) 0
      if offset < 2 ^ 64 then .ok offset else .error (.other "stoull")
  | _ => invalidCursor

/-- The items of a page from an offset on, with the cursor of what follows. -/
def page {α : Type} (items : List α) (offset limit : Nat) : List α × String :=
  let shown := (items.drop offset).take (if limit = 0 then 20 else limit)
  (shown, if offset + shown.length < items.length then encodeCursor (offset + shown.length) else "")

namespace Contents
variable (c : Contents)

/-! Sessions -/

def addStored (records : SortedMap SessionId SessionRecord) (stored : Option StoredSession) :
    SortedMap SessionId SessionRecord :=
  match stored with
  | none => records
  | some s => records.insert s.header.id { header := s.header, persisted := true }

def addLive (records : SortedMap SessionId SessionRecord) (id : SessionId) (session : Session) :
    SortedMap SessionId SessionRecord :=
  records.insert id {
    header := session.header
    live := true
    persisted := (records.find? id).any (·.persisted) }

def recordsById : SortedMap SessionId SessionRecord :=
  c.live.toList.foldl (fun records e => addLive records e.1 e.2)
    (c.stored.toList.foldl (fun records e => addStored records e.2) ∅)

/-- The newest first; ties by id. -/
def newer (a b : SessionRecord) : Bool :=
  if a.header.createdAt ≠ b.header.createdAt then b.header.createdAt < a.header.createdAt else a.header.id ≤ b.header.id

def listSessions : List SessionRecord := (c.recordsById.toList.map (·.2)).mergeSort newer

def readSession (id : SessionId) : Option SessionSource :=
  let stored := (c.stored.find? id).join
  match c.live.find? id with
  | some session => some { header := session.header, events := session.log, live := true, persisted := stored.isSome }
  | none => stored.map fun s => { header := s.header, events := s.events, persisted := true }

def filterSessions (filters : List SessionFilter) : List SessionRecord :=
  c.listSessions.filter fun record => sessionMatches filters record.header record.live record.persisted

/-! Ranked search -/

structure RankedHit where
  hit : EventSearchHit
  count : Nat
  textLength : Nat

/-- Best event first. -/
def betterEvent (a b : RankedHit) : Bool :=
  if a.count ≠ b.count then b.count < a.count
  else if a.textLength ≠ b.textLength then a.textLength < b.textLength
  else if a.hit.time ≠ b.hit.time then b.hit.time < a.hit.time
  else b.hit.seq ≤ a.hit.seq

def betterSession (a b : SessionSearchHit) : Bool :=
  if a.bestMatch.seq ≠ b.bestMatch.seq then b.bestMatch.seq < a.bestMatch.seq
  else a.session.header.id ≤ b.session.header.id

/-- The events of a log as records, each with its own event. -/
def eventRecords (session : SessionId) (events : List Event) : List (EventRecord × Event) :=
  (events.zip (classifySurfaces events)).map fun e =>
    ({ session, seq := e.1.seq, type := e.1.type, time := e.1.time, surface := e.2 }, e.1)

def rankEvent (filters : List EventFilter) (words : List (List Char)) (record : EventRecord) (event : Event) :
    Option RankedHit :=
  let text := extractEventText event
  let found := findMatches text words
  if eventMatches filters record text ∧ found.count ≠ 0 then
    some {
      hit := { toEventRecord := record, snippet := makeSnippet text found 160 }
      count := found.count
      textLength := text.length }
  else none

def rankEvents (source : SessionSource) (filters : List EventFilter) (words : List (List Char)) : List RankedHit :=
  ((eventRecords source.header.id source.events).filterMap fun e => rankEvent filters words e.1 e.2).mergeSort betterEvent

def searchSessions (request : SessionSearchRequest) : Except Thrown SessionSearchPage := do
  let words := splitWords request.query
  if words.isEmpty then throw (.query .invalidQuery "query must not be empty")
  let hits := (c.filterSessions request.sessionFilters).filterMap fun record =>
    (c.readSession record.header.id).bind fun source =>
      (rankEvents source request.eventFilters words).head?.map fun best => { session := record, bestMatch := best.hit }
  let offset ← decodeCursor request.cursor
  let shown := page (hits.mergeSort betterSession) offset request.limit
  return { items := shown.1, nextCursor := shown.2 }

def searchEvents (request : EventSearchRequest) : Except Thrown EventSearchPage := do
  let words := splitWords request.query
  if words.isEmpty then throw (.query .invalidQuery "query must not be empty")
  match c.readSession request.session with
  | none => throw (.query .sessionNotFound ("session not found: " ++ request.session))
  | some source =>
    let offset ← decodeCursor request.cursor
    let shown := page ((rankEvents source request.filters words).map (·.hit)) offset request.limit
    return { session := source.header, items := shown.1, nextCursor := shown.2 }

/-! Exact reads -/

def readEvent (session : SessionId) (seq before after : Nat) : Option EventRead :=
  (c.readSession session).bind fun source =>
    let index := source.events.findIdx fun ev => ev.seq == seq
    (source.events[index]?).map fun target => {
      target
      before := (source.events.take index).drop (index - before)
      after := (source.events.drop (index + 1)).take after }

def readTitle (id : SessionId) : Option String :=
  (c.readSession id).bind fun source =>
    source.events.findSome? fun ev =>
      if ev.type = "user/message" then
        let text := trim (extractEventText ev)
        if text.isEmpty then none else some (String.ofList (text.toList.take 80))
      else none

/-! Lineage -/

def toNode (record : SessionRecord) : LineageNode where
  header := record.header
  live := record.live
  persisted := record.persisted

/-- The record of an id in a list of all. -/
def recordOf (records : List SessionRecord) (id : SessionId) : Option SessionRecord :=
  records.find? fun record => record.header.id == id

/-- The walk up the parent links, as long as it meets no id twice. -/
def ancestorsFrom (records : List SessionRecord) : Nat → List SessionId → Option SessionId → Option (List LineageNode)
  | _, _, none => some []
  | 0, _, some _ => none
  | fuel + 1, seen, some parent =>
    if seen.contains parent then some []
    else match recordOf records parent with
      | none => some []
      | some record =>
        (ancestorsFrom records fuel (parent :: seen) record.header.parentSession).map (toNode record :: ·)

/-- The walk down the parent links; it does not look for cycles. -/
def descendantsFrom (records : List SessionRecord) : Nat → List (SessionId × Nat) → Option (List DescendantNode)
  | _, [] => some []
  | 0, _ :: _ => none
  | fuel + 1, (current, depth) :: frontier =>
    let children := records.filter fun record => record.header.parentSession == some current
    let found := children.map fun record => { node := toNode record, depth := depth + 1 }
    (descendantsFrom records fuel ((children.map fun record => (record.header.id, depth + 1)).reverse ++ frontier)).map
      (found ++ ·)

/-- `trace_session`, if both walks end: the outer result is their end, the inner one the session's. -/
def traceSession (fuel : Nat) (id : SessionId) : Option (Option SessionTrace) :=
  let records := c.listSessions
  match recordOf records id with
  | none => some none
  | some record => do
    let ancestors ← ancestorsFrom records fuel [id] record.header.parentSession
    let descendants ← descendantsFrom records fuel [(id, 0)]
    return some { target := toNode record, ancestors, descendants }

/-- The span of a replacement as the trace reads it. -/
def replacedSpan (event : Event) : Option (Int × Int) :=
  if event.type = "surface/replace" then do
    let object ← event.data.ifObject
    let start ← Json.optIntField object "start_seq"
    let stop ← Json.optIntField object "end_seq"
    return (start, stop)
  else none

def inSpan (span : Int × Int) (seq : Nat) : Bool := span.1 ≤ toInt64 seq && toInt64 seq < span.2

def traceEvent (session : SessionId) (seq : Nat) : Option EventTrace :=
  (c.readSession session).bind fun source =>
    let records := eventRecords session source.events
    (records.find? fun e => e.1.seq == seq).map fun target =>
      let spans := records.filterMap fun e => (replacedSpan e.2).map fun span => (e.1, span)
      let chain := (spans.filter fun e => inSpan e.2 seq).map (·.1)
      { target := target.1
        replacedBy := chain.getLast?
        replacementChain := chain
        replacedEvents := (spans.filter fun e => e.1.seq == seq).flatMap fun e =>
          (records.filter fun r => inSpan e.2 r.1.seq).map (·.1) }

end Contents

end Araya.Query
