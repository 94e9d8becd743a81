import Araya.Query.Tools

/-!
What the tools may show: sessions that are the caller's own or of its working directory, with their titles
and events. A reply is checked against the content it was made from.
-/

namespace Araya.Query

open Sessions

/-- A computation gives something good, or throws something allowed. -/
inductive Ends {ε α : Type} (allowed : ε → Prop) (good : α → Prop) : Except ε α → Prop where
  | ok {a : α} (h : good a) : Ends allowed good (.ok a)
  | error {thrown : ε} (h : allowed thrown) : Ends allowed good (.error thrown)

section
variable {ε α β : Type} {allowed : ε → Prop} {good : α → Prop} {better : β → Prop} {x : Except ε α}

theorem Ends.value {a : α} (h : Ends allowed good (.ok a)) : good a := by
  cases h with
  | ok h => exact h

theorem Ends.thrown {e : ε} (h : Ends allowed good (.error e : Except ε α)) : allowed e := by
  cases h with
  | error h => exact h

theorem Ends.bind {f : α → Except ε β} (h : Ends allowed good x) (next : ∀ a, good a → Ends allowed better (f a)) :
    Ends allowed better (x >>= f) := by
  cases h with
  | ok h => exact next _ h
  | error h => exact .error h

theorem Ends.map {f : α → β} (h : Ends allowed good x) (next : ∀ a, good a → better (f a)) :
    Ends allowed better (x.map f) := by
  cases h with
  | ok h => exact .ok (next _ h)
  | error h => exact .error h

theorem Ends.ite {p : Prop} [Decidable p] {y : Except ε α} (yes : Ends allowed good x) (no : Ends allowed good y) :
    Ends allowed good (if p then x else y) := by
  split
  case isTrue => exact yes
  case isFalse => exact no

end

/-! What may be seen -/

/-- A session of the content with this header, seen from a caller. -/
def Contents.Visible (c : Contents) (caller : CallerInfo) (header : Header) : Prop :=
  (∃ source, c.readSession header.id = some source ∧ source.header = header) ∧
    (header.id = caller.id ∨ ∃ cwd, caller.cwd = some cwd ∧ header.cwd = some cwd)

/-- A record of an event of the session. -/
def Contents.Recorded (c : Contents) (header : Header) (record : EventRecord) : Prop :=
  ∃ source, c.readSession header.id = some source ∧ ∃ event ∈ source.events,
    record.session = header.id ∧ record.seq = event.seq ∧ record.type = event.type ∧ record.time = event.time

/-- A hit in the session, with a piece of the text of its event. -/
def Contents.Found (c : Contents) (header : Header) (hit : EventSearchHit) : Prop :=
  ∃ source, c.readSession header.id = some source ∧ ∃ event ∈ source.events,
    hit.session = header.id ∧ hit.seq = event.seq ∧ hit.type = event.type ∧ hit.time = event.time ∧
    ∃ found, hit.snippet = makeSnippet (extractEventText event) found 160

/-- The number of the last `step/start` of a log. -/
def lastStepStart (log : List Event) : Option Nat :=
  ((log.filter fun ev => ev.type == "step/start").getLast?).map (·.seq)

/-- The texts of the errors; they name no session. -/
inductive Refused : String → Prop where
  | unowned : Refused "session query tools require an owning agent session"
  | notEntered : Refused "session query: the calling session is not entered"
  | noArguments (tool : QueryTool) : Refused (tool.name ++ " requires an arguments object")
  | emptyQuery : Refused "query must not be empty"
  | noStep : Refused "session query requires an open model step"
  | notFound : Refused "session not found"
  | outside : Refused "session target is outside the caller workspace"
  | noSeq : Refused "seq is required"
  | noEvent : Refused "event not found"
  | emptyTimestamp : Refused "timestamp must not be empty"
  | badTimestamp : Refused "timestamp must be epoch milliseconds or ISO 8601 (e.g. 2026-01-01T00:00:00Z)"
  | timestampRange : Refused "stoll"
  | badCursor : Refused "invalid cursor"
  | cursorRange : Refused "stoull"

def Refusal (thrown : Thrown) : Prop := Refused (safeError thrown)

/-- Everything in a reply is of a session that the caller may see. -/
def QueryTools.Isolated (t : QueryTools) (caller : CallerInfo) : Reply → Prop
  | .error text => Refused text
  | .noSessions => True
  | .sessions hits _ => ∀ hit ∈ hits, t.contents.Visible caller hit.1.session.header ∧
      t.contents.Found hit.1.session.header hit.1.bestMatch ∧ hit.2 = t.titleOf hit.1.session.header.id
  | .events header title hits _ => t.contents.Visible caller header ∧ title = t.titleOf header.id ∧
      ∀ hit ∈ hits, t.contents.Found header hit
  | .lineage target ancestors descendants =>
      (∀ node ∈ target :: ancestors, t.contents.Visible caller node.1.header ∧ node.2 = t.titleOf node.1.header.id) ∧
      ∀ node ∈ descendants, t.contents.Visible caller node.1.node.header ∧ node.2 = t.titleOf node.1.node.header.id
  | .eventTrace trace => ∃ header, t.contents.Visible caller header ∧
      ∀ record ∈ trace.target :: (trace.replacedBy.toList ++ trace.replacementChain ++ trace.replacedEvents),
        t.contents.Recorded header record
  | .event session read => ∃ source, t.contents.readSession session = some source ∧
      t.contents.Visible caller source.header ∧ ∀ event ∈ read.target :: (read.before ++ read.after), event ∈ source.events

/-- A search in the caller's own session shows what precedes its current step. -/
def QueryTools.Preceding (t : QueryTools) (caller : CallerInfo) : Reply → Prop
  | .events header _ hits _ => header.id = caller.id → ∃ s start, t.contents.live.find? caller.id = some s ∧
      lastStepStart s.log = some start ∧ ∀ hit ∈ hits, hit.seq < start
  | _ => True

/-! The sources of the records -/

namespace Contents
variable {c : Contents}

theorem readSession_id {id : SessionId} {source : SessionSource} (h : c.readSession id = some source) : source.header.id = id := by
  unfold readSession at h
  split at h
  case h_1 session found =>
    cases h
    exact (c.entered id session found).1
  case h_2 =>
    obtain ⟨stored, found, made⟩ := Option.map_eq_some_iff.mp h
    cases made
    exact c.attached id stored (Option.join_eq_some_iff.mp found)

theorem find_addStored {l : List (SessionId × Option StoredSession)} (known : ∀ e ∈ l, c.stored.find? e.1 = some e.2)
    {records : SortedMap SessionId SessionRecord} {id : SessionId} {record : SessionRecord}
    (h : (l.foldl (fun records e => addStored records e.2) records).find? id = some record) :
    (∃ s, c.stored.find? id = some (some s) ∧ record.header = s.header) ∨ records.find? id = some record := by
  induction l generalizing records with
  | nil => exact .inr h
  | cons e l ih =>
      rcases ih (fun e member => known e (List.mem_cons_of_mem _ member)) h with stored | before
      · exact .inl stored
      · have stored := known e List.mem_cons_self
        dsimp only [addStored] at before
        split at before
        case h_1 => exact .inr before
        case h_2 s own =>
          rw [own] at stored
          rw [SortedMap.find?_insert] at before
          split at before
          case isTrue same =>
            cases before
            refine .inl ⟨s, ?_, rfl⟩
            rw [same, c.attached e.1 s stored]
            exact stored
          case isFalse => exact .inr before

theorem find_addLive {l : List (SessionId × Session)} {records : SortedMap SessionId SessionRecord} {id : SessionId}
    {record : SessionRecord} (h : (l.foldl (fun records e => addLive records e.1 e.2) records).find? id = some record) :
    (∃ s, (id, s) ∈ l ∧ record.header = s.header) ∨ (records.find? id = some record ∧ ∀ s, (id, s) ∉ l) := by
  induction l generalizing records with
  | nil => exact .inr ⟨h, fun s => List.not_mem_nil⟩
  | cons e l ih =>
      rcases ih h with ⟨s, member, header⟩ | ⟨before, absent⟩
      · exact .inl ⟨s, List.mem_cons_of_mem _ member, header⟩
      · dsimp only [addLive] at before
        rw [SortedMap.find?_insert] at before
        split at before
        case isTrue same =>
          cases before
          exact .inl ⟨e.2, same.symm ▸ List.mem_cons_self, rfl⟩
        case isFalse other =>
          refine .inr ⟨before, fun s member => ?_⟩
          rcases List.mem_cons.mp member with same | later
          · exact other (congrArg Prod.fst same)
          · exact absent s later

theorem record_source {record : SessionRecord} (listed : record ∈ c.listSessions) :
    ∃ source, c.readSession record.header.id = some source ∧ source.header = record.header := by
  obtain ⟨⟨id, own⟩, member, same⟩ := List.mem_map.mp (List.mem_mergeSort.mp listed)
  obtain rfl : own = record := same
  rcases find_addLive (SortedMap.mem_toList.mp member) with ⟨s, live, header⟩ | ⟨before, absent⟩
  · have found := SortedMap.mem_toList.mp live
    have keyed : own.header.id = id := (congrArg Header.id header).trans (c.entered id s found).1
    refine ⟨{ header := s.header, events := s.log, live := true, persisted := (c.stored.find? id).join.isSome },
      ?_, header.symm⟩
    unfold readSession
    rw [keyed, found]
  · rcases find_addStored (fun e member => SortedMap.mem_toList.mp member) before with ⟨s, found, header⟩ | empty
    · have keyed : own.header.id = id := (congrArg Header.id header).trans (c.attached id s found)
      have none : c.live.find? id = none := Option.eq_none_iff_forall_not_mem.mpr fun s live =>
        absent s (SortedMap.mem_toList.mpr live)
      refine ⟨{ header := s.header, events := s.events, persisted := true }, ?_, header.symm⟩
      unfold readSession
      rw [keyed, none, found]
      rfl
    · cases empty

theorem record_visible {caller : CallerInfo} {record : SessionRecord} (listed : record ∈ c.listSessions)
    (allowed : record.header.id = caller.id ∨ ∃ cwd, caller.cwd = some cwd ∧ record.header.cwd = some cwd) :
    c.Visible caller record.header := ⟨record_source listed, allowed⟩

end Contents

theorem authorized_iff {caller : CallerInfo} {header : Header} : authorized caller header = true ↔
    header.id = caller.id ∨ ∃ cwd, caller.cwd = some cwd ∧ header.cwd = some cwd := by
  unfold authorized
  rw [Bool.or_eq_true, beq_iff_eq, Option.any_eq_true]
  simp only [beq_iff_eq]

/-! The events of a source -/

theorem mem_eventRecords {session : SessionId} {events : List Event} {record : EventRecord} {event : Event}
    (h : (record, event) ∈ Contents.eventRecords session events) : event ∈ events ∧ record.session = session ∧
      record.seq = event.seq ∧ record.type = event.type ∧ record.time = event.time := by
  obtain ⟨⟨own, mark⟩, member, same⟩ := List.mem_map.mp h
  cases same
  exact ⟨(List.of_mem_zip member).1, rfl, rfl, rfl, rfl⟩

/-- A ranked hit is an event of its source that passes the filters. -/
theorem mem_rankEvents {source : SessionSource} {filters : List EventFilter} {words : List (List Char)} {best : Contents.RankedHit}
    (h : best ∈ Contents.rankEvents source filters words) : ∃ event ∈ source.events,
      best.hit.session = source.header.id ∧ best.hit.seq = event.seq ∧ best.hit.type = event.type ∧
      best.hit.time = event.time ∧ (∃ found, best.hit.snippet = makeSnippet (extractEventText event) found 160) ∧
      eventMatches filters best.hit.toEventRecord (extractEventText event) = true := by
  obtain ⟨⟨record, event⟩, member, ranked⟩ := List.mem_filterMap.mp (List.mem_mergeSort.mp h)
  obtain ⟨known, session, seq, type, time⟩ := mem_eventRecords member
  unfold Contents.rankEvent at ranked
  dsimp only at ranked
  split at ranked
  case isTrue passes =>
    cases ranked
    exact ⟨event, known, session, seq, type, time, ⟨_, rfl⟩, passes.1⟩
  case isFalse => cases ranked

theorem mem_page {α : Type} {items : List α} {offset limit : Nat} {a : α} (h : a ∈ (page items offset limit).1) : a ∈ items :=
  List.mem_of_mem_drop (List.mem_of_mem_take h)

theorem decodeCursor_ends {cursor : String} : Ends Refusal (fun _ => True) (decodeCursor cursor) := by
  unfold decodeCursor
  split
  case h_1 => exact .ok trivial
  case h_2 => exact Ends.ite (.error Refused.badCursor) (Ends.ite (.ok trivial) (.error Refused.cursorRange))
  case h_3 => exact .error Refused.badCursor

/-! Lineage -/

namespace Contents

theorem mem_ancestorsFrom {records : List SessionRecord} {fuel : Nat} {seen : List SessionId} {parent : Option SessionId}
    {nodes : List LineageNode} (h : ancestorsFrom records fuel seen parent = some nodes) :
    ∀ node ∈ nodes, ∃ record ∈ records, node = toNode record := by
  induction fuel generalizing seen parent nodes with
  | zero =>
      cases parent with
      | none =>
          cases h
          exact fun node member => absurd member List.not_mem_nil
      | some id => cases h
  | succ fuel ih =>
      cases parent with
      | none =>
          cases h
          exact fun node member => absurd member List.not_mem_nil
      | some id =>
          unfold ancestorsFrom at h
          split at h
          case isTrue =>
            cases h
            exact fun node member => absurd member List.not_mem_nil
          case isFalse =>
            split at h
            case h_1 =>
              cases h
              exact fun node member => absurd member List.not_mem_nil
            case h_2 record found =>
              obtain ⟨rest, walked, made⟩ := Option.map_eq_some_iff.mp h
              cases made
              intro node member
              rcases List.mem_cons.mp member with first | later
              · exact ⟨record, List.mem_of_find?_eq_some found, first⟩
              · exact ih walked node later

theorem mem_descendantsFrom {records : List SessionRecord} {fuel : Nat} {frontier : List (SessionId × Nat)}
    {nodes : List DescendantNode} (h : descendantsFrom records fuel frontier = some nodes) :
    ∀ node ∈ nodes, ∃ record ∈ records, node.node = toNode record := by
  induction fuel generalizing frontier nodes with
  | zero =>
      cases frontier with
      | nil =>
          cases h
          exact fun node member => absurd member List.not_mem_nil
      | cons current frontier => cases h
  | succ fuel ih =>
      cases frontier with
      | nil =>
          cases h
          exact fun node member => absurd member List.not_mem_nil
      | cons current frontier =>
          obtain ⟨rest, walked, made⟩ := Option.map_eq_some_iff.mp h
          cases made
          intro node member
          rcases List.mem_append.mp member with child | later
          · obtain ⟨record, kept, same⟩ := List.mem_map.mp child
            cases same
            exact ⟨record, List.mem_of_mem_filter kept, rfl⟩
          · exact ih walked node later

/-- The nodes of a trace are records of the list. -/
theorem traceSession_listed {c : Contents} {fuel : Nat} {id : SessionId} {trace : SessionTrace}
    (h : c.traceSession fuel id = some (some trace)) :
    ∀ node ∈ trace.target :: (trace.ancestors ++ trace.descendants.map (·.node)),
      ∃ record ∈ c.listSessions, node = toNode record := by
  unfold traceSession at h
  dsimp only at h
  split at h
  case h_1 => cases h
  case h_2 record found =>
    obtain ⟨ancestors, up, h⟩ := Option.bind_eq_some_iff.mp h
    obtain ⟨descendants, down, h⟩ := Option.bind_eq_some_iff.mp h
    cases h
    intro node member
    rcases List.mem_cons.mp member with target | member
    · exact ⟨record, List.mem_of_find?_eq_some found, target⟩
    · rcases List.mem_append.mp member with above | below
      · exact mem_ancestorsFrom up node above
      · obtain ⟨child, walked, same⟩ := List.mem_map.mp below
        cases same
        exact mem_descendantsFrom down child walked

/-! The searches -/

theorem searchSessions_ends {c : Contents} {request : SessionSearchRequest} :
    Ends Refusal (fun page => ∀ hit ∈ page.items, hit.session ∈ c.filterSessions request.sessionFilters ∧
      c.Found hit.session.header hit.bestMatch) (c.searchSessions request) := by
  unfold searchSessions
  dsimp only
  split
  case isTrue => exact .error Refused.emptyQuery
  case isFalse =>
    refine Ends.bind decodeCursor_ends fun offset _ => .ok fun hit shown => ?_
    have ranked := List.mem_mergeSort.mp (mem_page shown)
    obtain ⟨record, listed, made⟩ := List.mem_filterMap.mp ranked
    obtain ⟨source, read, made⟩ := Option.bind_eq_some_iff.mp made
    obtain ⟨best, first, made⟩ := Option.map_eq_some_iff.mp made
    cases made
    obtain ⟨event, member, session, seq, type, time, snippet, -⟩ := mem_rankEvents (List.mem_of_mem_head? first)
    exact ⟨listed, source, read, event, member, session.trans (readSession_id read), seq, type, time, snippet⟩

theorem searchEvents_ends {c : Contents} {request : EventSearchRequest} :
    Ends Refusal (fun page => ∃ source, c.readSession request.session = some source ∧ page.session = source.header ∧
      ∀ hit ∈ page.items, ∃ event ∈ source.events, hit.session = source.header.id ∧ hit.seq = event.seq ∧
        hit.type = event.type ∧ hit.time = event.time ∧
        (∃ found, hit.snippet = makeSnippet (extractEventText event) found 160) ∧
        eventMatches request.filters hit.toEventRecord (extractEventText event) = true) (c.searchEvents request) := by
  unfold searchEvents
  dsimp only
  split
  case isTrue => exact .error Refused.emptyQuery
  case isFalse =>
    split
    case h_1 => exact .error Refused.notFound
    case h_2 source read =>
      refine Ends.bind decodeCursor_ends fun offset _ => .ok ⟨source, read, rfl, fun hit shown => ?_⟩
      obtain ⟨best, ranked, same⟩ := List.mem_map.mp (mem_page shown)
      cases same
      exact mem_rankEvents ranked

end Contents

/-! The filters of a request -/

theorem parseTimestamp_ends {clock : Clock} {text : String} : Ends Refusal (fun _ => True) (parseTimestamp clock text) := by
  refine Ends.ite (.error Refused.emptyTimestamp) (Ends.ite ?_ ?_)
  · exact Ends.ite (.ok trivial) (.error Refused.timestampRange)
  · cases clock.parse (trim text) with
    | some millis => exact .ok trivial
    | none => exact .error Refused.badTimestamp

theorem optional_ends {β : Type} {clock : Clock} {value : Option String} {clause : Int → β} :
    Ends Refusal (fun _ => True) (optional value fun text => (parseTimestamp clock text).map clause) := by
  cases value with
  | none => exact .ok trivial
  | some text =>
      have clauses : Ends Refusal (fun _ => True) ((parseTimestamp clock text).map clause) :=
        Ends.map parseTimestamp_ends fun _ _ => trivial
      exact Ends.map clauses fun _ _ => trivial

theorem buildSessionFilters_ends {clock : Clock} {object : Json.Members} :
    Ends Refusal (fun _ => True) (buildSessionFilters clock object) :=
  Ends.bind optional_ends fun _ _ => Ends.bind optional_ends fun _ _ => .ok trivial

theorem buildEventFilters_ends {clock : Clock} {object : Json.Members} {keys : EventKeys} :
    Ends Refusal (fun _ => True) (buildEventFilters clock object keys) :=
  Ends.bind optional_ends fun _ _ => Ends.bind optional_ends fun _ _ => .ok trivial

/-! The clamp -/

theorem canonical_lt {log : List Event} (canonical : Canonical log) {ev : Event} (member : ev ∈ log) : ev.seq < log.length := by
  obtain ⟨k, found⟩ := List.mem_iff_getElem?.mp member
  rw [(canonical k ev found).1]
  exact (List.getElem?_eq_some_iff.mp found).1

/-- Whatever the other bounds are, the clamped filters keep to the bound. -/
theorem clampSeq_bound {upper : Int} {filters : List EventFilter} {record : EventRecord} {text : String}
    (passes : eventMatches (QueryTools.clampSeq upper filters) record text = true) : toInt64 record.seq ≤ upper := by
  have bounded (bound : Int) (tail : List EventFilter) {filter : EventFilter} (seq : filter.clause = .seq)
      (capped : filter.toBound = some bound) (h : eventMatches (filter :: tail) record text = true) :
      toInt64 record.seq ≤ bound := by
    have own := (Bool.and_eq_true_iff.mp h).1
    unfold eventMatch at own
    rw [seq, capped] at own
    exact of_decide_eq_true (Bool.and_eq_true_iff.mp own).2
  induction filters with
  | nil => exact bounded upper [] rfl rfl passes
  | cons filter filters ih =>
      unfold QueryTools.clampSeq at passes
      split at passes
      case h_1 bound seq capped =>
        have lowered : ({ filter with toBound := some (min bound upper) } : EventFilter).clause = .seq := seq
        exact le_trans (bounded (min bound upper) filters lowered rfl passes) (min_le_right bound upper)
      case h_2 => exact ih (Bool.and_eq_true_iff.mp passes).2

theorem toInt64_of_lt {n : Nat} (short : n < 2 ^ 63) : toInt64 n = n := by
  unfold toInt64
  rw [Int.bmod_def]
  omega

theorem lastStepStartSeq_eq (log : List Event) (state : TurnState) :
    (log.foldl TurnState.apply state).lastStepStartSeq = (lastStepStart log).or state.lastStepStartSeq := by
  induction log generalizing state with
  | nil => rfl
  | cons ev log ih =>
      rw [List.foldl_cons, ih]
      unfold lastStepStart
      by_cases start : ev.type = "step/start"
      · have kept : (state.apply ev).lastStepStartSeq = some ev.seq := by
          unfold TurnState.apply
          rw [start]
          rfl
        rw [kept, List.filter_cons_of_pos (p := fun ev : Event => ev.type == "step/start") (beq_iff_eq.mpr start), List.getLast?_cons, Option.map_some, Option.some_or]
        cases (log.filter fun ev => ev.type == "step/start").getLast? <;> rfl
      · have kept : (state.apply ev).lastStepStartSeq = state.lastStepStartSeq := by
          unfold TurnState.apply
          rw [if_neg start]
          split_ifs <;> rfl
        rw [kept, List.filter_cons_of_neg (p := fun ev : Event => ev.type == "step/start") fun same => start (beq_iff_eq.mp same)]

theorem turnBoundary_lastStepStart (log : List Event) : (turnBoundary log).lastStepStartSeq = lastStepStart log := by
  unfold turnBoundary
  rw [lastStepStartSeq_eq, Option.or_none]

theorem lastStepStart_lt {log : List Event} (canonical : Canonical log) {start : Nat} (last : lastStepStart log = some start) :
    start < log.length := by
  obtain ⟨ev, own, seq⟩ := Option.map_eq_some_iff.mp last
  exact seq ▸ canonical_lt canonical (List.mem_of_mem_filter (List.mem_of_getLast? own))

/-! The handlers -/

namespace QueryTools
variable {t : QueryTools} {caller : CallerInfo} {object : Json.Members}

theorem readTarget_found {source : SessionSource} (h : t.readTarget caller object = .inl source) :
    t.contents.readSession (targetId object caller) = some source ∧ t.contents.Visible caller source.header := by
  unfold readTarget at h
  split at h
  case h_1 => cases h
  case h_2 own read =>
    split at h
    case isTrue allowed =>
      cases h
      exact ⟨read, ⟨source, (Contents.readSession_id read).symm ▸ read, rfl⟩, authorized_iff.mp allowed⟩
    case isFalse => cases h

theorem readTarget_refused {refusal : String} (h : t.readTarget caller object = .inr refusal) : Refused refusal := by
  unfold readTarget at h
  split at h
  case h_1 =>
    cases h
    exact Refused.notFound
  case h_2 =>
    split at h
    case isTrue => cases h
    case isFalse =>
      cases h
      exact Refused.outside

/-- What a reply owes to its caller. -/
def Owes (t : QueryTools) (caller : CallerInfo) (reply : Reply) : Prop := t.Isolated caller reply ∧ t.Preceding caller reply

theorem caught_owes {x : Except Thrown Reply} (ends : Ends Refusal (t.Owes caller) x) : t.Owes caller (caught x) := by
  cases ends with
  | ok owes => exact owes
  | error refused => exact ⟨refused, trivial⟩

theorem sessionSearch_owes : Ends Refusal (t.Owes caller) (t.sessionSearch caller object) := by
  refine Ends.ite (.ok ⟨Refused.emptyQuery, trivial⟩) ?_
  cases cwd : caller.cwd with
  | none => exact .ok ⟨trivial, trivial⟩
  | some cwd' =>
      refine Ends.bind buildSessionFilters_ends fun sessionFilters _ => Ends.bind buildEventFilters_ends fun eventFilters _ =>
        Ends.bind Contents.searchSessions_ends fun page found => .ok ⟨fun hit shown => ?_, trivial⟩
      obtain ⟨own, kept, same⟩ := List.mem_map.mp shown
      cases same
      obtain ⟨listed, hit⟩ := found own (List.mem_of_mem_filter kept)
      obtain ⟨listed, passes⟩ := List.mem_filter.mp listed
      have clause := List.all_eq_true.mp passes _ (List.mem_append_right sessionFilters (List.mem_singleton.mpr rfl))
      obtain ⟨own', found', member⟩ := Option.any_eq_true _ _ |>.mp clause
      have here : own' = cwd' := List.mem_singleton.mp (List.contains_iff_mem.mp member)
      exact ⟨Contents.record_visible listed (.inr ⟨cwd', cwd, here ▸ found'⟩), hit, rfl⟩

theorem searchTarget_owes {target : SessionId} {source : SessionSource} {queryText : String} {filters : List EventFilter}
    (read : t.contents.readSession target = some source) (visible : t.contents.Visible caller source.header)
    (preceding : source.header.id = caller.id → ∃ s start, t.contents.live.find? caller.id = some s ∧
      lastStepStart s.log = some start ∧ ∀ event ∈ source.events, ∀ record text, record.seq = event.seq →
        eventMatches filters record text = true → event.seq < start) :
    Ends Refusal (t.Owes caller) (t.searchTarget target queryText filters) := by
  refine Ends.bind Contents.searchEvents_ends fun page found => ?_
  obtain ⟨own, read', header, found⟩ := found
  cases Option.some.inj (read'.symm.trans read)
  have keyed : source.header.id = target := Contents.readSession_id read
  refine .ok ⟨⟨header.symm ▸ visible, rfl, fun hit shown => ?_⟩, fun same => ?_⟩
  · obtain ⟨event, member, session, seq, type, time, snippet, -⟩ := found hit shown
    rw [header]
    exact ⟨source, keyed.symm ▸ read, event, member, session, seq, type, time, snippet⟩
  · obtain ⟨s, start, live, last, before⟩ := preceding (header ▸ same)
    refine ⟨s, start, live, last, fun hit shown => ?_⟩
    obtain ⟨event, member, -, seq, -, -, -, passes⟩ := found hit shown
    exact seq ▸ before event member hit.toEventRecord _ seq passes

/-- The step of an entered session that a search in it is clamped to. -/
theorem stepStart_found {id : SessionId} {start : Nat} (h : t.stepStart id = some start) :
    ∃ s, t.contents.live.find? id = some s ∧ lastStepStart s.log = some start := by
  unfold stepStart at h
  split at h
  case isTrue =>
    obtain ⟨s, live, last⟩ := Option.bind_eq_some_iff.mp h
    exact ⟨s, live, (turnBoundary_lastStepStart s.log).symm.trans last⟩
  case isFalse => cases h

/-- An event that passes the clamp comes before the step. -/
theorem clamp_precedes {id : SessionId} {s : Session} {start : Nat} {source : SessionSource} {filters : List EventFilter}
    (live : t.contents.live.find? id = some s) (last : lastStepStart s.log = some start)
    (read : t.contents.readSession id = some source) {event : Event} (member : event ∈ source.events)
    {record : EventRecord} {text : String} (seq : record.seq = event.seq)
    (passes : eventMatches (clampSeq (toInt64 start - 1) filters) record text = true) : event.seq < start := by
  obtain ⟨-, canonical, short⟩ := t.contents.entered id s live
  unfold Contents.readSession at read
  rw [live] at read
  cases read
  have inside := canonical_lt canonical member
  have open' := lastStepStart_lt canonical last
  have bound := clampSeq_bound passes
  rw [seq, toInt64_of_lt (lt_trans inside short), toInt64_of_lt (lt_trans open' short)] at bound
  omega

theorem ownSearch_owes {source : SessionSource} {start : Nat} {upper : Int} {queryText : String} {filters : List EventFilter}
    (read : t.contents.readSession caller.id = some source) (visible : t.contents.Visible caller source.header)
    (boundary : t.stepStart caller.id = some start) (bound : toInt64 start - 1 = upper) :
    Ends Refusal (t.Owes caller)
      (if upper < 0 then .ok (.events source.header (t.titleOf source.header.id) [] false)
        else t.searchTarget caller.id queryText (clampSeq upper filters)) := by
  obtain ⟨s, live, last⟩ := stepStart_found boundary
  refine Ends.ite (.ok ⟨⟨visible, rfl, fun hit shown => absurd shown List.not_mem_nil⟩, fun _ => ?_⟩) ?_
  · exact ⟨s, start, live, last, fun hit shown => absurd shown List.not_mem_nil⟩
  · exact searchTarget_owes read visible fun _ => ⟨s, start, live, last,
      fun event member record text seq passes => clamp_precedes live last read member seq (bound ▸ passes)⟩

theorem eventSearch_owes : Ends Refusal (t.Owes caller) (t.eventSearch caller object) := by
  refine Ends.ite (.ok ⟨Refused.emptyQuery, trivial⟩) ?_
  cases checked : t.readTarget caller object with
  | inr refusal => exact .ok ⟨readTarget_refused checked, trivial⟩
  | inl source =>
      obtain ⟨read, visible⟩ := readTarget_found checked
      have keyed := Contents.readSession_id read
      refine Ends.bind buildEventFilters_ends fun filters _ => ?_
      by_cases same : targetId object caller = caller.id
      · dsimp only
        rw [if_pos same]
        rw [same] at read
        rw [same]
        cases boundary : t.stepStart caller.id with
        | none => exact .ok ⟨Refused.noStep, trivial⟩
        | some start =>
            dsimp only
            generalize bound : toInt64 start - 1 = upper
            exact ownSearch_owes read visible boundary bound
      · dsimp only
        rw [if_neg same]
        exact searchTarget_owes read visible fun own => absurd (keyed.symm.trans own) same

theorem sessionTrace_owes {reply : Reply} (h : t.sessionTrace caller object = some reply) : t.Owes caller reply := by
  obtain ⟨found, traced, made⟩ := Option.map_eq_some_iff.mp h
  cases found with
  | none =>
      cases made
      exact ⟨Refused.notFound, trivial⟩
  | some trace =>
      have listed := Contents.traceSession_listed traced
      have visible : ∀ node ∈ trace.target :: (trace.ancestors ++ trace.descendants.map (·.node)),
          authorized caller node.header = true → t.contents.Visible caller node.header := by
        intro node member allowed
        obtain ⟨record, kept, same⟩ := listed node member
        cases same
        exact Contents.record_visible kept (authorized_iff.mp allowed)
      dsimp only at made
      split at made
      case isTrue allowed =>
        cases made
        refine ⟨⟨fun node member => ?_, fun node member => ?_⟩, trivial⟩
        · rcases List.mem_cons.mp member with target | above
          · cases target
            exact ⟨visible trace.target List.mem_cons_self allowed, rfl⟩
          · obtain ⟨own, kept, same⟩ := List.mem_map.mp above
            cases same
            obtain ⟨walked, seen⟩ := List.mem_filter.mp kept
            exact ⟨visible own (List.mem_cons_of_mem _ (List.mem_append_left _ walked)) seen, rfl⟩
        · obtain ⟨own, kept, same⟩ := List.mem_map.mp member
          cases same
          obtain ⟨walked, seen⟩ := List.mem_filter.mp kept
          exact ⟨visible own.node
            (List.mem_cons_of_mem _ (List.mem_append_right _ (List.mem_map_of_mem walked))) seen, rfl⟩
      case isFalse =>
        cases made
        exact ⟨Refused.outside, trivial⟩

/-- Everything in the trace of an event is a record of its session. -/
theorem traceEvent_recorded {c : Contents} {session : SessionId} {source : SessionSource} {seq : Nat} {trace : EventTrace}
    (read : c.readSession session = some source) (h : c.traceEvent session seq = some trace) :
    ∀ record ∈ trace.target :: (trace.replacedBy.toList ++ trace.replacementChain ++ trace.replacedEvents),
      c.Recorded source.header record := by
  have keyed := Contents.readSession_id read
  have recorded {record : EventRecord} {event : Event}
      (member : (record, event) ∈ Contents.eventRecords session source.events) : c.Recorded source.header record := by
    obtain ⟨known, own, same⟩ := mem_eventRecords member
    exact ⟨source, keyed.symm ▸ read, event, known, own.trans keyed.symm, same⟩
  unfold Contents.traceEvent at h
  rw [read, Option.bind_some] at h
  obtain ⟨target, found, made⟩ := Option.map_eq_some_iff.mp h
  have spanning {e : EventRecord × (Int × Int)} (member : e ∈ (Contents.eventRecords session source.events).filterMap
      fun e => (Contents.replacedSpan e.2).map fun span => (e.1, span)) : c.Recorded source.header e.1 := by
    obtain ⟨own, known, spanned⟩ := List.mem_filterMap.mp member
    obtain ⟨span, -, same⟩ := Option.map_eq_some_iff.mp spanned
    cases same
    exact recorded known
  cases made
  have chain : ∀ record ∈ List.map (·.1) (List.filter (fun e : EventRecord × (Int × Int) => Contents.inSpan e.2 seq)
      ((Contents.eventRecords session source.events).filterMap
        fun e => (Contents.replacedSpan e.2).map fun span => (e.1, span))), c.Recorded source.header record := by
    intro record member
    obtain ⟨e, kept, same⟩ := List.mem_map.mp member
    cases same
    exact spanning (List.mem_of_mem_filter kept)
  intro record member
  rcases List.mem_cons.mp member with same | member
  · cases same
    exact recorded (List.mem_of_find?_eq_some found)
  · rcases List.mem_append.mp member with chained | replaced
    · rcases List.mem_append.mp chained with last | chained
      · exact chain record (List.mem_of_getLast? (Option.mem_toList.mp last))
      · exact chain record chained
    · obtain ⟨e, kept, inside⟩ := List.mem_flatMap.mp replaced
      obtain ⟨own, known, same⟩ := List.mem_map.mp inside
      cases same
      exact recorded (List.mem_of_mem_filter known)

theorem eventTrace_owes : t.Owes caller (t.eventTrace caller object) := by
  unfold eventTrace
  cases checked : t.readTarget caller object with
  | inr refusal => exact ⟨readTarget_refused checked, trivial⟩
  | inl source =>
      obtain ⟨read, visible⟩ := readTarget_found checked
      dsimp only
      split
      case h_1 => exact ⟨Refused.noSeq, trivial⟩
      case h_2 seq _ =>
        cases traced : t.contents.traceEvent (targetId object caller) seq with
        | none => exact ⟨Refused.noEvent, trivial⟩
        | some trace => exact ⟨⟨source.header, visible, traceEvent_recorded read traced⟩, trivial⟩

theorem readEvent_mem {c : Contents} {session : SessionId} {source : SessionSource} {seq before after : Nat} {found : EventRead}
    (read : c.readSession session = some source) (h : c.readEvent session seq before after = some found) :
    ∀ event ∈ found.target :: (found.before ++ found.after), event ∈ source.events := by
  unfold Contents.readEvent at h
  rw [read, Option.bind_some] at h
  obtain ⟨target, own, made⟩ := Option.map_eq_some_iff.mp h
  cases made
  intro event member
  rcases List.mem_cons.mp member with same | member
  · cases same
    exact List.mem_of_getElem? own
  · rcases List.mem_append.mp member with earlier | later
    · exact List.mem_of_mem_take (List.mem_of_mem_drop earlier)
    · exact List.mem_of_mem_drop (List.mem_of_mem_take later)

theorem eventRead_owes : t.Owes caller (t.eventRead caller object) := by
  unfold eventRead
  cases checked : t.readTarget caller object with
  | inr refusal => exact ⟨readTarget_refused checked, trivial⟩
  | inl source =>
      obtain ⟨read, visible⟩ := readTarget_found checked
      dsimp only
      split
      case h_1 => exact ⟨Refused.noSeq, trivial⟩
      case h_2 seq _ =>
        split
        case h_1 => exact ⟨Refused.noEvent, trivial⟩
        case h_2 found own => exact ⟨⟨source, read, visible, readEvent_mem read own⟩, trivial⟩

theorem requireCaller_ends {session : String} : Ends Refusal (fun caller => ∃ s, t.contents.live.find? session = some s ∧
    caller = { id := s.id, cwd := s.header.cwd }) (t.requireCaller session) := by
  refine Ends.ite (.error Refused.unowned) ?_
  cases found : t.contents.live.find? session with
  | none => exact .error Refused.notEntered
  | some s => exact .ok ⟨s, rfl, rfl⟩

theorem call_owes {t : QueryTools} {tool : QueryTool} {session : String} {arguments : Json} {reply : Reply}
    (h : t.call tool session arguments = some reply) :
    (∃ text, Refused text ∧ reply = .error text) ∨ ∃ s, t.contents.live.find? session = some s ∧
      t.Owes { id := s.id, cwd := s.header.cwd } reply := by
  unfold QueryTools.call at h
  cases object : arguments.ifObject with
  | none =>
      rw [object] at h
      cases h
      exact .inl ⟨_, Refused.noArguments tool, rfl⟩
  | some object =>
      rw [object] at h
      have asked := (requireCaller_ends : Ends Refusal _ (t.requireCaller session))
      cases known : t.requireCaller session with
      | error thrown =>
          rw [known] at h asked
          cases h
          exact .inl ⟨safeError thrown, asked.thrown, rfl⟩
      | ok caller =>
          rw [known] at h asked
          obtain ⟨s, live, same⟩ := asked.value
          cases same
          refine .inr ⟨s, live, ?_⟩
          cases tool with
          | sessionSearch =>
              rw [← Option.some.inj h]
              exact caught_owes sessionSearch_owes
          | eventSearch =>
              rw [← Option.some.inj h]
              exact caught_owes eventSearch_owes
          | sessionTrace => exact sessionTrace_owes h
          | eventTrace =>
              rw [← Option.some.inj h]
              exact eventTrace_owes
          | eventRead =>
              rw [← Option.some.inj h]
              exact eventRead_owes

end QueryTools

/-- Every result is the text of a reply. It is a refusal, or all it shows is of sessions that the calling session
may see; and a search in that session itself shows what precedes its current step. -/
theorem tools_isolated (t : QueryTools) (serialize : Json → String) (tool : QueryTool) (session : String)
    (arguments : Json) (text : String) (h : t.result serialize tool session arguments = some text) :
    ∃ reply, text = reply.present t.clock serialize ∧
      ((∃ refusal, Refused refusal ∧ reply = .error refusal) ∨ ∃ s, t.contents.live.find? session = some s ∧
        t.Isolated { id := s.id, cwd := s.header.cwd } reply ∧ t.Preceding { id := s.id, cwd := s.header.cwd } reply) := by
  obtain ⟨reply, called, shown⟩ := Option.map_eq_some_iff.mp h
  exact ⟨reply, shown.symm, QueryTools.call_owes called⟩

def noteLog : List Event := [{ seq := 0, type := "note", data := .obj [], time := 1 }]

def notedSession (id : SessionId) : Session where
  header := { id, cwd := some "/work" }
  nextSeq := 1
  log := noteLog

/-- Two sessions of one working directory. -/
def twoSessions : Contents where
  live := ((∅ : SortedMap SessionId Session).insert "a" (notedSession "a")).insert "b" (notedSession "b")
  entered := by
    have noted : Canonical noteLog := canonical_nil.concat rfl rfl
    intro id s found
    rw [SortedMap.find?_insert, SortedMap.find?_insert] at found
    split at found
    case isTrue same =>
      cases found
      exact ⟨same.symm, noted, by decide⟩
    case isFalse =>
      split at found
      case isTrue same =>
        cases found
        exact ⟨same.symm, noted, by decide⟩
      case isFalse => cases found
  attached := by
    intro id s found
    cases found

def noClock : Clock where
  parse _ := none
  format _ := ""

def twoSessionsTools : QueryTools where
  contents := twoSessions
  bounded _ := true
  clock := noClock
  fuel := 0

/-- One session reads the note of the other. -/
theorem tools_isolated_read : ∃ reply,
    "Target event seq 0:\n```json\nnote\n```\n" = Reply.present noClock (fun _ => "note") reply ∧
    ((∃ refusal, Refused refusal ∧ reply = .error refusal) ∨ ∃ s, twoSessions.live.find? "a" = some s ∧
      twoSessionsTools.Isolated { id := s.id, cwd := s.header.cwd } reply ∧
      twoSessionsTools.Preceding { id := s.id, cwd := s.header.cwd } reply) :=
  tools_isolated twoSessionsTools (fun _ => "note") .eventRead "a" (.obj [("session_id", .str "b"), ("seq", .int 0)]) _
    (by decide +kernel)

end Araya.Query
