import Araya.Query.Paging

/-!
What a search for sessions leaves out. The hit of the calling session is dropped from a page that is already cut, and the
notice counts what is left; so a full page that holds that hit looks like a complete one.
-/

namespace Araya.Query

open Sessions
open Contents (RanksSessions)

namespace QueryTools

/-- The search that `session_search` makes for a caller of a workspace. -/
def searchRequest (t : QueryTools) (cwd : String) (object : Json.Members) : Except Thrown SessionSearchRequest := do
  let sessionFilters ← buildSessionFilters t.clock object
  let eventFilters ← buildEventFilters t.clock object sessionKeys
  return {
    query := (Json.stringField object "query").getD ""
    sessionFilters := sessionFilters ++ [{ clause := .cwd, values := [cwd] }]
    eventFilters
    limit := t.maxResults }

/-- The hits that `session_search` shows. -/
def shownHits (t : QueryTools) (caller : CallerInfo) (request : SessionSearchRequest) : List SessionSearchHit :=
  ((t.contents.sessionRanking request).take t.maxResults).filter fun hit => hit.session.header.id != caller.id

/-- Every session that matches is listed once, but for the caller's own. -/
structure Complete (t : QueryTools) (caller : CallerInfo) (request : SessionSearchRequest)
    (hits : List (SessionSearchHit × String)) : Prop where
  listed : ∀ record, t.contents.Matches request record → record.header.id ≠ caller.id → ∃ hit ∈ hits, hit.1.session = record
  only : ∀ hit ∈ hits, t.contents.Matches request hit.1.session ∧ hit.1.session.header.id ≠ caller.id
  once : (hits.map (·.1.session.header.id)).Nodup

/-- All that matches fits on a page, or the caller's own session does not rank on the first one. -/
def Unhidden (t : QueryTools) (caller : CallerInfo) (request : SessionSearchRequest) : Prop :=
  (t.contents.sessionRanking request).length ≤ t.maxResults ∨
    ∀ hit ∈ (t.contents.sessionRanking request).take t.maxResults, hit.session.header.id ≠ caller.id

section
variable {t : QueryTools} {caller : CallerInfo} {object : Json.Members} {request : SessionSearchRequest}

theorem mem_shownHits {hit : SessionSearchHit} : hit ∈ t.shownHits caller request ↔
    hit ∈ (t.contents.sessionRanking request).take t.maxResults ∧ hit.session.header.id ≠ caller.id := by
  unfold shownHits
  rw [List.mem_filter, bne_iff_ne]

/-- The first page of a search that goes through. -/
theorem searchSessions_first (positive : 0 < t.maxResults) (limit : request.limit = t.maxResults) (begun : request.cursor = "")
    {found : SessionSearchPage} (searched : t.contents.searchSessions request = .ok found) :
    found.items = (t.contents.sessionRanking request).take t.maxResults := by
  have paged : t.contents.sessionPage request "" = .ok (found.items, found.nextCursor) := by
    unfold Contents.sessionPage
    rw [← begun, searched]
    rfl
  by_cases given : splitWords request.query = []
  · rw [Contents.sessionPage_empty given] at paged
    cases paged
  · rw [Contents.sessionPage_eq given] at paged
    have items : (page (t.contents.sessionRanking request) 0 request.limit).1 = found.items :=
      congrArg Prod.fst (Except.ok.inj paged)
    rw [← items]
    unfold page
    dsimp only
    rw [limit, if_neg (Nat.ne_of_gt positive), List.drop_zero]

/-- A reply is a refusal, or is empty for a caller without a workspace, or shows the first page of the ranking. -/
theorem sessionSearch_shows (positive : 0 < t.maxResults) {reply : Reply} (replied : t.sessionSearch caller object = .ok reply) :
    (∃ text, reply = .error text) ∨ reply = .noSessions ∧ caller.cwd = none ∨
      ∃ cwd request, caller.cwd = some cwd ∧ t.searchRequest cwd object = .ok request ∧
        reply = .sessions ((t.shownHits caller request).map fun hit => (hit, t.titleOf hit.session.header.id))
          (t.maxResults ≤ (t.shownHits caller request).length) := by
  unfold sessionSearch at replied
  dsimp only at replied
  split at replied
  case isTrue =>
    cases replied
    exact .inl ⟨_, rfl⟩
  case isFalse =>
    cases workspace : caller.cwd with
    | none =>
        rw [workspace] at replied
        cases replied
        exact .inr (.inl ⟨rfl, rfl⟩)
    | some cwd =>
        rw [workspace] at replied
        obtain ⟨sessionFilters, sessions, replied⟩ := except_bind replied
        obtain ⟨eventFilters, events, replied⟩ := except_bind replied
        obtain ⟨found, searched, replied⟩ := except_bind replied
        cases replied
        have asked : t.searchRequest cwd object = .ok
            { query := (Json.stringField object "query").getD ""
              sessionFilters := sessionFilters ++ [{ clause := .cwd, values := [cwd] }]
              eventFilters
              limit := t.maxResults } := by
          unfold searchRequest
          rw [sessions, events]
          rfl
        refine .inr (.inr ⟨cwd, _, rfl, asked, ?_⟩)
        have shown := searchSessions_first positive rfl rfl searched
        unfold shownHits
        rw [← shown]

/-- The notice is the end of the text. -/
theorem noticed {hits : List (SessionSearchHit × String)} (some : hits ≠ []) (clock : Clock) (serialize : Json → String) :
    ∃ front, (Reply.sessions hits true).present clock serialize = front ++ capNote true := by
  unfold Reply.present
  dsimp only
  rw [if_neg fun empty => some (List.isEmpty_iff.mp empty)]
  exact ⟨_, rfl⟩

/-- What `session_search` shows of a ranking. -/
def presented (t : QueryTools) (caller : CallerInfo) (request : SessionSearchRequest) : List (SessionSearchHit × String) :=
  (t.shownHits caller request).map fun hit => (hit, t.titleOf hit.session.header.id)

theorem mem_presented {hit : SessionSearchHit × String} (member : hit ∈ t.presented caller request) :
    hit.1 ∈ t.shownHits caller request := by
  obtain ⟨own, shown, rfl⟩ := List.mem_map.mp member
  exact shown

/-- What is shown is complete when the whole ranking is on the page. -/
theorem presented_complete (fits : (t.contents.sessionRanking request).length ≤ t.maxResults) :
    t.Complete caller request (t.presented caller request) where
  listed record found other := by
    obtain ⟨hit, ranked, same⟩ := Contents.ranksSessions.complete record found
    refine ⟨_, List.mem_map_of_mem (mem_shownHits.mpr ⟨?_, ?_⟩), same⟩
    · rwa [List.take_of_length_le fits]
    · rwa [same]
  only hit member := by
    obtain ⟨ranked, other⟩ := mem_shownHits.mp (mem_presented member)
    exact ⟨Contents.ranksSessions.matching _ (List.mem_of_mem_take ranked), other⟩
  once := by
    unfold presented shownHits
    rw [List.map_map]
    exact Contents.ranking_ids.sublist ((List.filter_sublist.trans (List.take_sublist _ _)).map _)

/-- A page that holds the caller's own hit, before others that match, is not full and not complete. -/
theorem presented_short (long : t.maxResults < (t.contents.sessionRanking request).length) {own : SessionSearchHit}
    (ranked : own ∈ (t.contents.sessionRanking request).take t.maxResults) (mine : own.session.header.id = caller.id) :
    (t.shownHits caller request).length < t.maxResults ∧ ¬ t.Complete caller request (t.presented caller request) := by
  constructor
  · have dropped : (t.shownHits caller request).length < ((t.contents.sessionRanking request).take t.maxResults).length := by
      refine List.length_filter_lt_length_iff_exists.mpr ⟨own, ranked, ?_⟩
      rw [mine, bne_self_eq_false]
      exact Bool.false_ne_true
    rw [List.length_take] at dropped
    omega
  · intro complete
    have split := List.take_append_drop t.maxResults (t.contents.sessionRanking request)
    have ids : ((t.contents.sessionRanking request).map (·.session.header.id)).Nodup := Contents.ranking_ids
    rw [← split, List.map_append] at ids
    have apart := List.disjoint_of_nodup_append ids
    obtain ⟨next, beyond⟩ := List.exists_mem_of_length_pos
      (l := (t.contents.sessionRanking request).drop t.maxResults) (by rw [List.length_drop]; omega)
    have other : next.session.header.id ≠ caller.id := fun same =>
      apart (List.mem_map_of_mem ranked) (List.mem_map.mpr ⟨next, beyond, same.trans mine.symm⟩)
    obtain ⟨hit, shown, same⟩ := complete.listed next.session
      (Contents.ranksSessions.matching next (List.mem_of_mem_drop beyond)) other
    have there := (mem_shownHits.mp (mem_presented shown)).1
    exact apart (List.mem_map_of_mem there) (List.mem_map.mpr ⟨next, beyond, congrArg (·.header.id) same.symm⟩)

theorem presented_iff : (decide (t.maxResults ≤ (t.shownHits caller request).length) = false →
    t.Complete caller request (t.presented caller request)) ↔ t.Unhidden caller request := by
  constructor
  · intro unnoticed
    by_contra hidden
    obtain ⟨long, own⟩ := not_or.mp hidden
    push Not at own
    obtain ⟨own, ranked, mine⟩ := own
    obtain ⟨short, incomplete⟩ := presented_short (Nat.lt_of_not_le long) ranked mine
    exact incomplete (unnoticed (decide_eq_false (Nat.not_le_of_lt short)))
  · rintro (fits | foreign) unnoticed
    · exact presented_complete fits
    · refine presented_complete ?_
      have whole : t.shownHits caller request = (t.contents.sessionRanking request).take t.maxResults :=
        List.filter_eq_self.mpr fun hit ranked => bne_iff_ne.mpr (foreign hit ranked)
      have short := of_decide_eq_false unnoticed
      rw [whole, List.length_take] at short
      omega

end

/-- The text of a reply with hits and the notice ends with it; and a reply without the notice is complete exactly when all
that matches fits on a page, or the caller's own session is not among what does. -/
theorem session_search_complete_iff (t : QueryTools) (positive : 0 < t.maxResults) (caller : CallerInfo) (object : Json.Members)
    (reply : Reply) (replied : t.sessionSearch caller object = .ok reply) :
    (∃ text, reply = .error text) ∨ reply = .noSessions ∧ caller.cwd = none ∨
      ∃ cwd request hits capped, caller.cwd = some cwd ∧ t.searchRequest cwd object = .ok request ∧ reply = .sessions hits capped ∧
        (capped = true → ∀ clock serialize, ∃ front, reply.present clock serialize = front ++ capNote true) ∧
        ((capped = false → t.Complete caller request hits) ↔ t.Unhidden caller request) := by
  rcases sessionSearch_shows positive replied with refused | none | ⟨cwd, request, workspace, asked, rfl⟩
  · exact .inl refused
  · exact .inr (.inl none)
  · refine .inr (.inr ⟨cwd, request, t.presented caller request, _, workspace, asked, rfl, fun full => ?_, presented_iff⟩)
    rw [full]
    refine noticed fun empty => ?_
    have shown := of_decide_eq_true full
    rw [List.map_eq_nil_iff.mp empty] at shown
    exact Nat.not_le_of_lt positive shown

end QueryTools

def helloRequest : SessionSearchRequest where
  query := "hello"
  sessionFilters := [{ clause := .cwd, values := ["/work"] }]
  limit := 1

def greetingRecord (id : SessionId) : SessionRecord where
  header := { id, cwd := some "/work" }
  live := true

def greetingHit (id : SessionId) : Contents.RankedHit where
  hit := { session := id, seq := 0, type := "user/message", time := 1, surface := .current, snippet := "hello" }
  count := 1
  textLength := 5

theorem greetings_listed : greetings.listSessions = [greetingRecord "a", greetingRecord "b"] := by
  have records : greetings.recordsById.toList.map (·.2) = [greetingRecord "a", greetingRecord "b"] := rfl
  unfold Contents.listSessions
  rw [records]
  exact List.mergeSort_of_pairwise (by decide)

theorem greeting_hits {source : SessionSource} (log : source.events = greetingLog) :
    Contents.rankEvents source [] (splitWords "hello") = [greetingHit source.header.id] := by
  have classified : classifySurfaces greetingLog = [.current] := by decide +kernel
  have found : findMatches "hello" (splitWords "hello") = { count := 1, first := some 0, length := 5 } := by decide +kernel
  have snippet : makeSnippet "hello" { count := 1, first := some 0, length := 5 } 160 = "hello" := by decide +kernel
  have text : ∀ ev ∈ greetingLog, extractEventText ev = "hello" := by decide +kernel
  have ranked (record : EventRecord) (ev : Event) (member : ev ∈ greetingLog) :
      Contents.rankEvent [] (splitWords "hello") record ev =
        some { hit := { toEventRecord := record, snippet := "hello" }, count := 1, textLength := 5 } := by
    unfold Contents.rankEvent
    dsimp only
    rw [text ev member, found, snippet]
    rfl
  unfold Contents.rankEvents Contents.eventRecords
  rw [log, classified]
  refine Eq.trans (congrArg (List.mergeSort · _) ?_) (List.mergeSort_singleton _)
  exact List.filterMap_cons_some (ranked _ _ List.mem_cons_self)

theorem greetings_ranking : greetings.sessionRanking helloRequest =
    [{ session := greetingRecord "a", bestMatch := (greetingHit "a").hit },
      { session := greetingRecord "b", bestMatch := (greetingHit "b").hit }] := by
  have filtered : greetings.filterSessions helloRequest.sessionFilters = [greetingRecord "a", greetingRecord "b"] := by
    unfold Contents.filterSessions
    rw [greetings_listed]
    rfl
  have hit (id : SessionId) (read : (greetings.readSession id).map (fun s => (s.header.id, s.events)) = some (id, greetingLog)) :
      greetings.sessionHit helloRequest (greetingRecord id) =
        some { session := greetingRecord id, bestMatch := (greetingHit id).hit } := by
    obtain ⟨source, read, same⟩ := Option.map_eq_some_iff.mp read
    obtain ⟨own, log⟩ := Prod.mk.inj same
    unfold Contents.sessionHit
    rw [show greetings.readSession (greetingRecord id).header.id = some source from read, Option.bind_some,
      show Contents.rankEvents source helloRequest.eventFilters (splitWords helloRequest.query) = _ from greeting_hits log, own]
    rfl
  unfold Contents.sessionRanking
  rw [filtered, List.filterMap_cons_some (hit "a" rfl), List.filterMap_cons_some (hit "b" rfl)]
  exact List.mergeSort_of_pairwise (by decide)

/-- Tools that show one hit. -/
def oneResult : QueryTools where
  contents := greetings
  bounded _ := true
  maxResults := 1
  clock := noClock
  fuel := 0

theorem oneResult_searched : ∃ next, oneResult.contents.searchSessions helloRequest = .ok
    { items := [{ session := greetingRecord "a", bestMatch := (greetingHit "a").hit }], nextCursor := next } := by
  have given : ¬ (splitWords helloRequest.query).isEmpty = true := by decide +kernel
  refine ⟨encodeCursor 1, ?_⟩
  unfold Contents.searchSessions
  dsimp only
  rw [if_neg given]
  show Except.ok ({
    items := (page (greetings.sessionRanking helloRequest) 0 1).1
    nextCursor := (page (greetings.sessionRanking helloRequest) 0 1).2 } : SessionSearchPage) = _
  rw [greetings_ranking]
  rfl

theorem oneResult_replied :
    oneResult.sessionSearch { id := "a", cwd := some "/work" } [("query", .str "hello")] = .ok (.sessions [] false) := by
  obtain ⟨next, searched⟩ := oneResult_searched
  unfold QueryTools.sessionSearch
  dsimp only
  rw [if_neg (by decide +kernel)]
  rw [show buildSessionFilters oneResult.clock [("query", .str "hello")] = .ok [] from rfl,
    show buildEventFilters oneResult.clock [("query", .str "hello")] QueryTools.sessionKeys = .ok [] from rfl]
  refine Eq.trans (congrArg (fun found : Except Thrown SessionSearchPage => found >>= fun page : SessionSearchPage =>
    let items := page.items.filter fun hit : SessionSearchHit => hit.session.header.id != "a"
    Except.ok (Reply.sessions (items.map fun hit => (hit, oneResult.titleOf hit.session.header.id)) (decide (1 ≤ items.length))))
    searched) rfl

/-- A session that matches searches, and one hit is shown. -/
theorem session_search_complete_one : ∃ request hits, oneResult.searchRequest "/work" [("query", .str "hello")] = .ok request ∧
    (oneResult.Complete { id := "a", cwd := some "/work" } request hits ↔
      oneResult.Unhidden { id := "a", cwd := some "/work" } request) := by
  rcases QueryTools.session_search_complete_iff oneResult (by decide) { id := "a", cwd := some "/work" } [("query", .str "hello")] _
    oneResult_replied with ⟨_, other⟩ | ⟨other, _⟩ | ⟨cwd, request, hits, capped, workspace, asked, same, -, exactly⟩
  · cases other
  · cases other
  · cases workspace
    cases same
    exact ⟨request, [], asked, fun complete => exactly.mp fun _ => complete, fun unhidden => exactly.mpr unhidden rfl⟩

/-- The search of a session that matches says that nothing does, though another session matches. -/
theorem session_search_hides : oneResult.result (fun _ => "") .sessionSearch "a" (.obj [("query", .str "hello")]) =
      some "No prior session matches found." ∧
    oneResult.searchRequest "/work" [("query", .str "hello")] = .ok helloRequest ∧
      ∃ record, oneResult.contents.Matches helloRequest record ∧ record.header.cwd = some "/work" ∧ record.header.id ≠ "a" := by
  refine ⟨?_, rfl, greetingRecord "b", ?_, rfl, by decide⟩
  · have called : oneResult.call .sessionSearch "a" (.obj [("query", .str "hello")]) = some (.sessions [] false) := by
      show some (caught (oneResult.sessionSearch { id := "a", cwd := some "/work" } [("query", .str "hello")])) = _
      rw [oneResult_replied]
      rfl
    unfold QueryTools.result
    rw [called]
    rfl
  · have ranked : ∀ hit ∈ greetings.sessionRanking helloRequest, greetings.Matches helloRequest hit.session :=
      Contents.ranksSessions.matching
    rw [greetings_ranking] at ranked
    exact ranked { session := greetingRecord "b", bestMatch := (greetingHit "b").hit } (by simp)

end Araya.Query
