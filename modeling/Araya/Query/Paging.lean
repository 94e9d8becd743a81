import Araya.Query.Lineage

/-!
A search read page by page. Each call ranks the hits anew, and a cursor is the number of hits that came before; so the
pages are the ranking, cut into pieces.
-/

namespace Araya.Query

open Sessions

/-- The pages that are read from a cursor on, up to the first that names no other cursor. -/
inductive Pages {α : Type} (search : String → Except Thrown (List α × String)) : String → List (List α) → Prop where
  | last {cursor : String} {items : List α} (read : search cursor = .ok (items, "")) : Pages search cursor [items]
  | more {cursor next : String} {items : List α} {rest : List (List α)} (read : search cursor = .ok (items, next))
      (named : next ≠ "") (follow : Pages search next rest) : Pages search cursor (items :: rest)

/-! Cursors -/

theorem encodeCursor_toList (offset : Nat) : (encodeCursor offset).toList = 'v' :: '1' :: ':' :: (toString offset).toList := by
  unfold encodeCursor
  rw [String.toList_append]
  rfl

theorem encodeCursor_named (offset : Nat) : encodeCursor offset ≠ "" := by
  intro empty
  have chars := congrArg String.toList empty
  rw [encodeCursor_toList] at chars
  cases chars

theorem decimal_value (n : Nat) : (toString n).toList.foldl (fun n c => n * 10 + (c.toNat - '0'.toNat)) 0 = n := by
  rw [Nat.toString_eq_repr, Nat.toList_repr]
  calc (Nat.toDigits 10 n).foldl (fun n c => n * 10 + (c.toNat - '0'.toNat)) 0
      = Nat.ofDigitChars 10 (Nat.toDigits 10 n) 0 := by
        unfold Nat.ofDigitChars
        refine List.foldl_ext _ _ _ fun m c _ => ?_
        rw [Nat.mul_comm]
    _ = n := Nat.ofDigitChars_ten_toDigits

theorem decodeCursor_encode {offset : Nat} (small : offset < 2 ^ 64) : decodeCursor (encodeCursor offset) = .ok offset := by
  have digits : (toString offset).toList.isEmpty = false ∧ (toString offset).toList.all Char.isDigit = true := by
    constructor
    · rw [Nat.toString_eq_repr, Nat.toList_repr]
      exact Bool.eq_false_iff.mpr fun empty => Nat.toDigits_ne_nil (List.isEmpty_iff.mp empty)
    · exact List.all_eq_true.mpr fun c => decimal_digits
  unfold decodeCursor
  rw [encodeCursor_toList]
  show (if ((toString offset).toList.isEmpty || !(toString offset).toList.all Char.isDigit) = true then invalidCursor else
    if (toString offset).toList.foldl (fun n c => n * 10 + (c.toNat - '0'.toNat)) 0 < 2 ^ 64 then
      .ok ((toString offset).toList.foldl (fun n c => n * 10 + (c.toNat - '0'.toNat)) 0) else .error (.other "stoull")) = .ok offset
  rw [digits.1, digits.2, if_neg (by decide), decimal_value, if_pos small]

/-! Pages of a list -/

section
variable {α : Type} {items : List α} {limit : Nat} {search : String → Except Thrown (List α × String)}

/-- The pages of a list, from any place on, are the rest of it. -/
theorem pages_of_list (small : items.length < 2 ^ 64)
    (reads : ∀ cursor, search cursor = (decodeCursor cursor).map fun offset => page items offset limit)
    (left : Nat) {offset : Nat} (inside : items.length - offset ≤ left) {cursor : String}
    (begun : decodeCursor cursor = .ok offset) : ∃ pages, Pages search cursor pages ∧ pages.flatten = items.drop offset := by
  have read : search cursor = .ok (page items offset limit) := by rw [reads, begun]; rfl
  unfold page at read
  dsimp only at read
  generalize size : (if limit = 0 then 20 else limit) = size' at read
  have positive : 0 < size' := by
    split at size <;> omega
  rw [List.length_take, List.length_drop] at read
  by_cases more : offset + min size' (items.length - offset) < items.length
  · rw [if_pos more] at read
    have full : min size' (items.length - offset) = size' := by omega
    rw [full] at read more
    cases left with
    | zero => omega
    | succ left =>
        obtain ⟨pages, rest, whole⟩ := pages_of_list small reads left (by omega)
          (decodeCursor_encode (Nat.lt_trans more small))
        refine ⟨_ :: pages, .more read (encodeCursor_named _) rest, ?_⟩
        rw [List.flatten_cons, whole, ← List.drop_drop, List.take_append_drop]
  · rw [if_neg more] at read
    refine ⟨[_], .last read, ?_⟩
    rw [List.flatten_singleton, List.take_of_length_le]
    rw [List.length_drop]
    omega

end

/-! The rankings -/

namespace Contents

theorem betterEvent_iff {a b : RankedHit} : betterEvent a b = true ↔ b.count < a.count ∨ a.count = b.count ∧
    (a.textLength < b.textLength ∨ a.textLength = b.textLength ∧
      (b.hit.time < a.hit.time ∨ a.hit.time = b.hit.time ∧ b.hit.seq ≤ a.hit.seq)) := by
  unfold betterEvent
  split
  · next count => simp only [decide_eq_true_eq, count, false_and, or_false]
  · next count =>
      rw [not_not] at count
      split
      · next length => simp only [decide_eq_true_eq, count, length, false_and, or_false, Nat.lt_irrefl, true_and, false_or]
      · next length =>
          rw [not_not] at length
          split
          · next time => simp only [decide_eq_true_eq, count, length, time, false_and, or_false, Nat.lt_irrefl, true_and, false_or]
          · next time =>
              rw [not_not] at time
              simp only [decide_eq_true_eq, count, length, time, Nat.lt_irrefl, Int.lt_irrefl, true_and, false_or]

theorem betterEvent_trans (a b c : RankedHit) (ab : betterEvent a b = true) (bc : betterEvent b c = true) : betterEvent a c = true := by
  rw [betterEvent_iff] at ab bc ⊢
  omega

theorem betterEvent_total (a b : RankedHit) : (betterEvent a b || betterEvent b a) = true := by
  rw [Bool.or_eq_true, betterEvent_iff, betterEvent_iff]
  omega

/-- Two events of the same rank have the same number. -/
theorem betterEvent_tie {a b : RankedHit} (ab : betterEvent a b = true) (ba : betterEvent b a = true) : a.hit.seq = b.hit.seq := by
  rw [betterEvent_iff] at ab ba
  omega

theorem betterSession_iff {a b : SessionSearchHit} : betterSession a b = true ↔ b.bestMatch.seq < a.bestMatch.seq ∨
    a.bestMatch.seq = b.bestMatch.seq ∧ a.session.header.id ≤ b.session.header.id := by
  unfold betterSession
  split
  · next seq => simp only [decide_eq_true_eq, seq, false_and, or_false]
  · next seq =>
      rw [not_not] at seq
      simp only [decide_eq_true_eq, seq, Nat.lt_irrefl, true_and, false_or]

theorem betterSession_trans (a b c : SessionSearchHit) (ab : betterSession a b = true) (bc : betterSession b c = true) :
    betterSession a c = true := by
  rw [betterSession_iff] at ab bc ⊢
  rcases ab with ab | ⟨ab, id⟩
  · refine .inl ?_
    rcases bc with bc | ⟨bc, -⟩ <;> omega
  · rcases bc with bc | ⟨bc, id'⟩
    · exact .inl (by omega)
    · exact .inr ⟨ab.trans bc, le_trans id id'⟩

theorem betterSession_total (a b : SessionSearchHit) : (betterSession a b || betterSession b a) = true := by
  rw [Bool.or_eq_true, betterSession_iff, betterSession_iff]
  rcases Nat.lt_trichotomy a.bestMatch.seq b.bestMatch.seq with less | same | more
  · exact .inr (.inl less)
  · rcases le_total a.session.header.id b.session.header.id with le | le
    · exact .inl (.inr ⟨same, le⟩)
    · exact .inr (.inr ⟨same.symm, le⟩)
  · exact .inl (.inl more)

theorem betterSession_tie {a b : SessionSearchHit} (ab : betterSession a b = true) (ba : betterSession b a = true) :
    a.session.header.id = b.session.header.id := by
  rw [betterSession_iff] at ab ba
  rcases ab with ab | ⟨same, ab⟩
  · rcases ba with ba | ⟨same, -⟩ <;> omega
  · exact le_antisymm ab (ba.resolve_left (by omega)).2

/-- The hits of an event search as they are found. -/
def eventHits (source : SessionSource) (filters : List EventFilter) (words : List (List Char)) : List RankedHit :=
  (eventRecords source.header.id source.events).filterMap fun e => rankEvent filters words e.1 e.2

/-- A session that passes the filters and has a hit. -/
structure Matches (c : Contents) (request : SessionSearchRequest) (record : SessionRecord) : Prop where
  listed : record ∈ c.listSessions
  admitted : sessionMatches request.sessionFilters record.header record.live record.persisted = true
  found : ∃ source, c.readSession record.header.id = some source ∧
    eventHits source request.eventFilters (splitWords request.query) ≠ []

/-- The ranking of a search for sessions: each that matches stands there once, with its best event, and the better of
two stands first. -/
structure RanksSessions (c : Contents) (request : SessionSearchRequest) (hits : List SessionSearchHit) : Prop where
  matching : ∀ hit ∈ hits, c.Matches request hit.session
  best : ∀ hit ∈ hits, ∃ source, c.readSession hit.session.header.id = some source ∧
    ∃ r ∈ eventHits source request.eventFilters (splitWords request.query), r.hit = hit.bestMatch ∧
      ∀ r' ∈ eventHits source request.eventFilters (splitWords request.query), betterEvent r r' = true
  once : (hits.map (·.session.header.id)).Nodup
  complete : ∀ record, c.Matches request record → ∃ hit ∈ hits, hit.session = record
  ordered : hits.Pairwise fun a b => betterSession b a = false

/-- The ranking of a search for events: all the hits, the better of two first; equals have one number in the log. -/
structure RanksEvents (source : SessionSource) (request : EventSearchRequest) (hits : List EventSearchHit) : Prop where
  ranked : ∃ ranked : List RankedHit, hits = ranked.map (·.hit) ∧
    ranked.Perm (eventHits source request.filters (splitWords request.query)) ∧
    ranked.Pairwise fun a b => betterEvent a b = true ∧ (betterEvent b a = true → a.hit.seq = b.hit.seq)

section
variable {c : Contents} {source : SessionSource} {filters : List EventFilter} {words : List (List Char)}

theorem rankEvents_perm : (rankEvents source filters words).Perm (eventHits source filters words) := List.mergeSort_perm _ _

theorem rankEvents_ordered : (rankEvents source filters words).Pairwise fun a b => betterEvent a b = true :=
  List.pairwise_mergeSort betterEvent_trans betterEvent_total _

/-- The first of the ranked hits is the best. -/
theorem rankEvents_head {r : RankedHit} (first : (rankEvents source filters words).head? = some r) :
    r ∈ eventHits source filters words ∧ ∀ r' ∈ eventHits source filters words, betterEvent r r' = true := by
  refine ⟨rankEvents_perm.mem_iff.mp (List.mem_of_mem_head? first), fun r' member => ?_⟩
  have ordered : (rankEvents source filters words).Pairwise fun a b => betterEvent a b = true := rankEvents_ordered
  have member := rankEvents_perm.mem_iff.mpr member
  cases ranked : rankEvents source filters words with
  | nil =>
      rw [ranked] at first
      cases first
  | cons best others =>
      rw [ranked] at first ordered member
      cases first
      rcases List.mem_cons.mp member with rfl | later
      · have self := betterEvent_total r' r'
        rwa [Bool.or_self] at self
      · exact (List.pairwise_cons.mp ordered).1 r' later

/-- What a search makes of one session. -/
def sessionHit (c : Contents) (request : SessionSearchRequest) (record : SessionRecord) : Option SessionSearchHit :=
  (c.readSession record.header.id).bind fun source =>
    (rankEvents source request.eventFilters (splitWords request.query)).head?.map fun best =>
      { session := record, bestMatch := best.hit }

/-- All the hits of a search for sessions, in their order. -/
def sessionRanking (c : Contents) (request : SessionSearchRequest) : List SessionSearchHit :=
  ((c.filterSessions request.sessionFilters).filterMap (c.sessionHit request)).mergeSort betterSession

variable {request : SessionSearchRequest} {record : SessionRecord} {hit : SessionSearchHit}

theorem sessionHit_eq (made : c.sessionHit request record = some hit) : hit.session = record ∧
    ∃ source, c.readSession record.header.id = some source ∧
      ∃ r, (rankEvents source request.eventFilters (splitWords request.query)).head? = some r ∧ r.hit = hit.bestMatch := by
  obtain ⟨source, read, made⟩ := Option.bind_eq_some_iff.mp made
  obtain ⟨best, first, made⟩ := Option.map_eq_some_iff.mp made
  cases made
  exact ⟨rfl, source, read, best, first, rfl⟩

theorem mem_sessionRanking : hit ∈ c.sessionRanking request ↔
    hit.session ∈ c.filterSessions request.sessionFilters ∧ c.sessionHit request hit.session = some hit := by
  unfold sessionRanking
  rw [List.mem_mergeSort, List.mem_filterMap]
  constructor
  · rintro ⟨record, listed, made⟩
    rw [(sessionHit_eq made).1]
    exact ⟨listed, made⟩
  · rintro ⟨listed, made⟩
    exact ⟨hit.session, listed, made⟩

theorem hits_sublist (records : List SessionRecord) :
    ((records.filterMap (c.sessionHit request)).map (·.session.header.id)).Sublist (listedIds records) := by
  induction records with
  | nil => exact List.Sublist.slnil
  | cons record records ih =>
      cases made : c.sessionHit request record with
      | none =>
          rw [List.filterMap_cons_none made]
          exact ih.cons _
      | some hit =>
          rw [List.filterMap_cons_some made, List.map_cons, (sessionHit_eq made).1]
          exact ih.cons_cons _

theorem ranking_ids : ((c.sessionRanking request).map (·.session.header.id)).Nodup := by
  have filtered : (listedIds (c.filterSessions request.sessionFilters)).Sublist (listedIds c.listSessions) :=
    List.filter_sublist.map _
  have whole : (((c.filterSessions request.sessionFilters).filterMap (c.sessionHit request)).map (·.session.header.id)).Nodup :=
    (listed_distinct c).sublist ((hits_sublist (c.filterSessions request.sessionFilters)).trans filtered)
  exact ((List.mergeSort_perm _ _).map _).nodup_iff.mpr whole

theorem ranksSessions : c.RanksSessions request (c.sessionRanking request) where
  matching hit member := by
    obtain ⟨listed, made⟩ := mem_sessionRanking.mp member
    obtain ⟨listed, admitted⟩ := List.mem_filter.mp listed
    obtain ⟨-, source, read, r, first, -⟩ := sessionHit_eq made
    exact ⟨listed, admitted, source, read, List.ne_nil_of_mem (rankEvents_head first).1⟩
  best hit member := by
    obtain ⟨-, made⟩ := mem_sessionRanking.mp member
    obtain ⟨-, source, read, r, first, same⟩ := sessionHit_eq made
    obtain ⟨found, best⟩ := rankEvents_head first
    exact ⟨source, read, r, found, same, best⟩
  once := ranking_ids
  complete record found := by
    obtain ⟨source, read, some⟩ := found.found
    have ranked : rankEvents source request.eventFilters (splitWords request.query) ≠ [] := fun empty =>
      some (List.perm_nil.mp (empty ▸ rankEvents_perm.symm))
    have made : ∃ hit, c.sessionHit request record = Option.some hit := by
      unfold sessionHit
      rw [read, Option.bind_some, List.head?_eq_some_head ranked]
      exact ⟨_, rfl⟩
    obtain ⟨hit, made⟩ := made
    have same : hit.session = record := (sessionHit_eq made).1
    refine ⟨hit, mem_sessionRanking.mpr ⟨?_, same ▸ made⟩, same⟩
    exact List.mem_filter.mpr ⟨same ▸ found.listed, same ▸ found.admitted⟩
  ordered := by
    have sorted : (c.sessionRanking request).Pairwise fun a b => betterSession a b = true :=
      List.pairwise_mergeSort betterSession_trans betterSession_total _
    have distinct : (c.sessionRanking request).Pairwise fun a b => a.session.header.id ≠ b.session.header.id :=
      List.pairwise_map.mp ranking_ids
    refine (sorted.and distinct).imp fun both => Bool.eq_false_iff.mpr fun back => ?_
    exact both.2 (betterSession_tie both.1 back)

theorem ranksEvents {request : EventSearchRequest} : RanksEvents source request
    ((rankEvents source request.filters (splitWords request.query)).map (·.hit)) :=
  ⟨_, rfl, rankEvents_perm, rankEvents_ordered.imp fun ab => ⟨ab, betterEvent_tie ab⟩⟩

end

/-- The sessions, and the events of each, are held in memory. -/
structure Held (c : Contents) : Prop where
  sessions : c.listSessions.length < 2 ^ 64
  events : ∀ id source, c.readSession id = some source → source.events.length < 2 ^ 64

/-- A page of a search for sessions, by its cursor. -/
def sessionPage (c : Contents) (request : SessionSearchRequest) (cursor : String) :
    Except Thrown (List SessionSearchHit × String) :=
  (c.searchSessions { request with cursor }).map fun page => (page.items, page.nextCursor)

def eventPage (c : Contents) (request : EventSearchRequest) (cursor : String) : Except Thrown (List EventSearchHit × String) :=
  (c.searchEvents { request with cursor }).map fun page => (page.items, page.nextCursor)

def refusedQuery {α : Type} : Except Thrown α := .error (.query .invalidQuery "query must not be empty")

section
variable {c : Contents}

theorem sessionPage_empty {request : SessionSearchRequest} (empty : splitWords request.query = []) (cursor : String) :
    c.sessionPage request cursor = refusedQuery := by
  unfold sessionPage searchSessions
  dsimp only
  rw [empty, if_pos List.isEmpty_nil]
  rfl

theorem sessionPage_eq {request : SessionSearchRequest} (given : splitWords request.query ≠ []) (cursor : String) :
    c.sessionPage request cursor =
      (decodeCursor cursor).map fun offset => page (c.sessionRanking request) offset request.limit := by
  unfold sessionPage searchSessions
  dsimp only
  rw [if_neg fun empty => given (List.isEmpty_iff.mp empty)]
  cases decodeCursor cursor <;> rfl

theorem eventPage_empty {request : EventSearchRequest} (empty : splitWords request.query = []) (cursor : String) :
    c.eventPage request cursor = refusedQuery := by
  unfold eventPage searchEvents
  dsimp only
  rw [empty, if_pos List.isEmpty_nil]
  rfl

theorem eventPage_eq {request : EventSearchRequest} (given : splitWords request.query ≠ []) {source : SessionSource}
    (read : c.readSession request.session = some source) (cursor : String) : c.eventPage request cursor =
      (decodeCursor cursor).map fun offset =>
        page ((rankEvents source request.filters (splitWords request.query)).map (·.hit)) offset request.limit := by
  unfold eventPage searchEvents
  dsimp only
  rw [if_neg fun empty => given (List.isEmpty_iff.mp empty), read]
  cases decodeCursor cursor <;> rfl

theorem eventPage_unknown {request : EventSearchRequest} (given : splitWords request.query ≠ [])
    (read : c.readSession request.session = none) (cursor : String) : c.eventPage request cursor =
      .error (.query .sessionNotFound ("session not found: " ++ request.session)) := by
  unfold eventPage searchEvents
  dsimp only
  rw [if_neg fun empty => given (List.isEmpty_iff.mp empty), read]
  rfl

theorem ranking_length (request : SessionSearchRequest) : (c.sessionRanking request).length ≤ c.listSessions.length := by
  unfold sessionRanking filterSessions
  rw [List.length_mergeSort]
  exact (List.length_filterMap_le _ _).trans (List.length_filter_le _ _)

theorem rankEvents_length {source : SessionSource} {filters : List EventFilter} {words : List (List Char)} :
    (rankEvents source filters words).length ≤ source.events.length := by
  unfold rankEvents eventRecords classifySurfaces
  rw [List.length_mergeSort]
  refine (List.length_filterMap_le _ _).trans ?_
  rw [List.length_map, List.length_zip, List.length_map, Nat.min_self]

end

end Contents

/-- The pages of a search, from the empty cursor on, come to an end, and are a ranking in a row. -/
def Exhausts {α : Type} (search : String → Except Thrown (List α × String)) (ranks : List α → Prop) : Prop :=
  ∃ pages, Pages search "" pages ∧ ranks pages.flatten

open Contents in
/-- A search is refused at every cursor, or its pages are the ranking of all that matches, whatever their size. -/
theorem paging_exhaustive (c : Contents) (held : c.Held) :
    (∀ request : SessionSearchRequest,
      (splitWords request.query = [] ∧ ∀ cursor, c.sessionPage request cursor = refusedQuery) ∨
        Exhausts (c.sessionPage request) (c.RanksSessions request)) ∧
    ∀ request : EventSearchRequest,
      (splitWords request.query = [] ∧ ∀ cursor, c.eventPage request cursor = refusedQuery) ∨
        (c.readSession request.session = none ∧ ∀ cursor, c.eventPage request cursor =
          .error (.query .sessionNotFound ("session not found: " ++ request.session))) ∨
        ∃ source, c.readSession request.session = some source ∧ Exhausts (c.eventPage request) (RanksEvents source request) := by
  constructor
  · intro request
    by_cases given : splitWords request.query = []
    · exact .inl ⟨given, sessionPage_empty given⟩
    · obtain ⟨pages, read, whole⟩ := pages_of_list ((ranking_length request).trans_lt held.sessions) (sessionPage_eq given) _
        (Nat.le_refl _) (rfl : decodeCursor "" = .ok 0)
      exact .inr ⟨pages, read, whole ▸ ranksSessions⟩
  · intro request
    by_cases given : splitWords request.query = []
    · exact .inl ⟨given, eventPage_empty given⟩
    · cases found : c.readSession request.session with
      | none => exact .inr (.inl ⟨rfl, eventPage_unknown given found⟩)
      | some source =>
          have small : ((rankEvents source request.filters (splitWords request.query)).map (·.hit)).length < 2 ^ 64 := by
            rw [List.length_map]
            exact rankEvents_length.trans_lt (held.events _ _ found)
          obtain ⟨pages, read, whole⟩ := pages_of_list small (eventPage_eq given found) _ (Nat.le_refl _)
            (rfl : decodeCursor "" = .ok 0)
          exact .inr (.inr ⟨source, rfl, pages, read, whole ▸ ranksEvents⟩)

def greetingLog : List Event := [{
  seq := 0
  type := "user/message"
  data := .obj [("id", .str "m"), ("role", .str "user"),
    ("content", .arr [.obj [("type", .str "text"), ("text", .str "hello")]])]
  time := 1 }]

def greetedSession (id : SessionId) : Session where
  header := { id, cwd := some "/work" }
  nextSeq := 1
  log := greetingLog

theorem entered_greetings (id : SessionId) (s : Session)
    (found : (((∅ : SortedMap SessionId Session).insert "a" (greetedSession "a")).insert "b" (greetedSession "b")).find? id = some s) :
    s.id = id ∧ Canonical s.log ∧ s.log.length < 2 ^ 63 := by
  have canonical : Canonical greetingLog := canonical_nil.concat rfl rfl
  rw [SortedMap.find?_insert, SortedMap.find?_insert] at found
  split at found
  · next same =>
      cases found
      exact ⟨same.symm, canonical, by decide⟩
  · split at found
    · next same =>
        cases found
        exact ⟨same.symm, canonical, by decide⟩
    · cases found

/-- Two sessions of one working directory with a message each. -/
def greetings : Contents where
  live := ((∅ : SortedMap SessionId Session).insert "a" (greetedSession "a")).insert "b" (greetedSession "b")
  entered := entered_greetings
  attached := attached_of_none

theorem greetings_held : greetings.Held where
  sessions := by
    unfold Contents.listSessions
    rw [List.length_mergeSort, List.length_map]
    decide +kernel
  events id source read := by
    have log : source.events = greetingLog := by
      unfold Contents.readSession greetings at read
      rw [SortedMap.find?_insert, SortedMap.find?_insert] at read
      split at read
      · next found =>
          cases read
          split at found
          · cases found
            rfl
          · split at found <;> cases found
            rfl
      · cases read
    rw [log]
    decide

/-- A search over both, one to a page. -/
theorem paging_exhaustive_greetings :
    Exhausts (greetings.sessionPage { query := "hello", limit := 1 }) (greetings.RanksSessions { query := "hello", limit := 1 }) :=
  ((paging_exhaustive greetings greetings_held).1 { query := "hello", limit := 1 }).resolve_left fun refused =>
    absurd refused.1 (by decide +kernel)

end Araya.Query
