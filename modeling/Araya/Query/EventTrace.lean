import Araya.Query.Isolation
import Araya.Query.Lineage
import Araya.Session.Succession

/-!
The trace of an event against the history of the surface. The trace reads the spans of the replacements and
never asks which nodes were there; so it is right for the events that are spanned at most once.
-/

namespace Araya.Query

open Sessions
open SessionStore (foldLog)

/-- The span that event `k` names holds `j`. -/
def covers (log : List Event) (k j : Nat) : Bool :=
  log[k]?.any fun ev => (Contents.replacedSpan ev).any fun span => decide (span.1 ≤ (j : Int)) && decide ((j : Int) < span.2)

/-- What the trace of an event should say of the history of its surface. -/
structure Historic (ps : List MessageProjection) (log : List Event) (j : Nat) (trace : EventTrace) : Prop where
  replacedBy : ∀ k, trace.replacedBy.map (·.seq) = some k ↔ RemovedBy ps log k j
  chain : Succession ps log j (trace.replacementChain.map (·.seq))
  once : (trace.replacedEvents.map (·.seq)).Nodup
  replaced : ∀ i, i ∈ trace.replacedEvents.map (·.seq) ↔ RemovedBy ps log j i

/-- An event that is spanned is spanned once, by a replacement that finds its node there and whose own node stays;
one that spans others is the first to span them, and they all have nodes. -/
structure Flat (ps : List MessageProjection) (log : List Event) (j : Nat) : Prop where
  within : ∀ k, covers log k j = true → noded ps log j = true ∧ strikes ps log k j = true ∧
    (∀ i, covers log i j = true → i = k) ∧ (noded ps log k = true → ∀ i, strikes ps log i k = false)
  spanning : ∀ i, covers log j i = true → noded ps log i = true ∧ strikes ps log j i = true ∧
    ∀ k < j, strikes ps log k i = false

section
variable {ps : List MessageProjection} {log : List Event} {ev : Event} {s : Surface} {i j k : Nat}

/-! Spans -/

theorem optIntField_of_intField {o : Json.Members} {key : String} {n : Int} (found : Json.intField o key = some n) :
    Json.optIntField o key = some n := by
  obtain ⟨value, there, int⟩ := Option.bind_eq_some_iff.mp found
  unfold Json.optIntField
  rw [there]
  cases value <;> cases int
  rfl

/-- A valid replacement names a span before it. -/
theorem replacedSpan_valid (valid : ev.Valid) (type : ev.type = "surface/replace") : ∃ o start stop,
    ev.data.ifObject = some o ∧ Json.intField o "start_seq" = some start ∧ Json.intField o "end_seq" = some stop ∧
      Contents.replacedSpan ev = some (start, stop) ∧ 0 ≤ start ∧ start < stop ∧ stop ≤ (ev.seq : Int) := by
  have checked : validateReplace ev = .ok () := by
    unfold Event.Valid validateEvent at valid
    rwa [type, if_neg (by decide), if_pos rfl] at valid
  obtain ⟨o, object, checked⟩ := except_bind checked
  obtain ⟨start, hstart, checked⟩ := except_bind checked
  obtain ⟨stop, hstop, checked⟩ := except_bind checked
  obtain ⟨_, ordered, checked⟩ := except_bind checked
  obtain ⟨_, past, -⟩ := except_bind checked
  have both := Bool.and_eq_true_iff.mp (of_ensure ordered)
  have spanned : Contents.replacedSpan ev = some (start, stop) := by
    unfold Contents.replacedSpan
    rw [if_pos type, of_need object]
    show ((Json.optIntField o "start_seq").bind fun start => (Json.optIntField o "end_seq").bind fun stop =>
      some (start, stop)) = _
    rw [optIntField_of_intField (of_need hstart), optIntField_of_intField (of_need hstop)]
    rfl
  exact ⟨o, start, stop, of_need object, of_need hstart, of_need hstop, spanned, of_decide_eq_true both.1,
    of_decide_eq_true both.2, of_decide_eq_true (of_ensure past)⟩

theorem covers_iff : covers log k j = true ↔
    ∃ ev span, log[k]? = some ev ∧ Contents.replacedSpan ev = some span ∧ span.1 ≤ (j : Int) ∧ (j : Int) < span.2 := by
  unfold covers
  simp only [Option.any_eq_true, Bool.and_eq_true, decide_eq_true_eq]
  constructor
  · rintro ⟨ev, found, span, named, inside⟩
    exact ⟨ev, span, found, named, inside⟩
  · rintro ⟨ev, span, found, named, inside⟩
    exact ⟨ev, found, span, named, inside⟩

theorem replacedSpan_type {span : Int × Int} (named : Contents.replacedSpan ev = some span) : ev.type = "surface/replace" := by
  unfold Contents.replacedSpan at named
  split at named
  · next type => exact type
  · cases named

theorem covers_later (canonical : Canonical log) (covers : covers log k j = true) : j < k := by
  obtain ⟨ev, span, found, named, -, inside⟩ := covers_iff.mp covers
  obtain ⟨seq, valid⟩ := canonical k ev found
  obtain ⟨o, start, stop, -, -, -, spanned, -, -, past⟩ := replacedSpan_valid valid (replacedSpan_type named)
  cases Option.some.inj (named.symm.trans spanned)
  rw [seq] at past
  exact Int.ofNat_lt.mp (inside.trans_le past)

/-- What a replacement replaces is in the span it names. -/
theorem covers_of_strikes (canonical : Canonical log) (small : log.length < 2 ^ 63) (struck : strikes ps log k j = true) :
    covers log k j = true := by
  obtain ⟨ev, found, spans⟩ := (Option.any_eq_true _ _).mp struck
  obtain ⟨seq, valid⟩ := canonical k ev found
  obtain ⟨type, o, object, spans⟩ := foldBuiltin_spans (planned_spans spans)
  obtain ⟨o', start, stop, object', hstart, hstop, named, low, ordered, past⟩ := replacedSpan_valid valid type
  cases Option.some.inj (object.symm.trans object')
  have short := (List.getElem?_eq_some_iff.mp found).1
  refine covers_iff.mpr ⟨ev, (start, stop), found, named, ?_⟩
  unfold foldReplace at spans
  rw [hstart, hstop] at spans
  have inside : toSeq start ≤ j ∧ j < toSeq stop := of_decide_eq_true spans
  unfold toSeq at inside
  dsimp only
  omega

/-! The trace -/

theorem eventRecords_seqs (canonical : Canonical log) (session : SessionId) :
    (Contents.eventRecords session log).map (·.1.seq) = List.range log.length := by
  have whole : (log.zip (classifySurfaces log)).map Prod.fst = log :=
    List.map_fst_zip (by unfold classifySurfaces; rw [List.length_map])
  have seqs : (Contents.eventRecords session log).map (·.1.seq) = log.map (·.seq) := by
    unfold Contents.eventRecords
    rw [List.map_map]
    exact (List.map_map.symm.trans (congrArg (List.map (·.seq)) whole) : _)
  rw [seqs]
  refine List.ext_getElem? fun n => ?_
  rw [List.getElem?_map]
  by_cases short : n < log.length
  · have found := List.getElem?_eq_getElem short
    rw [found, List.getElem?_range short, Option.map_some, (canonical n _ found).1]
  · have none : (List.range log.length)[n]? = none := List.getElem?_eq_none (by rwa [List.length_range, ← Nat.not_lt])
    rw [List.getElem?_eq_none (Nat.not_lt.mp short), none]
    rfl

theorem record_found (canonical : Canonical log) {session : SessionId} {e : EventRecord × Event}
    (member : e ∈ Contents.eventRecords session log) : log[e.1.seq]? = some e.2 := by
  obtain ⟨known, -, seq, -⟩ := @mem_eventRecords session log e.1 e.2 member
  obtain ⟨n, found⟩ := List.mem_iff_getElem?.mp known
  rw [seq, (canonical n _ found).1]
  exact found

theorem covers_record (canonical : Canonical log) {session : SessionId} {e : EventRecord × Event}
    (member : e ∈ Contents.eventRecords session log) (short : j < 2 ^ 63) :
    covers log e.1.seq j = (Contents.replacedSpan e.2).any (Contents.inSpan · j) := by
  unfold covers Contents.inSpan
  rw [record_found canonical member, toInt64_of_lt short]
  rfl

/-- The only record of a number. -/
theorem filter_seq {records : List (EventRecord × Event)} {n : Nat} (seqs : records.map (·.1.seq) = List.range n)
    {target : EventRecord × Event} (found : records.find? (fun e => e.1.seq == j) = some target) :
    records.filter (fun e => e.1.seq == j) = [target] := by
  obtain ⟨own, before, after, rfl, others⟩ := List.find?_eq_some_iff_append.mp found
  have distinct : ((before ++ target :: after).map (·.1.seq)).Nodup := seqs ▸ List.nodup_range
  rw [List.map_append, List.map_cons] at distinct
  have later := (List.nodup_cons.mp (List.nodup_append.mp distinct).2.1).1
  rw [List.filter_append, List.filter_cons_of_pos (p := fun e : EventRecord × Event => e.1.seq == j) own,
    List.filter_eq_nil_iff.mpr, List.filter_eq_nil_iff.mpr, List.nil_append]
  · intro e member same
    refine later (List.mem_map.mpr ⟨e, member, ?_⟩)
    exact (beq_iff_eq.mp same).trans (beq_iff_eq.mp own).symm
  · intro e member same
    exact absurd same (by simpa using others e member)

/-- The replacements whose spans pass a test. -/
theorem spans_seqs {records : List (EventRecord × Event)} {p : Int × Int → Bool} {q : Nat → Bool}
    (agree : ∀ e ∈ records, q e.1.seq = (Contents.replacedSpan e.2).any p) :
    (((records.filterMap fun e => (Contents.replacedSpan e.2).map fun span => (e.1, span)).filter fun e => p e.2).map
      (·.1)).map (·.seq) = (records.map (·.1.seq)).filter q := by
  induction records with
  | nil => rfl
  | cons e records ih =>
      have rest := ih fun e member => agree e (List.mem_cons_of_mem _ member)
      have own := agree e List.mem_cons_self
      rw [List.filterMap_cons, List.map_cons, List.filter_cons, own, ← rest]
      cases Contents.replacedSpan e.2 with
      | none => rfl
      | some span =>
          dsimp only [Option.map_some, Option.any_some]
          rw [List.filter_cons]
          by_cases passes : p span = true
          · rw [if_pos passes, if_pos passes]
            rfl
          · rw [if_neg passes, if_neg passes]

theorem spans_filter (records : List (EventRecord × Event)) (j : Nat) :
    (records.filterMap fun e => (Contents.replacedSpan e.2).map fun span => (e.1, span)).filter (fun e => e.1.seq == j) =
      (records.filter fun e => e.1.seq == j).filterMap fun e => (Contents.replacedSpan e.2).map fun span => (e.1, span) := by
  rw [List.filter_filterMap, List.filterMap_filter]
  refine List.filterMap_congr fun e _ => ?_
  cases Contents.replacedSpan e.2 with
  | none => cases e.1.seq == j <;> rfl
  | some span => rfl

/-- The numbers in a trace: those of the spans around the event, and those in its own span. -/
theorem traceEvent_seqs {c : Contents} {session : SessionId} {source : SessionSource} (read : c.readSession session = some source)
    (canonical : Canonical source.events) (small : source.events.length < 2 ^ 63) (there : j < source.events.length) :
    ∃ trace, c.traceEvent session j = some trace ∧
      trace.replacementChain.map (·.seq) = (List.range source.events.length).filter (covers source.events · j) ∧
      trace.replacedBy.map (·.seq) = ((List.range source.events.length).filter (covers source.events · j)).getLast? ∧
      trace.replacedEvents.map (·.seq) = (List.range source.events.length).filter (covers source.events j ·) := by
  have seqs := eventRecords_seqs canonical session
  have found : ∃ target, (Contents.eventRecords session source.events).find? (fun e => e.1.seq == j) = some target := by
    refine Option.isSome_iff_exists.mp (List.find?_isSome.mpr ?_)
    have member : j ∈ (Contents.eventRecords session source.events).map (·.1.seq) := seqs ▸ List.mem_range.mpr there
    obtain ⟨e, member, same⟩ := List.mem_map.mp member
    exact ⟨e, member, beq_iff_eq.mpr same⟩
  obtain ⟨target, found⟩ := found
  have own : target.1.seq = j := beq_iff_eq.mp (List.find?_some (p := fun e : EventRecord × Event => e.1.seq == j) found)
  have chained := spans_seqs (p := (Contents.inSpan · j)) (q := (covers source.events · j))
    fun e (member : e ∈ Contents.eventRecords session source.events) => covers_record canonical member (there.trans small)
  rw [seqs] at chained
  unfold Contents.traceEvent
  rw [read, Option.bind_some]
  dsimp only
  rw [found, Option.map_some]
  refine ⟨_, rfl, ?_, ?_, ?_⟩
  · exact chained
  · exact List.getLast?_map.symm.trans (congrArg List.getLast? chained)
  · have within : ∀ i ∈ List.range source.events.length,
        covers source.events j i = (Contents.replacedSpan target.2).any (Contents.inSpan · i) := by
      intro i short
      rw [← own]
      exact covers_record canonical (List.mem_of_find?_eq_some found) ((List.mem_range.mp short).trans small)
    rw [spans_filter, filter_seq seqs found]
    cases named : Contents.replacedSpan target.2 with
    | none =>
        have outside : (List.range source.events.length).filter (covers source.events j ·) = [] := by
          refine List.filter_eq_nil_iff.mpr fun i member => ?_
          rw [within i member, named, Option.any_none]
          exact Bool.false_ne_true
        rw [List.filterMap_cons_none (by rw [named]; rfl), outside]
        rfl
    | some span =>
        have inside : ∀ i ∈ List.range source.events.length, covers source.events j i = Contents.inSpan span i := by
          intro i member
          rw [within i member, named, Option.any_some]
        rw [List.filterMap_cons_some (by rw [named]; rfl), List.filterMap_nil, List.flatMap_singleton,
          List.filter_congr inside, List.map_map, ← seqs, List.filter_map]
        simp only [Function.comp_def]

/-! The history -/

theorem covers_bound (covers : covers log k j = true) : k < log.length := by
  obtain ⟨ev, -, found, -⟩ := covers_iff.mp covers
  exact (List.getElem?_eq_some_iff.mp found).1

theorem mem_covering : k ∈ (List.range log.length).filter (covers log · j) ↔ covers log k j = true :=
  List.mem_filter.trans (and_iff_right_of_imp fun covers => List.mem_range.mpr (covers_bound covers))

theorem mem_covered (canonical : Canonical log) : i ∈ (List.range log.length).filter (covers log j ·) ↔ covers log j i = true :=
  List.mem_filter.trans (and_iff_right_of_imp fun covers =>
    List.mem_range.mpr ((covers_later canonical covers).trans (covers_bound covers)))

theorem not_removed_of_uncovered (canonical : Canonical log) (small : log.length < 2 ^ 63) (folded : foldLog ps log {} = .ok s)
    (none : ∀ k, covers log k j = false) : ¬ RemovedBy ps log k j := by
  intro removed
  obtain ⟨-, struck, -⟩ := (removedBy_iff canonical folded).mp removed
  exact Bool.eq_false_iff.mp (none k) (covers_of_strikes canonical small struck)

/-- The spans around an event against the history of its node. -/
theorem within_iff (canonical : Canonical log) (small : log.length < 2 ^ 63) (folded : foldLog ps log {} = .ok s) :
    (Succession ps log j ((List.range log.length).filter (covers log · j)) ∧
      ∀ k, ((List.range log.length).filter (covers log · j)).getLast? = some k ↔ RemovedBy ps log k j) ↔
    ∀ k, covers log k j = true → noded ps log j = true ∧ strikes ps log k j = true ∧
      (∀ i, covers log i j = true → i = k) ∧ (noded ps log k = true → ∀ i, strikes ps log i k = false) := by
  have mem : ∀ k, k ∈ (List.range log.length).filter (covers log · j) ↔ covers log k j = true := fun k => mem_covering
  have sorted : ((List.range log.length).filter (covers log · j)).Pairwise (· < ·) := List.pairwise_lt_range.filter _
  generalize (List.range log.length).filter (covers log · j) = around at mem sorted
  constructor
  · rintro ⟨succession, last⟩ k spanned
    cases succession with
    | kept _ => exact absurd ((mem k).mpr spanned) List.not_mem_nil
    | @removed _ first chain remover rest =>
        have alone : chain = [] := by
          refine List.eq_nil_iff_forall_not_mem.mpr fun i member => ?_
          have ends : (first :: chain).getLast? = some first := (last first).mpr remover
          rw [List.getLast?_cons_of_ne_nil (List.ne_nil_of_mem member)] at ends
          exact Nat.lt_irrefl _ ((List.pairwise_cons.mp sorted).1 first (List.mem_of_getLast? ends))
        rw [alone] at mem rest
        cases List.mem_singleton.mp ((mem k).mpr spanned)
        obtain ⟨node, struck, -⟩ := (removedBy_iff canonical folded).mp remover
        refine ⟨node, struck, fun i also => List.mem_singleton.mp ((mem i).mpr also), fun own i => ?_⟩
        cases rest with
        | kept never =>
            refine Bool.eq_false_iff.mpr fun later => ?_
            obtain ⟨l, removed⟩ := (exists_remover canonical folded).mpr ⟨own, i, later⟩
            exact never l removed
  · intro within
    cases around with
    | nil =>
        have none : ∀ k, covers log k j = false := fun k => Bool.eq_false_iff.mpr fun spanned =>
          List.not_mem_nil ((mem k).mpr spanned)
        have never (k : Nat) : ¬ RemovedBy ps log k j := not_removed_of_uncovered canonical small folded none
        exact ⟨.kept never, fun k => ⟨fun last => (by cases last), fun removed => (never k removed).elim⟩⟩
    | cons first chain =>
        obtain ⟨node, struck, only, final⟩ := within first ((mem first).mp List.mem_cons_self)
        have alone : chain = [] := by
          refine List.eq_nil_iff_forall_not_mem.mpr fun i member => ?_
          have later := (List.pairwise_cons.mp sorted).1 i member
          exact Nat.ne_of_gt later (only i ((mem i).mp (List.mem_cons_of_mem _ member)))
        have remover : RemovedBy ps log first j := by
          refine (removedBy_iff canonical folded).mpr
            ⟨node, struck, fun i short => Bool.eq_false_iff.mpr fun earlier => ?_⟩
          exact Nat.ne_of_lt short (only i (covers_of_strikes canonical small earlier))
        have stays (k : Nat) : ¬ RemovedBy ps log k first := by
          intro removed
          obtain ⟨own, later, -⟩ := (removedBy_iff canonical folded).mp removed
          exact Bool.eq_false_iff.mp (final own k) later
        rw [alone]
        refine ⟨.removed remover (.kept stays), fun k => ⟨fun last => ?_, fun removed => ?_⟩⟩
        · cases last
          exact remover
        · exact congrArg some (remover.unique canonical folded removed)

/-- The events in a span against those whose nodes it removed. -/
theorem spanning_iff (canonical : Canonical log) (small : log.length < 2 ^ 63) (folded : foldLog ps log {} = .ok s) :
    (∀ i, covers log j i = true ↔ RemovedBy ps log j i) ↔
    ∀ i, covers log j i = true → noded ps log i = true ∧ strikes ps log j i = true ∧ ∀ k < j, strikes ps log k i = false := by
  refine forall_congr' fun i => ?_
  rw [removedBy_iff canonical folded]
  exact ⟨fun same spanned => same.mp spanned, fun only => ⟨only, fun removed => covers_of_strikes canonical small removed.2.1⟩⟩

theorem historic_iff (canonical : Canonical log) (small : log.length < 2 ^ 63) (folded : foldLog ps log {} = .ok s)
    {trace : EventTrace} (chain : trace.replacementChain.map (·.seq) = (List.range log.length).filter (covers log · j))
    (last : trace.replacedBy.map (·.seq) = ((List.range log.length).filter (covers log · j)).getLast?)
    (replaced : trace.replacedEvents.map (·.seq) = (List.range log.length).filter (covers log j ·)) :
    Historic ps log j trace ↔ Flat ps log j := by
  have around := @within_iff ps log s j canonical small folded
  have inside := @spanning_iff ps log s j canonical small folded
  rw [← last, ← chain] at around
  constructor
  · rintro ⟨replacer, succession, -, removed⟩
    refine ⟨around.mp ⟨succession, replacer⟩, inside.mp fun i => ?_⟩
    rw [← removed i, replaced, mem_covered canonical]
  · rintro ⟨within, spanning⟩
    obtain ⟨succession, replacer⟩ := around.mpr within
    refine ⟨replacer, succession, ?_, fun i => ?_⟩
    · rw [replaced]
      exact List.nodup_range.filter _
    · rw [replaced, mem_covered canonical]
      exact inside.mpr spanning i

theorem trace_historic {c : Contents} {session : SessionId} {source : SessionSource} (read : c.readSession session = some source)
    (canonical : Canonical source.events) (small : source.events.length < 2 ^ 63) (folded : foldLog ps source.events {} = .ok s)
    (there : j < source.events.length) :
    ∃ trace, c.traceEvent session j = some trace ∧ (Historic ps source.events j trace ↔ Flat ps source.events j) := by
  obtain ⟨trace, traced, chain, last, replaced⟩ := traceEvent_seqs read canonical small there
  exact ⟨trace, traced, historic_iff canonical small folded chain last replaced⟩

theorem trace_live {c : Contents} {session : Session} (live : c.live.find? session.id = some session)
    (folded : foldLog ps session.log {} = .ok s) (there : j < session.log.length) :
    ∃ trace, c.traceEvent session.id j = some trace ∧ (Historic ps session.log j trace ↔ Flat ps session.log j) := by
  obtain ⟨-, canonical, small⟩ := c.entered _ _ live
  have read : ∃ source, c.readSession session.id = some source ∧ source.events = session.log := by
    unfold Contents.readSession
    dsimp only
    rw [live]
    exact ⟨_, rfl, rfl⟩
  obtain ⟨source, read, same⟩ := read
  rw [← same] at canonical small folded there ⊢
  exact trace_historic read canonical small folded there

end

/-- A trace tells the history of its event exactly when the event is spanned at most once, by a replacement that
finds its node and stays, and is itself the first to span what it spans, nodes all of it. -/
theorem trace_historic_iff (σ : Type) :
    (∀ (c : Contents) (session : SessionId) (source : SessionSource) (ps : List MessageProjection) (s : Surface),
      c.readSession session = some source → Canonical source.events → source.events.length < 2 ^ 63 →
      foldLog ps source.events {} = .ok s → ∀ j < source.events.length,
        ∃ trace, c.traceEvent session j = some trace ∧ (Historic ps source.events j trace ↔ Flat ps source.events j)) ∧
    ∀ (c : SessionConfig σ), (sessionMachine σ).system.Reached Sessions.Steady c → ∀ (i : Nat) (session : Session),
      c.state.sessions[i]? = some session → pending i c.stack = [] →
      ∀ contents : Contents, contents.live.find? session.id = some session → ∀ j < session.log.length,
        ∃ trace, contents.traceEvent session.id j = some trace ∧
          (Historic c.state.projections session.log j trace ↔ Flat c.state.projections session.log j) := by
  constructor
  · intro c session source ps s read canonical small folded j there
    exact trace_historic read canonical small folded there
  · intro c h i session object alone contents live j there
    exact trace_live live (session_folds h object alone).2 there

theorem entered_of_sole {s : Session} (canonical : Canonical s.log) (small : s.log.length < 2 ^ 63) (id : SessionId) (t : Session)
    (found : ((∅ : SortedMap SessionId Session).insert s.id s).find? id = some t) :
    t.id = id ∧ Canonical t.log ∧ t.log.length < 2 ^ 63 := by
  rw [SortedMap.find?_insert, SortedMap.find?_empty] at found
  split at found
  · next same =>
      cases found
      exact ⟨same.symm, canonical, small⟩
  · cases found

/-- A store with one session. -/
def soleContents (s : Session) (canonical : Canonical s.log) (small : s.log.length < 2 ^ 63) : Contents where
  live := (∅ : SortedMap SessionId Session).insert s.id s
  entered := entered_of_sole canonical small
  attached := attached_of_none

/-- Two messages that are replaced together. -/
theorem trace_historic_together : ∃ (c : SessionConfig Unit) (s : Session) (contents : Contents) (trace : EventTrace),
    contents.live.find? s.id = some s ∧ contents.traceEvent s.id 0 = some trace ∧
      Historic c.state.projections s.log 0 trace ∧ RemovedBy c.state.projections s.log 2 0 := by
  have played : (System.follow (sessionMachine Unit).next settled? ⟨{}, []⟩
      [.op (.create "s" {} 0), .op (.append 0 "user/message" (userMessage "m1") 1 none), .run,
        .op (.append 0 "user/message" (userMessage "m2") 2 none), .run,
        .op (.append 0 "surface/replace" replaceTwo 3 none), .run]).any (fun c =>
        c.stack.isEmpty && (c.state.sessions[0]?).any fun s => decide (s.log.length = 3 ∧
          (∀ k < 3, ∀ i < 3, covers s.log k i = (decide (k = 2) && decide (i < 2)) ∧
            strikes c.state.projections s.log k i = (decide (k = 2) && decide (i < 2))) ∧
          noded c.state.projections s.log 0 = true)) = true := by decide +kernel
  obtain ⟨c, reached, alone, s, object, shown⟩ := played_session played
  obtain ⟨length, spans, node⟩ := of_decide_eq_true shown
  obtain ⟨canonical, folded⟩ := session_folds reached object alone
  have small : s.log.length < 2 ^ 63 := by
    rw [length]
    decide
  have live : (soleContents s canonical small).live.find? s.id = some s := by
    refine (SortedMap.find?_insert ..).trans (if_pos rfl)
  have there : 0 < s.log.length := by
    rw [length]
    decide
  have only (k : Nat) (covered : covers s.log k 0 = true) : k = 2 := by
    have bound := length ▸ covers_bound covered
    rw [(spans k bound 0 (by decide)).1] at covered
    exact of_decide_eq_true (Bool.and_eq_true_iff.mp covered).1
  have flat : Flat c.state.projections s.log 0 := by
    refine ⟨fun k covered => ?_, fun i covered => absurd (covers_later canonical covered) (Nat.not_lt_zero i)⟩
    cases only k covered
    refine ⟨node, (spans 2 (by decide) 0 (by decide)).2, only, fun _ i => Bool.eq_false_iff.mpr fun struck => ?_⟩
    have later := strikes_later canonical struck
    obtain ⟨ev, found, -⟩ := (Option.any_eq_true _ _).mp struck
    have bound := (List.getElem?_eq_some_iff.mp found).1
    omega
  obtain ⟨trace, traced, historic⟩ := (trace_historic_iff Unit).2 c reached 0 s object alone _ live 0 there
  refine ⟨c, s, _, trace, live, traced, historic.mpr flat, (removedBy_iff canonical folded).mpr ⟨node,
    (spans 2 (by decide) 0 (by decide)).2, fun i short => ?_⟩⟩
  rw [(spans i (Nat.lt_succ_of_lt short) 0 (by decide)).2, decide_eq_false (Nat.ne_of_lt short)]
  rfl

def replaceFirst : Json :=
  .obj [("start_seq", .int 0), ("end_seq", .int 1), ("message", .obj [("id", .str "m1"), ("role", .str "user"), ("content", .arr [])])]

/-- A replacement is replaced together with what it replaced: the trace of the message names the second one. -/
theorem nested_mistraced : ¬ ∀ (c : SessionConfig Unit), (sessionMachine Unit).system.Reached Sessions.Steady c →
    ∀ (i : Nat) (s : Session), c.state.sessions[i]? = some s → pending i c.stack = [] →
      ∀ contents : Contents, contents.live.find? s.id = some s → ∀ j < s.log.length, ∀ trace,
        contents.traceEvent s.id j = some trace → Historic c.state.projections s.log j trace := by
  intro traces
  have played : (System.follow (sessionMachine Unit).next settled? ⟨{}, []⟩
      [.op (.create "s" {} 0), .op (.append 0 "user/message" (userMessage "m0") 1 none), .run,
        .op (.append 0 "surface/replace" replaceFirst 2 none), .run,
        .op (.append 0 "surface/replace" replaceTwo 3 none), .run]).any (fun c =>
        c.stack.isEmpty && (c.state.sessions[0]?).any fun s => decide (s.log.length = 3 ∧
          covers s.log 1 0 = true ∧ covers s.log 2 0 = true)) = true := by decide +kernel
  obtain ⟨c, reached, alone, s, object, shown⟩ := played_session played
  obtain ⟨length, first, second⟩ := of_decide_eq_true shown
  obtain ⟨canonical, folded⟩ := session_folds reached object alone
  have small : s.log.length < 2 ^ 63 := by
    rw [length]
    decide
  have live : (soleContents s canonical small).live.find? s.id = some s := by
    refine (SortedMap.find?_insert ..).trans (if_pos rfl)
  have there : 0 < s.log.length := by
    rw [length]
    decide
  obtain ⟨trace, traced, historic⟩ := trace_live live folded there
  have flat := historic.mp (traces c reached 0 s object alone _ live 0 there trace traced)
  exact absurd ((flat.within 2 second).2.2.1 1 first) (by decide)

end Araya.Query
