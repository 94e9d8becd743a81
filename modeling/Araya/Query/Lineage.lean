import Araya.Query.Index
import Araya.Query.Isolation
import Mathlib.Logic.Relation

/-!
The trace of a session over parent links that nothing keeps free of cycles: an id may be used again for a child of
one of its own children. The walk up stops where it comes round, the walk down does not.
-/

namespace Araya.Query

open Sessions

section
variable (records : List SessionRecord)

def listedIds : List SessionId := records.map (·.header.id)

/-- A listed session names a listed parent. -/
def Link (child parent : SessionId) : Prop :=
  (∃ r ∈ records, r.header.id = child ∧ r.header.parentSession = some parent) ∧ parent ∈ listedIds records

/-- Along one or more links. -/
def Above : SessionId → SessionId → Prop := Relation.TransGen (Link records)

end

/-- The trace names each ancestor and each descendant once, and nothing else. -/
structure Traced (records : List SessionRecord) (id : SessionId) (trace : SessionTrace) : Prop where
  ancestors_once : (trace.ancestors.map (·.header.id)).Nodup
  ancestors : ∀ x, x ∈ trace.ancestors.map (·.header.id) ↔ Above records id x
  descendants_once : (trace.descendants.map (·.node.header.id)).Nodup
  descendants : ∀ x, x ∈ trace.descendants.map (·.node.header.id) ↔ Above records x id

/-- A trace ends: there is no such session, or its trace is right. -/
def Contents.Answers (c : Contents) (id : SessionId) : Prop :=
  ∃ fuel result, c.traceSession fuel id = some result ∧
    (result = none ∧ id ∉ listedIds c.listSessions ∨ ∃ trace, result = some trace ∧ Traced c.listSessions id trace)

namespace Contents

section
variable {records : List SessionRecord} (distinct : (listedIds records).Nodup)
include distinct

theorem record_unique {r q : SessionRecord} (hr : r ∈ records) (hq : q ∈ records) (same : r.header.id = q.header.id) : r = q :=
  List.inj_on_of_nodup_map distinct hr hq same

theorem link_unique {child parent parent' : SessionId} (h : Link records child parent) (h' : Link records child parent') :
    parent = parent' := by
  obtain ⟨⟨r, hr, id, own⟩, -⟩ := h
  obtain ⟨⟨q, hq, id', own'⟩, -⟩ := h'
  obtain rfl := record_unique distinct hr hq (id.trans id'.symm)
  exact Option.some_inj.mp (own.symm.trans own')

theorem recordOf_listed {r : SessionRecord} (hr : r ∈ records) : recordOf records r.header.id = some r := by
  cases found : recordOf records r.header.id with
  | none => exact absurd (List.find?_eq_none.mp found r hr) (by simp)
  | some q =>
      have same := List.find?_some found
      exact congrArg some (record_unique distinct (List.mem_of_find?_eq_some found) hr (beq_iff_eq.mp same))

end

theorem recordOf_some {records : List SessionRecord} {id : SessionId} {r : SessionRecord} (h : recordOf records id = some r) :
    r ∈ records ∧ r.header.id = id :=
  ⟨List.mem_of_find?_eq_some h, beq_iff_eq.mp (List.find?_some (p := fun r : SessionRecord => r.header.id == id) h)⟩

theorem recordOf_none {records : List SessionRecord} {id : SessionId} (h : recordOf records id = none) : id ∉ listedIds records := by
  intro listed
  obtain ⟨r, hr, same⟩ := List.mem_map.mp listed
  exact absurd (List.find?_eq_none.mp h r hr) (by simp [same])

/-! Up -/

/-- What the walk up has seen: itself, then ancestors, each with its parent but the last. -/
structure Climb (records : List SessionRecord) (id : SessionId) (seen : List SessionId) (last : Option SessionId) : Prop where
  start : id ∈ seen
  nodup : seen.Nodup
  listed : ∀ x ∈ seen, x ∈ listedIds records
  above : ∀ x ∈ seen, x = id ∨ Above records id x
  linked : ∀ x ∈ seen, ∀ p, Link records x p → p ∈ seen ∨ last = some p
  next : ∀ p ∈ last, p ∈ listedIds records → Above records id p

theorem Climb.step {records : List SessionRecord} (distinct : (listedIds records).Nodup) {id parent : SessionId}
    {seen : List SessionId} (climb : Climb records id seen (some parent)) (new : parent ∉ seen) {r : SessionRecord}
    (found : recordOf records parent = some r) : Climb records id (parent :: seen) r.header.parentSession := by
  obtain ⟨listed, own⟩ := recordOf_some found
  have known : parent ∈ listedIds records := List.mem_map.mpr ⟨r, listed, own⟩
  have above := climb.next parent rfl known
  refine ⟨List.mem_cons_of_mem _ climb.start, List.nodup_cons.mpr ⟨new, climb.nodup⟩, ?_, ?_, ?_, ?_⟩
  · exact fun x member => (List.mem_cons.mp member).elim (· ▸ known) (climb.listed x)
  · exact fun x member => (List.mem_cons.mp member).elim (fun same => .inr (same ▸ above)) (climb.above x)
  · intro x member p link
    rcases List.mem_cons.mp member with rfl | before
    · obtain ⟨⟨q, hq, id', link⟩, -⟩ := link
      obtain rfl := record_unique distinct hq listed (id'.trans own.symm)
      exact .inr link
    · rcases climb.linked x before p link with seen | same
      · exact .inl (List.mem_cons_of_mem _ seen)
      · exact .inl (List.mem_cons.mpr (.inl (Option.some_inj.mp same).symm))
  · exact fun p link listed' => above.tail ⟨⟨r, listed, own, link⟩, listed'⟩

theorem Climb.bounded {records : List SessionRecord} {id : SessionId} {seen : List SessionId} {last : Option SessionId}
    (climb : Climb records id seen last) : seen.length ≤ records.length := by
  have length := (climb.nodup.subperm fun x member => climb.listed x member).length_le
  rwa [listedIds, List.length_map] at length

theorem ancestorsFrom_ends {records : List SessionRecord} (distinct : (listedIds records).Nodup) {id : SessionId}
    (fuel : Nat) {seen : List SessionId} {last : Option SessionId} (climb : Climb records id seen last)
    (enough : records.length < seen.length + fuel) : ∃ nodes all, ancestorsFrom records fuel seen last = some nodes ∧
      all.Perm (seen ++ nodes.map (·.header.id)) ∧ Climb records id all none := by
  have bounded := climb.bounded
  induction fuel generalizing seen last with
  | zero => omega
  | succ fuel ih =>
      cases last with
      | none => exact ⟨[], seen, rfl, by simp, climb⟩
      | some parent =>
          unfold ancestorsFrom
          by_cases again : parent ∈ seen
          · rw [if_pos (List.contains_iff_mem.mpr again)]
            refine ⟨[], seen, rfl, by simp, climb.start, climb.nodup, climb.listed, climb.above, fun x member p link => ?_,
              fun _ member => absurd member (Option.not_mem_none _)⟩
            exact .inl ((climb.linked x member p link).elim (·) fun same => Option.some_inj.mp same ▸ again)
          · rw [if_neg fun h => again (List.contains_iff_mem.mp h)]
            cases found : recordOf records parent with
            | none =>
                refine ⟨[], seen, rfl, by simp, climb.start, climb.nodup, climb.listed, climb.above, fun x member p link => ?_,
                  fun _ member => absurd member (Option.not_mem_none _)⟩
                refine .inl ((climb.linked x member p link).elim (·) fun same => ?_)
                exact absurd (Option.some_inj.mp same ▸ link.2) (recordOf_none found)
            | some r =>
                have next := climb.step distinct again found
                have more : (parent :: seen).length ≤ records.length := next.bounded
                obtain ⟨nodes, all, walked, perm, done⟩ := ih next (by simp only [List.length_cons]; omega) more
                refine ⟨toNode r :: nodes, all, ?_, ?_, done⟩
                · dsimp only
                  rw [walked]
                  rfl
                · refine perm.trans ?_
                  rw [List.map_cons, List.cons_append]
                  exact (List.perm_middle.symm.trans (by rw [show (toNode r).header.id = parent from (recordOf_some found).2]))

/-! Down -/

def childrenOf (records : List SessionRecord) (current : SessionId) : List SessionRecord :=
  records.filter fun record => record.header.parentSession == some current

theorem mem_childrenOf {records : List SessionRecord} {current : SessionId} (listed : current ∈ listedIds records) {x : SessionId} :
    x ∈ listedIds (childrenOf records current) ↔ Link records x current := by
  constructor
  · intro member
    obtain ⟨r, child, same⟩ := List.mem_map.mp member
    obtain ⟨hr, parent⟩ := List.mem_filter.mp child
    exact ⟨⟨r, hr, same, beq_iff_eq.mp parent⟩, listed⟩
  · rintro ⟨⟨r, hr, same, parent⟩, -⟩
    exact List.mem_map.mpr ⟨r, List.mem_filter.mpr ⟨hr, beq_iff_eq.mpr parent⟩, same⟩

theorem perm_popped {α : Type} (popped rest new : List α) (x : α) :
    ((popped ++ [x]) ++ (new.reverse ++ rest)).Perm (new ++ (popped ++ x :: rest)) := by
  refine ((new.reverse_perm.append_right rest).append_left (popped ++ [x])).trans ?_
  refine (List.perm_append_comm_assoc _ _ _).trans ?_
  rw [List.append_assoc popped, List.singleton_append]

/-- What the walk down has come to: its start and descendants, those of `popped` with all their children. -/
structure Sweep (records : List SessionRecord) (root : SessionId) (popped frontier : List SessionId) : Prop where
  start : root ∈ popped ++ frontier
  nodup : (popped ++ frontier).Nodup
  listed : ∀ x ∈ popped ++ frontier, x ∈ listedIds records
  linked : ∀ x ∈ popped ++ frontier, x = root ∨ Above records x root ∧ ∃ p ∈ popped, Link records x p
  swept : ∀ p ∈ popped, ∀ x, Link records x p → x ∈ popped ++ frontier

theorem Sweep.bounded {records : List SessionRecord} {root : SessionId} {popped frontier : List SessionId}
    (sweep : Sweep records root popped frontier) : (popped ++ frontier).length ≤ records.length := by
  have length := (sweep.nodup.subperm fun x member => sweep.listed x member).length_le
  rwa [listedIds, List.length_map] at length

theorem Sweep.step {records : List SessionRecord} (distinct : (listedIds records).Nodup) {root current : SessionId}
    (acyclic : ¬ Above records root root) {popped frontier : List SessionId}
    (sweep : Sweep records root popped (current :: frontier)) :
    Sweep records root (popped ++ [current]) ((listedIds (childrenOf records current)).reverse ++ frontier) := by
  have here : current ∈ popped ++ current :: frontier := List.mem_append_right _ List.mem_cons_self
  have known := sweep.listed current here
  have perm := perm_popped popped frontier (listedIds (childrenOf records current)) current
  have below (x : SessionId) (child : x ∈ listedIds (childrenOf records current)) : Above records x root := by
    have link := (mem_childrenOf known).mp child
    rcases sweep.linked current here with rfl | ⟨above, -⟩
    · exact .single link
    · exact .head link above
  refine ⟨perm.mem_iff.mpr (List.mem_append_right _ sweep.start), perm.nodup_iff.mpr ?_, ?_, ?_, ?_⟩
  · refine List.nodup_append.mpr ⟨distinct.sublist (List.filter_sublist.map _), sweep.nodup, fun x child y before same => ?_⟩
    subst same
    have link := (mem_childrenOf known).mp child
    rcases sweep.linked x before with rfl | ⟨-, p, gone, link'⟩
    · exact acyclic (below x child)
    · rw [link_unique distinct link' link] at gone
      exact (List.nodup_append.mp sweep.nodup).2.2 current gone current List.mem_cons_self rfl
  · intro x member
    rcases List.mem_append.mp (perm.mem_iff.mp member) with child | before
    · exact (List.filter_sublist.map _).mem child
    · exact sweep.listed x before
  · intro x member
    rcases List.mem_append.mp (perm.mem_iff.mp member) with child | before
    · exact .inr ⟨below x child, current, List.mem_append_right _ List.mem_cons_self, (mem_childrenOf known).mp child⟩
    · rcases sweep.linked x before with same | ⟨above, p, gone, link⟩
      · exact .inl same
      · exact .inr ⟨above, p, List.mem_append_left _ gone, link⟩
  · intro p gone x link
    rw [perm.mem_iff]
    rcases List.mem_append.mp gone with before | now
    · exact List.mem_append_right _ (sweep.swept p before x link)
    · rw [List.mem_singleton.mp now] at link
      exact List.mem_append_left _ ((mem_childrenOf known).mpr link)

theorem descendantsFrom_ends {records : List SessionRecord} (distinct : (listedIds records).Nodup) {root : SessionId}
    (acyclic : ¬ Above records root root) (fuel : Nat) {popped : List SessionId} {frontier : List (SessionId × Nat)}
    (sweep : Sweep records root popped (frontier.map (·.1))) (enough : records.length < popped.length + fuel) :
    ∃ nodes all, descendantsFrom records fuel frontier = some nodes ∧
      all.Perm (popped ++ frontier.map (·.1) ++ nodes.map (·.node.header.id)) ∧ Sweep records root all [] := by
  induction fuel generalizing popped frontier with
  | zero =>
      have bounded := sweep.bounded
      rw [List.length_append] at bounded
      omega
  | succ fuel ih =>
      cases frontier with
      | nil => exact ⟨[], popped, rfl, by simp, sweep⟩
      | cons e frontier =>
          obtain ⟨current, depth⟩ := e
          have next := sweep.step distinct acyclic
          have ids : ((childrenOf records current).map fun record => (record.header.id, depth + 1)).reverse.map (·.1) =
              (listedIds (childrenOf records current)).reverse := by
            rw [List.map_reverse, List.map_map]
            rfl
          have sweep' : Sweep records root (popped ++ [current])
              ((((childrenOf records current).map fun record => (record.header.id, depth + 1)).reverse ++ frontier).map (·.1)) := by
            rw [List.map_append, ids]
            exact next
          obtain ⟨nodes, all, walked, perm, done⟩ := ih sweep' (by simp; omega)
          refine ⟨(childrenOf records current).map (fun record => { node := toNode record, depth := depth + 1 }) ++ nodes, all,
            ?_, ?_, done⟩
          · unfold descendantsFrom
            dsimp only
            rw [show records.filter (fun record => record.header.parentSession == some current) = childrenOf records current from rfl,
              walked]
            rfl
          · refine perm.trans ?_
            have found : ((childrenOf records current).map fun record => ({ node := toNode record, depth := depth + 1 } : DescendantNode)).map
                (·.node.header.id) = listedIds (childrenOf records current) := by
              rw [List.map_map]
              rfl
            rw [List.map_append, ids, List.map_append, found, ← List.append_assoc _ (listedIds _)]
            exact ((perm_popped popped _ _ current).trans List.perm_append_comm).append_right _

/-- On a cycle the walk down comes round for ever. -/
theorem descendantsFrom_cyclic {records : List SessionRecord} {x : SessionId} (cyclic : Above records x x) {fuel : Nat}
    {frontier : List (SessionId × Nat)} (there : x ∈ frontier.map (·.1)) : descendantsFrom records fuel frontier = none := by
  induction fuel generalizing x frontier with
  | zero =>
      cases frontier with
      | nil => exact absurd there List.not_mem_nil
      | cons e frontier => rfl
  | succ fuel ih =>
      cases frontier with
      | nil => exact absurd there List.not_mem_nil
      | cons e frontier =>
          obtain ⟨current, depth⟩ := e
          unfold descendantsFrom
          dsimp only
          refine Option.map_eq_none_iff.mpr ?_
          rcases List.mem_cons.mp there with rfl | later
          · obtain ⟨y, path, link⟩ := Relation.TransGen.tail'_iff.mp cyclic
            obtain ⟨r, hr, own, parent⟩ := link.1
            refine ih (Relation.TransGen.head'_iff.mpr ⟨x, link, path⟩) ?_
            rw [List.map_append]
            refine List.mem_append_left _ (List.mem_map.mpr ⟨(r.header.id, depth + 1), ?_, own⟩)
            exact List.mem_reverse.mpr (List.mem_map.mpr ⟨r, List.mem_filter.mpr ⟨hr, beq_iff_eq.mpr parent⟩, rfl⟩)
          · refine ih cyclic ?_
            rw [List.map_append]
            exact List.mem_append_right _ later

/-! The trace -/

variable {c : Contents}

theorem listed_distinct (c : Contents) : (listedIds c.listSessions).Nodup := by
  have keyed : ∀ e ∈ c.recordsById.toList, e.2.header.id = e.1 := by
    intro e member
    obtain ⟨id, own⟩ := e
    rcases find_addLive (SortedMap.mem_toList.mp member) with ⟨s, live, header⟩ | ⟨before, absent⟩
    · exact (congrArg Header.id header).trans (c.entered id s (SortedMap.mem_toList.mp live)).1
    · rcases find_addStored (fun e member => SortedMap.mem_toList.mp member) before with ⟨s, found, header⟩ | empty
      · exact (congrArg Header.id header).trans (c.attached id s found)
      · cases empty
  have ids : (c.recordsById.toList.map (·.2)).map (·.header.id) = c.recordsById.toList.map (·.1) := by
    rw [List.map_map]
    exact List.map_congr_left keyed
  have perm : (listedIds c.listSessions).Perm (c.recordsById.toList.map (·.1)) := by
    rw [← ids]
    exact (List.mergeSort_perm _ _).map _
  refine perm.nodup_iff.mpr ?_
  exact (List.pairwise_map.mpr c.recordsById.sorted).imp ne_of_lt

/-- The whole trace of a session that is not among its own ancestors. -/
theorem traced_of_acyclic {id : SessionId} {record : SessionRecord} (found : recordOf c.listSessions id = some record)
    (acyclic : ¬ Above c.listSessions id id) : ∃ fuel trace, c.traceSession fuel id = some (some trace) ∧
      Traced c.listSessions id trace := by
  obtain ⟨listed, own⟩ := recordOf_some found
  have distinct := c.listed_distinct
  have known : id ∈ listedIds c.listSessions := List.mem_map.mpr ⟨record, listed, own⟩
  have climb : Climb c.listSessions id [id] record.header.parentSession := by
    refine ⟨List.mem_cons_self, List.pairwise_singleton _ _, ?_, ?_, ?_, ?_⟩
    · exact fun x member => List.mem_singleton.mp member ▸ known
    · exact fun x member => .inl (List.mem_singleton.mp member)
    · intro x member p link
      rw [List.mem_singleton.mp member] at link
      obtain ⟨⟨q, hq, id', parent⟩, -⟩ := link
      obtain rfl := record_unique distinct hq listed (id'.trans own.symm)
      exact .inr parent
    · exact fun p parent listed' => .single ⟨⟨record, listed, own, parent⟩, listed'⟩
  have sweep : Sweep c.listSessions id [] ([(id, 0)].map (·.1)) :=
    ⟨List.mem_cons_self, List.pairwise_singleton _ _, fun x member => List.mem_singleton.mp member ▸ known,
      fun x member => .inl (List.mem_singleton.mp member), nofun⟩
  obtain ⟨ancestors, all, climbed, upPerm, top⟩ := ancestorsFrom_ends distinct (c.listSessions.length + 1) climb (by simp; omega)
  obtain ⟨descendants, all', swept, downPerm, bottom⟩ :=
    descendantsFrom_ends distinct acyclic (c.listSessions.length + 1) sweep (by simp)
  refine ⟨c.listSessions.length + 1, { target := toNode record, ancestors, descendants }, ?_, ?_, ?_, ?_, ?_⟩
  · unfold traceSession
    dsimp only
    rw [found]
    dsimp only
    rw [climbed, swept]
    rfl
  · exact (List.nodup_cons.mp (upPerm.nodup_iff.mp top.nodup)).2
  · intro x
    have fresh := (List.nodup_cons.mp (upPerm.nodup_iff.mp top.nodup)).1
    constructor
    · intro member
      refine (top.above x (upPerm.mem_iff.mpr (List.mem_cons_of_mem _ member))).resolve_left fun same => fresh (same ▸ member)
    · intro above
      have reached : x ∈ all := by
        induction above with
        | single link => exact (top.linked _ top.start _ link).resolve_right nofun
        | tail _ link ih => exact (top.linked _ ih _ link).resolve_right nofun
      refine (List.mem_cons.mp (upPerm.mem_iff.mp reached)).resolve_left fun same => acyclic (same ▸ above)
  · exact (List.nodup_cons.mp (downPerm.nodup_iff.mp (List.append_nil all' ▸ bottom.nodup))).2
  · intro x
    have fresh := (List.nodup_cons.mp (downPerm.nodup_iff.mp (List.append_nil all' ▸ bottom.nodup))).1
    constructor
    · intro member
      have known := List.mem_append_left [] (downPerm.mem_iff.mpr (List.mem_cons_of_mem id member))
      exact ((bottom.linked x known).resolve_left fun same => fresh (same ▸ member)).1
    · intro above
      have reached : x ∈ all' := by
        induction above using Relation.TransGen.head_induction_on with
        | single link => exact List.append_nil all' ▸ bottom.swept _ (List.append_nil all' ▸ bottom.start) _ link
        | head link _ ih => exact List.append_nil all' ▸ bottom.swept _ ih _ link
      refine (List.mem_cons.mp (downPerm.mem_iff.mp reached)).resolve_left fun same => ?_
      obtain rfl : x = id := same
      exact acyclic above

end Contents

namespace Contents

theorem cyclic_endless {c : Contents} {id : SessionId} (cyclic : Above c.listSessions id id) : ¬ c.Answers id := by
  rintro ⟨fuel, result, traced, -⟩
  obtain ⟨⟨r, hr, own, -⟩, -⟩ := (Relation.TransGen.head'_iff.mp cyclic).choose_spec.1
  have listed := recordOf_listed c.listed_distinct hr
  have endless : descendantsFrom c.listSessions fuel [(id, 0)] = none := descendantsFrom_cyclic cyclic List.mem_cons_self
  unfold traceSession at traced
  dsimp only at traced
  rw [← own, listed] at traced
  obtain ⟨ancestors, -, traced⟩ := Option.bind_eq_some_iff.mp traced
  obtain ⟨descendants, walked, -⟩ := Option.bind_eq_some_iff.mp traced
  rw [own, endless] at walked
  cases walked

theorem live_listed {c : Contents} {id : SessionId} {s : Session} (found : c.live.find? id = some s) :
    ∃ r ∈ c.listSessions, r.header = s.header := by
  have view := SortedMap.foldl_view (fun records k => records.find? k) (fun records e => addLive records e.1 e.2)
    (fun _ session before => some { header := session.header, live := true, persisted := before.any (·.persisted) })
    (fun records e k => by
      dsimp only [addLive]
      rw [SortedMap.find?_insert]
      split
      · next same => rw [same]
      · rfl)
    c.live (c.stored.toList.foldl (fun records e => addStored records e.2) ∅) id
  rw [found] at view
  have there := SortedMap.mem_toList.mpr view
  exact ⟨_, List.mem_mergeSort.mpr (List.mem_map.mpr ⟨_, there, rfl⟩), rfl⟩

end Contents

/-- A trace ends, and names each relative once, just when the session is not on a cycle of parent links. -/
theorem trace_ends (c : Contents) (id : SessionId) : c.Answers id ↔ ¬ Above c.listSessions id id := by
  constructor
  · exact fun answers cyclic => Contents.cyclic_endless cyclic answers
  · intro acyclic
    cases found : Contents.recordOf c.listSessions id with
    | none =>
        refine ⟨0, none, ?_, .inl ⟨rfl, Contents.recordOf_none found⟩⟩
        unfold Contents.traceSession
        dsimp only
        rw [found]
    | some record =>
        obtain ⟨fuel, trace, traced, right⟩ := Contents.traced_of_acyclic found acyclic
        exact ⟨fuel, some trace, traced, .inr ⟨trace, rfl, right⟩⟩

theorem entered_of_empty {live : SortedMap SessionId Session}
    (named : ∀ id s, live.find? id = some s → s.id = id ∧ s.log = []) (id : SessionId) (s : Session)
    (found : live.find? id = some s) : s.id = id ∧ Canonical s.log ∧ s.log.length < 2 ^ 63 := by
  obtain ⟨own, empty⟩ := named id s found
  rw [empty]
  exact ⟨own, canonical_nil, Nat.two_pow_pos 63⟩

theorem attached_of_none (id : SessionId) (s : StoredSession)
    (found : (∅ : SortedMap SessionId (Option StoredSession)).find? id = some (some s)) : s.header.id = id := by
  cases found

/-- Sessions that hold no events, as the trace sees them. -/
def contentsOf (live : SortedMap SessionId Session) (named : ∀ id s, live.find? id = some s → s.id = id ∧ s.log = []) : Contents where
  live
  entered := entered_of_empty named
  attached := attached_of_none

/-- A fork's parent is disposed of, and its id is taken by a fork of the fork. -/
theorem trace_comes_round : ¬ ∀ (c : SessionConfig Unit) (contents : Contents), (sessionMachine Unit).system.Reached (fun _ _ => True) c →
    (∀ id, contents.live.find? id = entered? c.state id) → ∀ id, contents.Answers id := by
  intro answers
  have played : (System.follow (sessionMachine Unit).next (fun _ _ => true) (⟨{}, []⟩ : SessionConfig Unit)
      [.op (.create "a" {} 0), .op (.fork "a" "b" none 1), .op (.dispose "a"), .op (.fork "b" "a" none 2)]).any
        (fun c => (entered? c.state "a").any fun s => (entered? c.state "b").any fun s' => decide
          (s.id = "a" ∧ s.header.parentSession = some "b" ∧ s.log.length = 0 ∧
            s'.id = "b" ∧ s'.header.parentSession = some "a" ∧ s'.log.length = 0 ∧
              c.state.store.toList.map (·.1) = ["a", "b"])) = true := by decide +kernel
  obtain ⟨c, hc, shown⟩ := (Option.any_eq_true _ _).mp played
  obtain ⟨s, known, shown⟩ := (Option.any_eq_true _ _).mp shown
  obtain ⟨s', known', shown⟩ := (Option.any_eq_true _ _).mp shown
  obtain ⟨id, parent, log, id', parent', log', keys⟩ := of_decide_eq_true shown
  have reached := System.follow_reached (S := (sessionMachine Unit).system) (P := fun _ _ => True) (fun _ _ _ h => h)
    (fun _ _ _ => trivial) hc (.start ⟨rfl, rfl⟩)
  have found (k : SessionId) : (((∅ : SortedMap SessionId Session).insert "a" s).insert "b" s').find? k =
      if k = "b" then some s' else if k = "a" then some s else none := by
    rw [SortedMap.find?_insert, SortedMap.find?_insert, SortedMap.find?_empty]
  have named : ∀ k t, (((∅ : SortedMap SessionId Session).insert "a" s).insert "b" s').find? k = some t → t.id = k ∧ t.log = [] := by
    intro k t at'
    rw [found] at at'
    split at at'
    · next same =>
        cases at'
        exact ⟨id'.trans same.symm, List.length_eq_zero_iff.mp log'⟩
    · split at at'
      · next same =>
          cases at'
          exact ⟨id.trans same.symm, List.length_eq_zero_iff.mp log⟩
      · cases at'
  have shows (k : SessionId) : (contentsOf _ named).live.find? k = entered? c.state k := by
    refine (found k).trans ?_
    split
    · next same => rw [same, known']
    · next other' =>
        split
        · next same => rw [same, known]
        · next other =>
            unfold entered?
            cases entry : c.state.store.find? k with
            | none => rfl
            | some h =>
                have key := List.mem_map_of_mem (f := (·.1)) (SortedMap.mem_toList.mpr entry)
                rw [keys] at key
                simp [other, other'] at key
  obtain ⟨r, hr, header⟩ := Contents.live_listed (c := contentsOf _ named) ((found "a").trans rfl)
  obtain ⟨r', hr', header'⟩ := Contents.live_listed (c := contentsOf _ named) ((found "b").trans rfl)
  have listed : "a" ∈ listedIds (contentsOf _ named).listSessions :=
    List.mem_map.mpr ⟨r, hr, (congrArg Header.id header).trans id⟩
  have listed' : "b" ∈ listedIds (contentsOf _ named).listSessions :=
    List.mem_map.mpr ⟨r', hr', (congrArg Header.id header').trans id'⟩
  have up : Link (contentsOf _ named).listSessions "a" "b" :=
    ⟨⟨r, hr, (congrArg Header.id header).trans id, (congrArg Header.parentSession header).trans parent⟩, listed'⟩
  have down : Link (contentsOf _ named).listSessions "b" "a" :=
    ⟨⟨r', hr', (congrArg Header.id header').trans id', (congrArg Header.parentSession header').trans parent'⟩, listed⟩
  exact Contents.cyclic_endless (.tail (.single up) down) (answers c _ reached shows "a")

end Araya.Query
