import Mathlib.Data.List.Duplicate
import Mathlib.Data.List.Sort
import Araya.Util.Components
import Araya.Util.Lists
import Araya.Util.Strings
import Araya.Runtime.Registry

/-!
The diagnoses of the declared graph: the conflicts of the providers of one slot, the dependency cycles, and what the
runtime reports of them. A diagnosis reads the records and the index of the providers; the tables of the cycle search
are built anew, but for the rows of the adjacency, which stay from call to call and are cleared.
-/

namespace Araya

inductive DiagnosticKind where
  | conflict
  | cycle
  deriving DecidableEq, Repr

def DiagnosticKind.opening : DiagnosticKind → String
  | .conflict => "f:"
  | .cycle => "c:"

structure Diagnostic where
  kind : DiagnosticKind := .conflict
  keyName : String
  keyVersion : Nat := 1
  fibers : List FiberId
  deriving DecidableEq, Repr

/-- `diag_slot_key`, in its order. -/
abbrev DiagSlot := ScopeId ×ₗ (Realm ×ₗ ServiceId)

namespace DiagSlot

def of (scope : ScopeId) (realm : Realm) (key : ServiceId) : DiagSlot := toLex (scope, toLex (realm, key))

def scope (s : DiagSlot) : ScopeId := (ofLex s).1
def realm (s : DiagSlot) : Realm := (ofLex (ofLex s).2).1
def key (s : DiagSlot) : ServiceId := (ofLex (ofLex s).2).2

/-- The key's name behind the realm. -/
def keyName (s : DiagSlot) : String := if s.realm.isEmpty then s.key.name else s.realm ++ "@" ++ s.key.name

end DiagSlot

namespace Diagnostic

def sortIds (ids : List FiberId) : List FiberId := ids.insertionSort (· ≤ ·)

/-- The diagnostic that `emit` builds. -/
def make (kind : DiagnosticKind) (keyName : String) (keyVersion : Nat) (ids : List FiberId) : Diagnostic :=
  ⟨kind, keyName, keyVersion, sortIds ids⟩

def signature (x : Diagnostic) : String :=
  x.fibers.foldl (fun sig id => sig ++ (toString id ++ ","))
    (x.kind.opening ++ x.keyName ++ ":" ++ toString x.keyVersion ++ ":")

end Diagnostic

/-- What `diagnose` leaves behind: the signatures it has reported, the rows of the adjacency, and what it has handed to the
sink, where there is one. -/
structure Diagnoser where
  reported : SortedSet String := ∅
  adjacency : List (List FiberId) := []
  hasSink : Bool := false
  sent : List Diagnostic := []

def Diagnoser.emit (d : Diagnoser) (x : Diagnostic) : Diagnoser :=
  if x.signature ∈ d.reported then d
  else
    { d with
      reported := d.reported.insert x.signature
      sent := if d.hasSink then d.sent ++ [x] else d.sent }

namespace Runtime
variable (rt : Runtime)

/-! Conflicts -/

/-- Every provided key of every fiber, with the slot it is bound in. -/
def diagSlots : List (DiagSlot × FiberId) :=
  rt.fibers.toList.flatMap fun e =>
    e.2.provide.map fun k => (DiagSlot.of e.2.scope (rt.contexts.realmFor e.2.scope k) k, e.1)

def conflicts : List Diagnostic :=
  (runs (rt.diagSlots.insertionSort fun a b => a.1 ≤ b.1)).filterMap fun group =>
    if 2 ≤ group.2.length then some (.make .conflict group.1.keyName group.1.key.version group.2) else none

/-! Cycles -/

def diagOrder : List FiberId := rt.fibers.toList.map Prod.fst

/-- The dense position of a fiber, by `lower_bound`. -/
def pos (id : FiberId) : Nat := rt.diagOrder.findIdx fun other => !decide (other < id)

/-- The fibers that a fiber depends on. -/
def diagTargets (m : FiberRecord) : List FiberId :=
  ((m.descriptor.injectKeys.flatMap fun k =>
    match rt.providersOf.find? k with
    | none => []
    | some ids =>
      ids.toList.filter fun n =>
        (rt.find n).any fun f => rt.contexts.tree.onChain f.scope m.scope).insertionSort (· ≤ ·)).dedup

/-- The rows of the last call, lengthened and cleared, with one row for each fiber. -/
def diagAdjacency (old : List (List FiberId)) : List (List FiberId) :=
  let cleared := (old ++ List.replicate (rt.diagOrder.length - old.length) []).map fun _ => []
  rt.fibers.toList.foldl (fun rows e => rows.set (rt.pos e.1) (rt.diagTargets e.2)) cleared

def diagEdges (rows : List (List FiberId)) (p : Nat) : List Nat := (rows[p]?.getD []).map rt.pos

def cycles (rows : List (List FiberId)) : List Diagnostic :=
  (Search.scan (rt.diagEdges rows) (List.range rt.diagOrder.length)).found.filterMap fun scc =>
    if 1 < scc.length then some (.make .cycle "" 0 (scc.map fun q => rt.diagOrder[q]?.getD 0)) else none

/-- The fibers that declare a key they provide. -/
def selfProvisions : List Diagnostic :=
  rt.fibers.toList.filterMap fun e =>
    (e.2.provide.find? fun k => k ∈ e.2.descriptor.injectKeys).map fun k => .make .cycle k.name k.version [e.1]

end Runtime

namespace Diagnoser

def diagnose (d : Diagnoser) (rt : Runtime) (scanCycles : Bool) : Diagnoser :=
  let d := rt.conflicts.foldl emit d
  let d :=
    if scanCycles then
      let rows := rt.diagAdjacency d.adjacency
      (rt.cycles rows).foldl emit { d with adjacency := rows }
    else d
  rt.selfProvisions.foldl emit d

/-- All that a diagnosis hands to `emit`. -/
def raised (d : Diagnoser) (rt : Runtime) (scanCycles : Bool) : List Diagnostic :=
  rt.conflicts ++ (if scanCycles then rt.cycles (rt.diagAdjacency d.adjacency) else []) ++ rt.selfProvisions

end Diagnoser

/-! What the declarations warrant -/

namespace Runtime

section
variable (rt : Runtime)

/-- A fiber declares a key that another one provides, from a scope on its own chain. -/
def DependsOn (m n : FiberId) : Prop :=
  ∃ f g, rt.find m = some f ∧ rt.find n = some g ∧ (∃ k ∈ f.descriptor.injectKeys, k ∈ g.provide) ∧
    rt.contexts.tree.onChain g.scope f.scope = true

def Leads (m n : FiberId) : Prop := Relation.ReflTransGen rt.DependsOn m n

/-- The fiber provides the key of a slot in its scope and its realm. -/
def ProvidesIn (slot : DiagSlot) (id : FiberId) : Prop :=
  ∃ f, rt.find id = some f ∧ slot.key ∈ f.provide ∧ f.scope = slot.scope ∧ rt.contexts.realmFor f.scope slot.key = slot.realm

/-- The conflict of the several fibers of a slot, the cycle of the several fibers of a component, and the cycle of a fiber
that declares a key it provides. -/
inductive Warranted : Diagnostic → Prop
  | conflict (slot : DiagSlot) {ids : List FiberId} : ids.Pairwise (· < ·) → 2 ≤ ids.length →
      (∀ id, id ∈ ids ↔ rt.ProvidesIn slot id) → Warranted ⟨.conflict, slot.keyName, slot.key.version, ids⟩
  | component (root : FiberId) {ids : List FiberId} : ids.Pairwise (· < ·) → 2 ≤ ids.length →
      (∀ id, id ∈ ids ↔ rt.Leads root id ∧ rt.Leads id root) → Warranted ⟨.cycle, "", 0, ids⟩
  | own {id : FiberId} {f : FiberRecord} {key : ServiceId} : rt.find id = some f →
      (f.provide.find? fun k => k ∈ f.descriptor.injectKeys) = some key →
      Warranted ⟨.cycle, key.name, key.version, [id]⟩

/-- The cycle of the several fibers of a component is warranted. -/
def Cyclic (x : Diagnostic) : Prop := rt.Warranted x ∧ x.kind = .cycle ∧ 2 ≤ x.fibers.length

/-- No mounted fiber lists a key twice among those it provides. -/
def ListsOnce : Prop := ∀ id f, rt.find id = some f → f.provide.Nodup

end

section
variable {rt : Runtime} {slot : DiagSlot} {id : FiberId} {x : Diagnostic}

theorem sortIds_sorted (ids : List FiberId) : (Diagnostic.sortIds ids).Pairwise (· ≤ ·) :=
  List.pairwise_insertionSort _ ids

theorem mem_sortIds {ids : List FiberId} : id ∈ Diagnostic.sortIds ids ↔ id ∈ ids := List.mem_insertionSort _

theorem sortIds_strict {ids : List FiberId} (nodup : ids.Nodup) : (Diagnostic.sortIds ids).Pairwise (· < ·) := by
  have distinct : (Diagnostic.sortIds ids).Nodup := (List.perm_insertionSort _ ids).nodup_iff.mpr nodup
  exact ((sortIds_sorted ids).and distinct).imp fun h => lt_of_le_of_ne h.1 h.2

theorem length_sortIds (ids : List FiberId) : (Diagnostic.sortIds ids).length = ids.length :=
  List.length_insertionSort _ ids

/-- A strictly sorted list is told by its members. -/
theorem sorted_eq {ids ids' : List FiberId} (h : ids.Pairwise (· < ·)) (h' : ids'.Pairwise (· < ·))
    (same : ∀ id, id ∈ ids ↔ id ∈ ids') : ids = ids' :=
  List.Pairwise.eq_of_mem_iff h h' same

theorem sortIds_perm {ids ids' : List FiberId} (h : ids.Perm ids') : Diagnostic.sortIds ids = Diagnostic.sortIds ids' := by
  have perm : (Diagnostic.sortIds ids).Perm (Diagnostic.sortIds ids') :=
    ((List.perm_insertionSort _ ids).trans h).trans (List.perm_insertionSort _ ids').symm
  exact perm.eq_of_pairwise (fun a b _ _ less more => le_antisymm less more) (sortIds_sorted ids) (sortIds_sorted ids')

/-! The conflicts -/

theorem slot_eq {s : ScopeId} {r : Realm} {k : ServiceId} :
    DiagSlot.of s r k = slot ↔ s = slot.scope ∧ r = slot.realm ∧ k = slot.key := by
  constructor
  · rintro rfl
    exact ⟨rfl, rfl, rfl⟩
  · rintro ⟨rfl, rfl, rfl⟩
    rfl

theorem mem_diagSlots : (slot, id) ∈ rt.diagSlots ↔ rt.ProvidesIn slot id := by
  unfold diagSlots ProvidesIn
  simp only [List.mem_flatMap, List.mem_map, Prod.mk.injEq, slot_eq]
  constructor
  · rintro ⟨⟨j, f⟩, member, k, provided, ⟨scope, realm, rfl⟩, rfl⟩
    exact ⟨f, SortedMap.mem_toList.mp member, provided, scope, realm⟩
  · rintro ⟨f, found, provided, scope, realm⟩
    exact ⟨(id, f), SortedMap.mem_toList.mpr found, slot.key, provided, ⟨scope, realm, rfl⟩, rfl⟩

variable (rt slot) in
/-- The entries of a slot. -/
def holders : List FiberId := (rt.diagSlots.filter (·.1 = slot)).map Prod.snd

theorem mem_holders : id ∈ rt.holders slot ↔ rt.ProvidesIn slot id := by
  rw [← mem_diagSlots]
  simp [holders]

theorem mem_conflicts : x ∈ rt.conflicts ↔
    ∃ slot, 2 ≤ (rt.holders slot).length ∧ x = .make .conflict slot.keyName slot.key.version (rt.holders slot) := by
  have sorted : (rt.diagSlots.insertionSort fun a b => a.1 ≤ b.1).Pairwise fun a b => a.1 ≤ b.1 :=
    List.pairwise_insertionSort (fun a b : DiagSlot × FiberId => a.1 ≤ b.1) _
  unfold conflicts
  have perm : (rt.diagSlots.insertionSort fun a b => a.1 ≤ b.1).Perm rt.diagSlots := List.perm_insertionSort _ _
  generalize rt.diagSlots.insertionSort (fun a b => a.1 ≤ b.1) = entries at sorted perm ⊢
  have group (g : DiagSlot × List FiberId) :
      g ∈ runs entries ↔ g.2 ≠ [] ∧ (entries.filter (·.1 = g.1)).map Prod.snd = g.2 := by
    convert mem_runs sorted
  have held (slot : DiagSlot) : ((entries.filter (·.1 = slot)).map Prod.snd).Perm (rt.holders slot) :=
    (perm.filter _).map _
  simp only [List.mem_filterMap, Option.ite_none_right_eq_some, Option.some.injEq]
  constructor
  · rintro ⟨g, member, several, rfl⟩
    have same := ((group g).mp member).2 ▸ held g.1
    refine ⟨g.1, same.length_eq ▸ several, ?_⟩
    rw [Diagnostic.make, Diagnostic.make, sortIds_perm same]
  · rintro ⟨slot, several, rfl⟩
    rw [← (held slot).length_eq] at several
    refine ⟨(slot, _), (group _).mpr ⟨fun none => ?_, rfl⟩, several, ?_⟩
    · dsimp only at none
      rw [none] at several
      exact absurd several (by decide)
    · rw [Diagnostic.make, Diagnostic.make, sortIds_perm (held slot)]

theorem diagSlots_nodup : rt.diagSlots.Nodup ↔ rt.ListsOnce := by
  have piece (e : FiberId × FiberRecord) :
      (e.2.provide.map fun k => (DiagSlot.of e.2.scope (rt.contexts.realmFor e.2.scope k) k, e.1)).Nodup ↔ e.2.provide.Nodup :=
    List.nodup_map_iff fun k k' same => (slot_eq.mp (Prod.mk.inj same).1).2.2
  unfold diagSlots ListsOnce
  rw [List.nodup_flatMap]
  constructor
  · rintro ⟨each, -⟩ id f found
    exact (piece (id, f)).mp (each (id, f) (SortedMap.mem_toList.mpr found))
  · intro once
    refine ⟨fun e member => (piece e).mpr (once e.1 e.2 (SortedMap.mem_toList.mp member)), ?_⟩
    refine rt.fibers.sorted.imp fun less entry first second => ?_
    obtain ⟨_, -, rfl⟩ := List.mem_map.mp first
    obtain ⟨_, -, same⟩ := List.mem_map.mp second
    exact absurd (Prod.mk.inj same).2 (ne_of_gt less)

theorem holders_nodup (once : rt.ListsOnce) : (rt.holders slot).Nodup := by
  refine List.Nodup.map_on (fun a ha b hb same => ?_) ((diagSlots_nodup.mpr once).filter _)
  have first := of_decide_eq_true (List.mem_filter.mp ha).2
  have second := of_decide_eq_true (List.mem_filter.mp hb).2
  exact Prod.ext (first.trans second.symm) same

theorem Warranted.strict (h : rt.Warranted x) : x.fibers.Pairwise (· < ·) := by
  cases h with
  | conflict _ strict _ _ => exact strict
  | component _ strict _ _ => exact strict
  | own => exact List.pairwise_singleton _ _

theorem conflicts_exact (once : rt.ListsOnce) : x ∈ rt.conflicts ↔ rt.Warranted x ∧ x.kind = .conflict := by
  rw [mem_conflicts]
  constructor
  · rintro ⟨slot, several, rfl⟩
    refine ⟨.conflict slot (sortIds_strict (holders_nodup once)) ?_ fun id => ?_, rfl⟩
    · rw [length_sortIds]
      exact several
    · rw [mem_sortIds, mem_holders]
  · rintro ⟨warranted, kind⟩
    cases warranted with
    | @conflict slot ids strict several members =>
        have same : Diagnostic.sortIds (rt.holders slot) = ids :=
          sorted_eq (sortIds_strict (holders_nodup once)) strict fun id => by rw [mem_sortIds, mem_holders, members]
        refine ⟨slot, ?_, ?_⟩
        · rw [← length_sortIds, same]
          exact several
        · rw [Diagnostic.make, same]
    | component | own => cases kind

/-- A fiber that lists a key twice is in conflict with itself. -/
theorem conflicts_repeat (twice : ¬ rt.ListsOnce) : ∃ x ∈ rt.conflicts, ¬ x.fibers.Nodup := by
  rw [← diagSlots_nodup, ← List.exists_duplicate_iff_not_nodup] at twice
  obtain ⟨⟨slot, id⟩, twice⟩ := twice
  have pair : [id, id].Sublist (rt.holders slot) := by
    have sub := ((List.duplicate_iff_sublist.mp twice).filter (·.1 = slot)).map Prod.snd
    simpa [holders] using sub
  refine ⟨_, mem_conflicts.mpr ⟨slot, pair.length_le, rfl⟩, fun nodup => ?_⟩
  have distinct := ((List.perm_insertionSort _ _).nodup_iff.mp nodup).sublist pair
  exact (List.nodup_cons.mp distinct).1 List.mem_cons_self

/-! The cycles -/

theorem diagOrder_sorted : rt.diagOrder.Pairwise (· < ·) := List.pairwise_map.mpr rt.fibers.sorted

theorem mem_diagOrder : id ∈ rt.diagOrder ↔ ∃ f, rt.find id = some f := by
  unfold diagOrder
  rw [List.mem_map]
  constructor
  · rintro ⟨⟨_, f⟩, member, rfl⟩
    exact ⟨f, SortedMap.mem_toList.mp member⟩
  · rintro ⟨f, found⟩
    exact ⟨(id, f), SortedMap.mem_toList.mpr found, rfl⟩

theorem pos_eq {p : Nat} (there : rt.diagOrder[p]? = some id) : rt.pos id = p := by
  obtain ⟨bound, rfl⟩ := List.getElem?_eq_some_iff.mp there
  refine (List.findIdx_eq bound).mpr ⟨by simp, fun j before => ?_⟩
  have sorted : rt.diagOrder.Pairwise (· < ·) := diagOrder_sorted
  have less := List.pairwise_iff_getElem.mp sorted j p (before.trans bound) bound before
  simp [less]

theorem diagOrder_pos (live : id ∈ rt.diagOrder) : rt.diagOrder[rt.pos id]? = some id := by
  obtain ⟨p, there⟩ := List.mem_iff_getElem?.mp live
  rw [pos_eq there, there]

theorem pos_lt (live : id ∈ rt.diagOrder) : rt.pos id < rt.diagOrder.length :=
  (List.getElem?_eq_some_iff.mp (diagOrder_pos live)).1

theorem mem_diagTargets (registered : rt.Registered) {n : FiberId} {f : FiberRecord} (found : rt.find id = some f) :
    n ∈ rt.diagTargets f ↔ rt.DependsOn id n := by
  unfold diagTargets DependsOn
  rw [List.mem_dedup, List.mem_insertionSort, List.mem_flatMap]
  constructor
  · rintro ⟨k, declared, member⟩
    split at member
    · cases member
    · next ids some =>
        obtain ⟨listed, onChain⟩ := List.mem_filter.mp member
        obtain ⟨g, there, provided⟩ := (registered.lists k n).mp ⟨ids, some, listed⟩
        rw [there, Option.any_some] at onChain
        exact ⟨f, g, found, there, ⟨k, declared, provided⟩, onChain⟩
  · rintro ⟨f', g, found', there, ⟨k, declared, provided⟩, onChain⟩
    cases found.symm.trans found'
    obtain ⟨ids, some, listed⟩ := (registered.lists k n).mpr ⟨g, there, provided⟩
    refine ⟨k, declared, ?_⟩
    rw [some]
    refine List.mem_filter.mpr ⟨listed, ?_⟩
    rw [there, Option.any_some]
    exact onChain

theorem DependsOn.live {n : FiberId} (h : rt.DependsOn id n) : id ∈ rt.diagOrder ∧ n ∈ rt.diagOrder := by
  obtain ⟨f, g, found, there, -⟩ := h
  exact ⟨mem_diagOrder.mpr ⟨f, found⟩, mem_diagOrder.mpr ⟨g, there⟩⟩

/-- Each entry sets the row at its own position. -/
theorem rows_fold {entries : List (FiberId × FiberRecord)} {rows : List (List FiberId)}
    (distinct : entries.Pairwise fun a b => rt.pos a.1 ≠ rt.pos b.1) (bound : ∀ e ∈ entries, rt.pos e.1 < rows.length)
    {e : FiberId × FiberRecord} (member : e ∈ entries) :
    (entries.foldl (fun rows e => rows.set (rt.pos e.1) (rt.diagTargets e.2)) rows)[rt.pos e.1]? = some (rt.diagTargets e.2) := by
  have kept {p : Nat} {entries : List (FiberId × FiberRecord)} (other : ∀ e ∈ entries, rt.pos e.1 ≠ p)
      (rows : List (List FiberId)) :
      (entries.foldl (fun rows e => rows.set (rt.pos e.1) (rt.diagTargets e.2)) rows)[p]? = rows[p]? := by
    induction entries generalizing rows with
    | nil => rfl
    | cons e entries ih =>
        obtain ⟨apart, other⟩ := List.forall_mem_cons.mp other
        rw [List.foldl_cons, ih other, List.getElem?_set_ne apart]
  induction entries generalizing rows with
  | nil => cases member
  | cons e' entries ih =>
      obtain ⟨apart, distinct⟩ := List.pairwise_cons.mp distinct
      obtain ⟨here, bound⟩ := List.forall_mem_cons.mp bound
      rw [List.foldl_cons]
      rcases List.mem_cons.mp member with rfl | member
      · rw [kept fun e' member => (apart e' member).symm, List.getElem?_set_self here]
      · exact ih distinct (fun e member => by rw [List.length_set]; exact bound e member) member

/-- The rows of an earlier call leave nothing behind. -/
theorem diagAdjacency_row (old : List (List FiberId)) {f : FiberRecord} (found : rt.find id = some f) :
    (rt.diagAdjacency old)[rt.pos id]? = some (rt.diagTargets f) := by
  have live {e : FiberId × FiberRecord} (member : e ∈ rt.fibers.toList) : e.1 ∈ rt.diagOrder := List.mem_map_of_mem member
  refine rows_fold (e := (id, f)) ?_ (fun e member => ?_) (SortedMap.mem_toList.mpr found)
  · refine rt.fibers.sorted.imp_of_mem fun {a b} first second less same => ?_
    have there := diagOrder_pos (live first)
    rw [same, diagOrder_pos (live second)] at there
    exact absurd (Option.some.inj there) (ne_of_gt less)
  · rw [List.length_map, List.length_append, List.length_replicate]
    have bound := pos_lt (live member)
    omega

section
variable {rows : List (List FiberId)} {a b : FiberId} {p q : Nat}

/-- The rows hold the declared graph. -/
def Rows (rt : Runtime) (rows : List (List FiberId)) : Prop :=
  ∀ id f, rt.find id = some f → ∃ row, rows[rt.pos id]? = some row ∧ ∀ n, n ∈ row ↔ rt.DependsOn id n

theorem diagAdjacency_rows (registered : rt.Registered) (old : List (List FiberId)) : rt.Rows (rt.diagAdjacency old) :=
  fun _ f found => ⟨rt.diagTargets f, diagAdjacency_row old found, fun _ => mem_diagTargets registered found⟩

theorem mem_diagEdges (h : rt.Rows rows) (there : rt.diagOrder[p]? = some a) :
    q ∈ rt.diagEdges rows p ↔ ∃ b, rt.DependsOn a b ∧ rt.diagOrder[q]? = some b := by
  obtain ⟨f, found⟩ := mem_diagOrder.mp (List.mem_of_getElem? there)
  obtain ⟨row, held, depends⟩ := h a f found
  rw [pos_eq there] at held
  unfold diagEdges
  rw [held, Option.getD_some, List.mem_map]
  constructor
  · rintro ⟨b, member, rfl⟩
    have edge := (depends b).mp member
    exact ⟨b, edge, diagOrder_pos edge.live.2⟩
  · rintro ⟨b, edge, target⟩
    exact ⟨b, (depends b).mpr edge, pos_eq target⟩

theorem reach_leads (h : rt.Rows rows) (there : rt.diagOrder[p]? = some a) (reach : Search.Reach (rt.diagEdges rows) p q) :
    ∃ b, rt.diagOrder[q]? = some b ∧ rt.Leads a b := by
  induction reach with
  | refl => exact ⟨a, there, .refl⟩
  | tail _ edge ih =>
      obtain ⟨b, before, leads⟩ := ih
      obtain ⟨c, depends, target⟩ := (mem_diagEdges h before).mp edge
      exact ⟨c, target, leads.tail depends⟩

theorem leads_reach (h : rt.Rows rows) (live : a ∈ rt.diagOrder) (leads : rt.Leads a b) :
    b ∈ rt.diagOrder ∧ Search.Reach (rt.diagEdges rows) (rt.pos a) (rt.pos b) := by
  induction leads with
  | refl => exact ⟨live, .refl⟩
  | tail _ depends ih =>
      obtain ⟨live, reach⟩ := ih
      have target := depends.live.2
      exact ⟨target, reach.tail ((mem_diagEdges h (diagOrder_pos live)).mpr ⟨_, depends, diagOrder_pos target⟩)⟩

theorem reach_iff (h : rt.Rows rows) (first : rt.diagOrder[p]? = some a) (second : rt.diagOrder[q]? = some b) :
    Search.Reach (rt.diagEdges rows) p q ↔ rt.Leads a b := by
  constructor
  · intro reach
    obtain ⟨c, there, leads⟩ := reach_leads h first reach
    exact Option.some.inj (there.symm.trans second) ▸ leads
  · intro leads
    have reach := (leads_reach h (List.mem_of_getElem? first) leads).2
    rwa [pos_eq first, pos_eq second] at reach

end

theorem diagEdges_closed {rows : List (List FiberId)} (h : rt.Rows rows) :
    ∀ p ∈ List.range rt.diagOrder.length, ∀ q ∈ rt.diagEdges rows p, q ∈ List.range rt.diagOrder.length := by
  intro p bound q edge
  obtain ⟨b, -, target⟩ := (mem_diagEdges h (List.getElem?_eq_getElem (List.mem_range.mp bound))).mp edge
  exact List.mem_range.mpr (List.getElem?_eq_some_iff.mp target).1

/-- The fibers at the positions of a component are the component of any of them. -/
theorem component_ids {rows : List (List FiberId)} {scc : List Nat} {p : Nat} {root : FiberId} (h : rt.Rows rows)
    (component : Search.IsComponent (rt.diagEdges rows) scc) (bound : ∀ q ∈ scc, q ∈ List.range rt.diagOrder.length)
    (member : p ∈ scc) (there : rt.diagOrder[p]? = some root) :
    (Diagnostic.sortIds (scc.map fun q => rt.diagOrder[q]?.getD 0)).Pairwise (· < ·) ∧
      ∀ id, id ∈ Diagnostic.sortIds (scc.map fun q => rt.diagOrder[q]?.getD 0) ↔ rt.Leads root id ∧ rt.Leads id root := by
  have held {q : Nat} (inside : q ∈ scc) : rt.diagOrder[q]? = some (rt.diagOrder[q]?.getD 0) := by
    rw [List.getElem?_eq_getElem (List.mem_range.mp (bound q inside)), Option.getD_some]
  refine ⟨sortIds_strict (List.Nodup.map_on (fun q hq q' hq' same => ?_) component.1), fun id => ?_⟩
  · exact (pos_eq (held hq)).symm.trans (same ▸ pos_eq (held hq'))
  · rw [mem_sortIds, List.mem_map]
    constructor
    · rintro ⟨q, inside, rfl⟩
      obtain ⟨out, back⟩ := (component.mem_iff member).mp inside
      exact ⟨(reach_iff h there (held inside)).mp out, (reach_iff h (held inside) there).mp back⟩
    · rintro ⟨out, back⟩
      have live := (leads_reach h (List.mem_of_getElem? there) out).1
      have target := diagOrder_pos live
      refine ⟨rt.pos id, (component.mem_iff member).mpr ⟨?_, ?_⟩, by rw [target, Option.getD_some]⟩
      · exact (reach_iff h there target).mpr out
      · exact (reach_iff h target there).mpr back

/-- A component of several fibers has a member that depends on another one. -/
theorem component_depends {root : FiberId} {ids : List FiberId} (strict : ids.Pairwise (· < ·)) (several : 2 ≤ ids.length)
    (members : ∀ v, v ∈ ids ↔ rt.Leads root v ∧ rt.Leads v root) : ∃ n, rt.DependsOn root n := by
  obtain ⟨v, inside, other⟩ : ∃ v ∈ ids, root ≠ v := by
    by_contra none
    push Not at none
    have alone : ids.length ≤ [root].length :=
      (List.subperm_of_subset (strict.imp ne_of_lt) fun v inside => by simp [none v inside]).length_le
    exact absurd (several.trans alone) (Nat.not_succ_le_self 1)
  obtain same | ⟨n, depends, -⟩ := ((members v).mp inside).1.cases_head
  · exact absurd same other
  · exact ⟨n, depends⟩

theorem cycles_exact {rows : List (List FiberId)} (h : rt.Rows rows) :
    x ∈ rt.cycles rows ↔ rt.Cyclic x := by
  obtain ⟨components, -, covered⟩ := Search.scan_spec (diagEdges_closed h)
  unfold cycles
  simp only [List.mem_filterMap, Option.ite_none_right_eq_some, Option.some.injEq]
  constructor
  · rintro ⟨scc, found, several, rfl⟩
    obtain ⟨component, bound⟩ := components scc found
    have several' : 2 ≤ (Diagnostic.sortIds (scc.map fun q => rt.diagOrder[q]?.getD 0)).length := by
      rw [length_sortIds, List.length_map]
      exact several
    obtain ⟨p, member⟩ := List.exists_mem_of_length_pos (Nat.zero_lt_of_lt several)
    have there := List.getElem?_eq_getElem (List.mem_range.mp (bound p member))
    obtain ⟨strict, members⟩ := component_ids h component bound member there
    exact ⟨.component _ strict several' members, rfl, several'⟩
  · rintro ⟨warranted, kind, several⟩
    cases warranted with
    | conflict => cases kind
    | own => exact absurd several (Nat.not_succ_le_self 1)
    | @component root ids strict _ members =>
        obtain ⟨n, depends⟩ := component_depends strict several members
        have live := depends.live.1
        obtain ⟨scc, found, member⟩ := covered (rt.pos root) (List.mem_range.mpr (pos_lt live))
        obtain ⟨component, bound⟩ := components scc found
        obtain ⟨strict', members'⟩ := component_ids h component bound member (diagOrder_pos live)
        have same : Diagnostic.sortIds (scc.map fun q => rt.diagOrder[q]?.getD 0) = ids :=
          sorted_eq strict' strict fun id => by rw [members', members]
        refine ⟨scc, found, ?_, by rw [Diagnostic.make, same]⟩
        have length := congrArg List.length same
        rw [length_sortIds, List.length_map] at length
        exact length ▸ several

/-! The fibers that need themselves -/

theorem selfProvisions_exact : x ∈ rt.selfProvisions ↔ rt.Warranted x ∧ x.kind = .cycle ∧ x.fibers.length = 1 := by
  unfold selfProvisions
  simp only [List.mem_filterMap, Option.map_eq_some_iff]
  constructor
  · rintro ⟨⟨id, f⟩, member, key, first, rfl⟩
    exact ⟨.own (SortedMap.mem_toList.mp member) first, rfl, rfl⟩
  · rintro ⟨warranted, kind, alone⟩
    cases warranted with
    | conflict => cases kind
    | component _ _ several _ => exact absurd alone (ne_of_gt several)
    | @own id f key found first => exact ⟨(id, f), SortedMap.mem_toList.mpr found, key, first, rfl⟩

end
end Runtime

/-! Signatures -/

/-- The identities at the end of a signature. -/
def idsText (ids : List FiberId) : List Char := ids.flatMap fun id => (toString id).toList ++ [',']

theorem signature_toList (x : Diagnostic) : x.signature.toList =
    ((x.kind.opening.toList ++ x.keyName.toList) ++ ':' :: (toString x.keyVersion).toList) ++ ':' :: idsText x.fibers := by
  have fold (ids : List FiberId) (sig : String) :
      (ids.foldl (fun sig id => sig ++ (toString id ++ ",")) sig).toList = sig.toList ++ idsText ids := by
    induction ids generalizing sig with
    | nil => simp [idsText]
    | cons id ids ih =>
        rw [List.foldl_cons, ih]
        simp [idsText]
  unfold Diagnostic.signature
  rw [fold]
  simp

theorem idsText_injective {ids ids' : List FiberId} (same : idsText ids = idsText ids') : ids = ids' := by
  induction ids generalizing ids' with
  | nil =>
      cases ids' with
      | nil => rfl
      | cons id ids' => simp [idsText] at same
  | cons id ids ih =>
      cases ids' with
      | nil => simp [idsText] at same
      | cons id' ids' =>
          have split : (toString id).toList ++ ',' :: idsText ids = (toString id').toList ++ ',' :: idsText ids' := by
            simpa [idsText] using same
          have head : id = id' := decimal_before (by decide) split
          subst head
          rw [ih (List.cons.inj (List.append_cancel_left split)).2]

theorem not_colon {n : Nat} : ':' ∉ (toString n).toList := fun member => by
  have digit := decimal_digits member
  exact absurd digit (by decide)

theorem idsText_solid (ids : List FiberId) : ':' ∉ idsText ids := by
  intro member
  obtain ⟨id, -, member⟩ := List.mem_flatMap.mp member
  rcases List.mem_append.mp member with digit | comma
  · exact not_colon digit
  · exact absurd (List.mem_singleton.mp comma) (by decide)

/-- Two diagnostics with one signature are the same. -/
theorem signature_injective {x y : Diagnostic} (same : x.signature = y.signature) : x = y := by
  have text := congrArg String.toList same
  rw [signature_toList, signature_toList] at text
  obtain ⟨front, ids⟩ := split_last text (idsText_solid _) (idsText_solid _)
  obtain ⟨named, version⟩ := split_last front not_colon not_colon
  have openings : x.kind.opening.toList.length = y.kind.opening.toList.length := by cases x.kind <;> cases y.kind <;> rfl
  obtain ⟨opening, name⟩ := List.append_inj named openings
  have kind : x.kind = y.kind := by
    cases hx : x.kind <;> cases hy : y.kind <;> first | rfl | (rw [hx, hy] at opening; exact absurd opening (by decide))
  obtain ⟨_, _, _, _⟩ := x
  obtain ⟨_, _, _, _⟩ := y
  dsimp only at kind name version ids
  rw [kind, String.toList_inj.mp name, decimal_injective (String.toList_inj.mp version), idsText_injective ids]

/-! What is handed to the sink -/

namespace Diagnoser
variable {d d' : Diagnoser} {rt : Runtime} {x : Diagnostic} {xs : List Diagnostic}

/-- What a run of `emit` adds: each new diagnostic once, and none that was reported before. -/
structure Adds (d : Diagnoser) (xs : List Diagnostic) (d' : Diagnoser) : Prop where
  hasSink : d'.hasSink = d.hasSink
  reported : ∀ σ, σ ∈ d'.reported ↔ σ ∈ d.reported ∨ ∃ x ∈ xs, x.signature = σ
  sent : ∃ new, d'.sent = d.sent ++ new ∧ new.Nodup ∧
    ∀ x, x ∈ new ↔ d.hasSink = true ∧ x ∈ xs ∧ x.signature ∉ d.reported

theorem emit_adds (d : Diagnoser) (x : Diagnostic) : Adds d [x] (d.emit x) := by
  unfold emit
  split
  case isTrue old =>
    refine ⟨rfl, fun σ => ?_, [], by simp, .nil, fun y => ?_⟩
    · simp only [List.mem_singleton, exists_eq_left]
      exact ⟨.inl, fun h => h.elim id fun same => same ▸ old⟩
    · simp only [List.not_mem_nil, List.mem_singleton, false_iff]
      rintro ⟨-, rfl, new⟩
      exact new old
  case isFalse new =>
    refine ⟨rfl, fun σ => ?_, if d.hasSink then [x] else [], ?_, ?_, fun y => ?_⟩
    · simp only [SortedSet.mem_insert, List.mem_singleton, exists_eq_left]
      rw [or_comm, eq_comm]
    · dsimp only
      split <;> simp
    · split <;> simp
    · split
      case isTrue sink =>
        simp only [List.mem_singleton, sink, true_and]
        exact ⟨fun same => ⟨same, same ▸ new⟩, fun h => h.1⟩
      case isFalse none => simp [none]

theorem Adds.append {ys : List Diagnostic} {d'' : Diagnoser} (h : Adds d xs d') (h' : Adds d' ys d'') :
    Adds d (xs ++ ys) d'' := by
  obtain ⟨first, sent, nodup, members⟩ := h.sent
  obtain ⟨second, sent', nodup', members'⟩ := h'.sent
  refine ⟨h'.hasSink.trans h.hasSink, fun σ => ?_, first ++ second, ?_, ?_, fun x => ?_⟩
  · rw [h'.reported, h.reported, or_assoc]
    simp only [List.mem_append, or_and_right, exists_or]
  · rw [sent', sent, List.append_assoc]
  · refine List.Nodup.append nodup nodup' fun x before after => ?_
    have fresh := ((members' x).mp after).2.2
    exact fresh ((h.reported _).mpr (.inr ⟨x, ((members x).mp before).2.1, rfl⟩))
  · rw [List.mem_append, members, members', h.hasSink, h.reported, List.mem_append]
    constructor
    · rintro (⟨sink, member, new⟩ | ⟨sink, member, new⟩)
      · exact ⟨sink, .inl member, new⟩
      · exact ⟨sink, .inr member, fun old => new (.inl old)⟩
    · rintro ⟨sink, member, new⟩
      by_cases before : x ∈ xs
      · exact .inl ⟨sink, before, new⟩
      · refine .inr ⟨sink, member.resolve_left before, ?_⟩
        rintro (old | ⟨y, there, same⟩)
        · exact new old
        · exact before (signature_injective same ▸ there)

theorem foldl_adds (d : Diagnoser) (xs : List Diagnostic) : Adds d xs (xs.foldl emit d) := by
  induction xs generalizing d with
  | nil => exact ⟨rfl, by simp, [], by simp, .nil, by simp⟩
  | cons x xs ih => exact (emit_adds d x).append (ih (d.emit x))

theorem foldl_adjacency (d : Diagnoser) (xs : List Diagnostic) : (xs.foldl emit d).adjacency = d.adjacency := by
  induction xs generalizing d with
  | nil => rfl
  | cons x xs ih =>
      rw [List.foldl_cons, ih]
      unfold emit
      split <;> rfl

/-- A diagnosis hands all it raises to `emit`. -/
theorem diagnose_adds (d : Diagnoser) (rt : Runtime) (scanCycles : Bool) :
    Adds d (d.raised rt scanCycles) (d.diagnose rt scanCycles) := by
  have first := foldl_adds d rt.conflicts
  have rows := foldl_adjacency d rt.conflicts
  unfold diagnose raised
  cases scanCycles with
  | false => simpa using first.append (foldl_adds _ rt.selfProvisions)
  | true =>
      simp only [if_true, rows]
      have second := foldl_adds { rt.conflicts.foldl emit d with adjacency := rt.diagAdjacency d.adjacency }
        (rt.cycles (rt.diagAdjacency d.adjacency))
      have tables : Adds d rt.conflicts { rt.conflicts.foldl emit d with adjacency := rt.diagAdjacency d.adjacency } :=
        ⟨first.hasSink, first.reported, first.sent⟩
      exact (tables.append second).append (foldl_adds _ rt.selfProvisions)

/-- The sink was handed no signature twice. -/
structure Sound (d : Diagnoser) : Prop where
  once : d.sent.Nodup
  reported : ∀ x ∈ d.sent, x.signature ∈ d.reported

theorem Adds.sound (h : Adds d xs d') (sound : d.Sound) : d'.Sound := by
  obtain ⟨new, sent, nodup, members⟩ := h.sent
  constructor
  · rw [sent]
    exact sound.once.append nodup fun x before after => ((members x).mp after).2.2 (sound.reported x before)
  · intro x member
    rw [sent] at member
    rcases List.mem_append.mp member with before | after
    · exact (h.reported _).mpr (.inl (sound.reported x before))
    · exact (h.reported _).mpr (.inr ⟨x, ((members x).mp after).2.1, rfl⟩)

/-- A full diagnosis raises the warranted diagnostics and no others, and the sink is handed those that are new. -/
structure Exact (d : Diagnoser) (rt : Runtime) : Prop where
  raised : ∀ x, x ∈ d.raised rt true ↔ rt.Warranted x
  sent : ∃ new, (d.diagnose rt true).sent = d.sent ++ new ∧
    ∀ x, x ∈ new ↔ d.hasSink = true ∧ rt.Warranted x ∧ x.signature ∉ d.reported
  reported : ∀ σ, σ ∈ (d.diagnose rt true).reported ↔ σ ∈ d.reported ∨ ∃ x, rt.Warranted x ∧ x.signature = σ
  once : ((d.diagnose rt true).sent.map Diagnostic.signature).Nodup

theorem raised_exact (registered : rt.Registered) (once : rt.ListsOnce) : x ∈ d.raised rt true ↔ rt.Warranted x := by
  have rows := Runtime.diagAdjacency_rows registered d.adjacency
  unfold raised
  rw [if_pos rfl, List.mem_append, List.mem_append, Runtime.conflicts_exact once, Runtime.cycles_exact rows,
    Runtime.selfProvisions_exact]
  constructor
  · rintro ((h | h) | h) <;> exact h.1
  · intro warranted
    cases warranted with
    | conflict slot strict several members => exact .inl (.inl ⟨.conflict slot strict several members, rfl⟩)
    | component root strict several members => exact .inl (.inr ⟨.component root strict several members, rfl, several⟩)
    | own found first => exact .inr ⟨.own found first, rfl, rfl⟩

theorem exact_iff (registered : rt.Registered) (sound : d.Sound) : d.Exact rt ↔ rt.ListsOnce := by
  constructor
  · intro exact
    by_contra twice
    obtain ⟨x, member, repeated⟩ := Runtime.conflicts_repeat twice
    have raised : x ∈ d.raised rt true := List.mem_append_left _ (List.mem_append_left _ member)
    exact repeated (((exact.raised x).mp raised).strict.imp ne_of_lt)
  · intro once
    have adds := diagnose_adds d rt true
    have raised (x : Diagnostic) : x ∈ d.raised rt true ↔ rt.Warranted x := raised_exact registered once
    obtain ⟨new, sent, -, members⟩ := adds.sent
    refine ⟨raised, ⟨new, sent, fun x => by rw [members, raised]⟩, fun σ => ?_, ?_⟩
    · simp only [adds.reported, raised]
    · exact (adds.sound sound).once.map fun x y same => signature_injective same

end Diagnoser

/-! The runtime and its diagnoses -/

inductive DiagnosisLabel where
  | engine (a : Label Op)
  | diagnose (scanCycles : Bool)
  /-- Another sink is registered, or an empty one. -/
  | onDiagnostic (hasSink : Bool)

def diagnosisNext (s : EngineConfig × Diagnoser) : DiagnosisLabel → Option (EngineConfig × Diagnoser)
  | .engine a => (engine.next s.1 a).map (·, s.2)
  | .diagnose scanCycles => some (s.1, s.2.diagnose s.1.state scanCycles)
  | .onDiagnostic hasSink => some (s.1, { s.2 with hasSink })

/-- A runtime that may be diagnosed in any state. -/
def diagnosis : System (EngineConfig × Diagnoser) DiagnosisLabel where
  start s := engine.system.start s.1 ∧ s.2 = {}
  step s a s' := diagnosisNext s a = some s'

section
variable {s : EngineConfig × Diagnoser} {rt : Runtime}

theorem Runtime.Fresh.registered (h : rt.Fresh) : rt.Registered where
  lists k id := by
    unfold Runtime.find Runtime.Lists
    rw [h.fibers, h.providersOf]
    simp
  noneEmpty k ids found := by
    rw [h.providersOf] at found
    cases found

theorem Runtime.Fresh.known (h : rt.Fresh) : rt.Known := by
  intro j f found
  unfold Runtime.find at found
  rw [h.fibers] at found
  cases found

theorem diagnosis_sound (reached : diagnosis.Reached (fun _ _ => True) s) :
    s.1.state.Known ∧ s.1.state.Registered ∧ s.2.Sound := by
  refine reached.invariant (I := fun s => s.1.state.Known ∧ s.1.state.Registered ∧ s.2.Sound) ?_ ?_
  · rintro ⟨c, d⟩ ⟨⟨fresh, -⟩, empty⟩
    dsimp only at empty
    subst empty
    exact ⟨fresh.known, fresh.registered, .nil, nofun⟩
  · rintro ⟨c, d⟩ a ⟨c', d'⟩ - ⟨known, registered, sound⟩ step -
    cases a with
    | engine a =>
        obtain ⟨c'', next, same⟩ := Option.map_eq_some_iff.mp step
        cases same
        exact ⟨engine_known next known, engine_registered next known registered, sound⟩
    | diagnose scanCycles =>
        cases step
        exact ⟨known, registered, (d.diagnose_adds c.state scanCycles).sound sound⟩
    | onDiagnostic hasSink =>
        cases step
        exact ⟨known, registered, sound.once, sound.reported⟩

def storeSpec (provide : List ServiceId) (inject : List Dependency) : ComponentSpec where
  descriptor := { name := "store", provide, inject }

/-- Registers a sink, mounts each component and diagnoses. -/
def diagnosedRun (specs : List ComponentSpec) : Option (EngineConfig × Diagnoser) :=
  System.follow diagnosisNext (fun _ _ => true) (⟨{}, []⟩, {})
    (.onDiagnostic true :: specs.flatMap fun spec => [.engine (.op (.mount spec)), .engine .run, .diagnose true])

theorem diagnosedRun_reached {specs : List ComponentSpec} (run : diagnosedRun specs = some s) :
    diagnosis.Reached (fun _ _ => True) s := by
  refine System.follow_reached (S := diagnosis) (P := fun _ _ => True) (fun _ _ _ h => h) (fun _ _ _ => trivial) run (.start ?_)
  exact ⟨⟨⟨rfl, rfl, rfl, rfl, rfl, rfl, rfl, rfl⟩, rfl⟩, rfl⟩

/-- In every state the diagnosis is exact if and only if no mounted fiber provides a key twice. -/
theorem diagnose_exact (reached : diagnosis.Reached (fun _ _ => True) s) :
    s.2.Exact s.1.state ↔ s.1.state.ListsOnce := by
  obtain ⟨-, registered, sound⟩ := diagnosis_sound reached
  exact Diagnoser.exact_iff registered sound

theorem diagnose_exact_cycle : ∃ s, diagnosis.Reached (fun _ _ => True) s ∧ s.2.Exact s.1.state ∧
    s.2.sent = [⟨.cycle, "", 0, [1, 2]⟩, ⟨.conflict, "db", 1, [1, 3]⟩] := by
  have played : (diagnosedRun [storeSpec [⟨"db", 1⟩] [⟨⟨"log", 1⟩, true⟩], storeSpec [⟨"log", 1⟩] [⟨⟨"db", 1⟩, true⟩],
      storeSpec [⟨"db", 1⟩] []]).any (fun s => (s.1.state.fibers.toList.all fun e => decide e.2.provide.Nodup) &&
        decide (s.2.sent = [⟨.cycle, "", 0, [1, 2]⟩, ⟨.conflict, "db", 1, [1, 3]⟩])) = true := by
    decide +kernel
  obtain ⟨s, run, holds⟩ := (Option.any_eq_true _ _).mp played
  obtain ⟨once, sent⟩ := Bool.and_eq_true_iff.mp holds
  have reached := diagnosedRun_reached run
  refine ⟨s, reached, (diagnose_exact reached).mpr fun id f found => ?_, of_decide_eq_true sent⟩
  exact of_decide_eq_true (List.all_eq_true.mp once (id, f) (SortedMap.mem_toList.mpr found))

/-- One component that lists its key twice is reported to be in conflict with itself. -/
theorem diagnose_lone_conflict : ∃ s, diagnosis.Reached (fun _ _ => True) s ∧
    (⟨.conflict, "db", 1, [1, 1]⟩ : Diagnostic) ∈ s.2.sent ∧ ¬ s.1.state.Warranted ⟨.conflict, "db", 1, [1, 1]⟩ ∧
    ¬ s.2.Exact s.1.state := by
  have played : (diagnosedRun [storeSpec [⟨"db", 1⟩, ⟨"db", 1⟩] []]).any (fun s =>
      decide ((⟨.conflict, "db", 1, [1, 1]⟩ : Diagnostic) ∈ s.2.sent) &&
        decide ((⟨.conflict, "db", 1, [1, 1]⟩ : Diagnostic) ∈ s.2.raised s.1.state true)) = true := by
    decide +kernel
  obtain ⟨s, run, holds⟩ := (Option.any_eq_true _ _).mp played
  obtain ⟨sent, raised⟩ := Bool.and_eq_true_iff.mp holds
  have unwarranted : ¬ s.1.state.Warranted ⟨.conflict, "db", 1, [1, 1]⟩ := fun warranted =>
    absurd warranted.strict (by decide)
  refine ⟨s, diagnosedRun_reached run, of_decide_eq_true sent, unwarranted, fun exact => ?_⟩
  exact unwarranted ((exact.raised _).mp (of_decide_eq_true raised))

end
end Araya
