import Araya.Session.Nodes

/-!
Where an event sits: the classification folds the log again, with no projections, and marks the spans of
its replacements. It agrees with the surface of the session when projections and spans are as it assumes.
-/

namespace Araya.Query

open Sessions
open SessionStore (foldLog)

inductive EventSurface where
  | current
  | shadowed
  | logOnly
  deriving DecidableEq

/-- One event of the fold, with the numbers shadowed so far. -/
def classifyEvent (folded : Surface × List Nat) (ev : Event) : Surface × List Nat :=
  match foldBuiltin ev with
  | .none => folded
  | .append message => (folded.1.push ev.seq message, folded.2)
  | .replace start stop message =>
    (folded.1.replace start stop ev.seq message, folded.2 ++ List.range' start (stop - start))

def classifySurfaces (events : List Event) : List EventSurface :=
  let folded := events.foldl classifyEvent ({}, [])
  events.map fun ev =>
    if ev.seq ∈ folded.1.sourceSeqs then .current
    else if ev.seq ∈ folded.2 then .shadowed
    else .logOnly

/-- The marks of a log say where its events are on the surface. -/
def Faithful (ps : List MessageProjection) (log : List Event) (surface : Surface) : Prop :=
  ∀ (j : Nat) (mark : EventSurface), (classifySurfaces log)[j]? = some mark →
    (mark = .current ↔ j ∈ surface.sourceSeqs) ∧ (mark = .shadowed ↔ Removed ps log j) ∧
      (mark = .logOnly ↔ j ∉ surface.sourceSeqs ∧ ¬ Removed ps log j)

/-- Some replacement spans `j` when no projection is registered. -/
def spanned (log : List Event) (j : Nat) : Bool := log.any fun ev => (foldBuiltin ev).spans j

/-- The spans hold the removed nodes and nothing else, and outside them projections make no difference. -/
def Plain (ps : List MessageProjection) (log : List Event) : Prop :=
  ∀ j < log.length, spanned log j = (noded ps log j && erased ps log j) ∧
    (spanned log j = false → noded ps log j = noded [] log j)

section
variable {ps : List MessageProjection} {log : List Event} {s : Surface} {j : Nat}

theorem classified_surface (events : List Event) (folded : Surface × List Nat) :
    foldLog [] events folded.1 = .ok (events.foldl classifyEvent folded).1 := by
  induction events generalizing folded with
  | nil => rfl
  | cons ev events ih =>
      have step : (classifyEvent folded ev).1 = folded.1.apply ev.seq (foldBuiltin ev) := by
        unfold classifyEvent
        cases foldBuiltin ev <;> rfl
      show foldLog [] events (folded.1.apply ev.seq (foldBuiltin ev)) = _
      rw [← step]
      exact ih (classifyEvent folded ev)

theorem mem_shadowed (events : List Event) (folded : Surface × List Nat) (j : Nat) :
    j ∈ (events.foldl classifyEvent folded).2 ↔ j ∈ folded.2 ∨ spanned events j = true := by
  induction events generalizing folded with
  | nil => exact (or_iff_left Bool.false_ne_true).symm
  | cons ev events ih =>
      have step : j ∈ (classifyEvent folded ev).2 ↔ j ∈ folded.2 ∨ (foldBuiltin ev).spans j = true := by
        unfold classifyEvent
        cases foldBuiltin ev with
        | replace start stop message =>
            rw [List.mem_append, List.mem_range'_1]
            refine or_congr_right (Iff.trans ?_ decide_eq_true_iff.symm)
            omega
        | _ => exact (or_iff_left Bool.false_ne_true).symm
      rw [List.foldl_cons, ih, step, or_assoc]
      refine or_congr_right ?_
      unfold spanned
      rw [List.any_cons, Bool.or_eq_true]

/-- Without projections an event is spanned later or not at all. -/
theorem erased_eq_spanned (canonical : Canonical log) (j : Nat) : erased [] log j = spanned log j := by
  refine Bool.eq_iff_iff.mpr ⟨fun gone => ?_, fun gone => ?_⟩
  · obtain ⟨ev, member, spans⟩ := List.any_eq_true.mp gone
    exact List.any_eq_true.mpr ⟨ev, List.mem_of_mem_drop member, spans⟩
  · obtain ⟨ev, member, spans⟩ := List.any_eq_true.mp gone
    obtain ⟨k, found⟩ := List.mem_iff_getElem?.mp member
    obtain ⟨seq, valid⟩ := canonical k ev found
    have later : j < k := seq ▸ spans_earlier valid spans
    refine List.any_eq_true.mpr ⟨ev, List.mem_iff_getElem?.mpr ⟨k - (j + 1), ?_⟩, spans⟩
    rw [List.getElem?_drop, Nat.add_sub_cancel' (Nat.succ_le_of_lt later)]
    exact found

/-- The mark of an event with or without a node of its own, inside or outside the spans. -/
def markOf (node inside : Bool) : EventSurface :=
  if node && !inside then .current else if inside then .shadowed else .logOnly

theorem mark_eq (canonical : Canonical log) (short : j < log.length) :
    (classifySurfaces log)[j]? = some (markOf (noded [] log j) (spanned log j)) := by
  obtain ⟨-, nodes⟩ := mem_foldLog canonical (classified_surface log ({}, []))
  have found : log[j]? = some log[j] := List.getElem?_eq_getElem short
  have seq : log[j].seq = j := (canonical j _ found).1
  have shadows := mem_shadowed log ({}, []) j
  rw [or_iff_right List.not_mem_nil] at shadows
  have current : j ∈ (log.foldl classifyEvent ({}, [])).1.sourceSeqs ↔ (noded [] log j && !spanned log j) = true := by
    rw [nodes j, erased_eq_spanned canonical, Bool.and_eq_true, Bool.not_eq_true']
  unfold classifySurfaces markOf
  dsimp only
  rw [List.getElem?_map, found, Option.map_some, seq]
  simp only [current, shadows]

/-- One event: what its mark says against what the surface says. -/
theorem marks_agree : ∀ node gone bare inside : Bool,
    ((markOf bare inside = .current ↔ node = true ∧ gone = false) ∧
      (markOf bare inside = .shadowed ↔ node = true ∧ gone = true) ∧
      (markOf bare inside = .logOnly ↔ ¬ (node = true ∧ gone = false) ∧ ¬ (node = true ∧ gone = true))) ↔
    inside = (node && gone) ∧ (inside = false → node = bare) := by decide

theorem faithful_iff (canonical : Canonical log) (folded : foldLog ps log {} = .ok s) : Faithful ps log s ↔ Plain ps log := by
  obtain ⟨-, nodes⟩ := mem_foldLog canonical folded
  have removed := removed_iff canonical folded
  constructor
  · intro faithful j short
    have marked := faithful j _ (mark_eq canonical short)
    rw [nodes j, removed j] at marked
    exact (marks_agree ..).mp marked
  · intro plain j mark found
    have short : j < log.length := by
      have bound := (List.getElem?_eq_some_iff.mp found).1
      rwa [classifySurfaces, List.length_map] at bound
    cases Option.some.inj (found.symm.trans (mark_eq canonical short))
    rw [nodes j, removed j]
    exact (marks_agree ..).mpr (plain j short)

/-- The surface of a session that goes through its store is the fold of its log. -/
theorem session_folds {σ : Type} {c : SessionConfig σ} (h : (sessionMachine σ).system.Reached Sessions.Steady c) {i : Nat} {session : Session}
    (object : c.state.sessions[i]? = some session) (alone : pending i c.stack = []) :
    Canonical session.log ∧ foldLog c.state.projections session.log {} = .ok session.surface := by
  have canonical := (aligned_reached (steady_reached h)).canonical i session object
  have surface := (replayed_reached h).surface i session object
  rw [alone, List.append_nil] at canonical surface
  exact ⟨canonical, surface⟩

end

/-- The classification is faithful exactly for the logs whose spans hold the removed nodes and nothing else, and
whose other events fold to a message with the projections as without them; so it is for the sessions of a store. -/
theorem classify_faithful_iff (σ : Type) :
    (∀ (ps : List MessageProjection) (log : List Event) (s : Surface), Canonical log → foldLog ps log {} = .ok s →
      (Faithful ps log s ↔ Plain ps log)) ∧
    ∀ (c : SessionConfig σ), (sessionMachine σ).system.Reached Sessions.Steady c → ∀ (i : Nat) (session : Session),
      c.state.sessions[i]? = some session → pending i c.stack = [] →
        (Faithful c.state.projections session.log session.surface ↔ Plain c.state.projections session.log) := by
  refine ⟨fun ps log s => faithful_iff, fun c h i session object alone => ?_⟩
  obtain ⟨canonical, folded⟩ := session_folds h object alone
  exact faithful_iff canonical folded

/-- A projection of notes into messages. -/
def noteProjection : MessageProjection where
  eventType := "note"
  fold ev := .ok (some { id := "n" ++ toString ev.seq, content := .arr [] })

/-- The check of `Steady` with projections registered before the sessions. -/
def settled? {σ : Type} (c : SessionConfig σ) (a : Label (SessionOp σ)) : Bool :=
  match a with
  | .op (.registerMessageProjection _) => c.state.sessions.isEmpty
  | _ => Sessions.steady? c a

theorem steady_of_settled {σ : Type} (c : SessionConfig σ) (a : Label (SessionOp σ)) (h : settled? c a = true) : Sessions.Steady c a := by
  unfold settled? at h
  split at h
  · exact ⟨trivial, List.isEmpty_iff.mp h⟩
  · exact Sessions.steady_of_check c a h

/-- A run of checked moves that ends at rest, with a session of which something was shown. -/
theorem played_session {moves : List (Label (SessionOp Unit))} {p : SessionConfig Unit → Session → Bool}
    (played : (System.follow (sessionMachine Unit).next settled? ⟨{}, []⟩ moves).any
      (fun c => c.stack.isEmpty && (c.state.sessions[0]?).any (p c)) = true) :
    ∃ c : SessionConfig Unit, (sessionMachine Unit).system.Reached Sessions.Steady c ∧ pending 0 c.stack = [] ∧
      ∃ s, c.state.sessions[0]? = some s ∧ p c s = true := by
  obtain ⟨c, hc, shown⟩ := (Option.any_eq_true _ _).mp played
  obtain ⟨empty, shown⟩ := Bool.and_eq_true_iff.mp shown
  obtain ⟨s, object, shown⟩ := (Option.any_eq_true _ _).mp shown
  have reached := System.follow_reached (S := (sessionMachine Unit).system) (P := Sessions.Steady)
    (fun _ _ _ h => h) steady_of_settled hc (.start ⟨rfl, rfl⟩)
  refine ⟨c, reached, ?_, s, object, shown⟩
  rw [List.isEmpty_iff.mp empty]
  rfl

def replaceTwo : Json :=
  .obj [("start_seq", .int 0), ("end_seq", .int 2), ("message", .obj [("id", .str "m2"), ("role", .str "user"), ("content", .arr [])])]

/-- A message and a note that are replaced together. -/
theorem classify_faithful_replaced : ∃ (c : SessionConfig Unit) (s : Session),
    classifySurfaces s.log = [.shadowed, .shadowed, .current] ∧ Faithful c.state.projections s.log s.surface := by
  have played : (System.follow (sessionMachine Unit).next settled? ⟨{}, []⟩
      [.op (.registerMessageProjection noteProjection), .op (.create "s" {} 0),
        .op (.append 0 "user/message" (userMessage "m1") 1 none), .run, .op (.append 0 "note" (.obj []) 2 none), .run,
        .op (.append 0 "surface/replace" replaceTwo 3 none), .run]).any (fun c =>
        c.stack.isEmpty && (c.state.sessions[0]?).any fun s => decide (s.log.length = 3 ∧
          classifySurfaces s.log = [.shadowed, .shadowed, .current] ∧
          ∀ j < 3, spanned s.log j = (noded c.state.projections s.log j && erased c.state.projections s.log j) ∧
            (spanned s.log j = false → noded c.state.projections s.log j = noded [] s.log j))) = true := by decide +kernel
  obtain ⟨c, reached, alone, s, object, shown⟩ := played_session played
  obtain ⟨length, marks, plain⟩ := of_decide_eq_true shown
  exact ⟨c, s, marks, ((classify_faithful_iff Unit).2 c reached 0 s object alone).mpr fun j short => plain j (length ▸ short)⟩

/-- A note that is on the surface is classified as log-only. -/
theorem note_misclassified : ¬ ∀ (c : SessionConfig Unit), (sessionMachine Unit).system.Reached Sessions.Steady c →
    ∀ (i : Nat) (s : Session), c.state.sessions[i]? = some s → pending i c.stack = [] →
      Faithful c.state.projections s.log s.surface := by
  intro faithful
  have played : (System.follow (sessionMachine Unit).next settled? ⟨{}, []⟩
      [.op (.registerMessageProjection noteProjection), .op (.create "s" {} 0), .op (.append 0 "note" (.obj []) 1 none),
        .run]).any (fun c => c.stack.isEmpty && (c.state.sessions[0]?).any fun s =>
          decide (classifySurfaces s.log = [.logOnly] ∧ s.surface.sourceSeqs = [0])) = true := by decide +kernel
  obtain ⟨c, reached, alone, s, object, shown⟩ := played_session played
  obtain ⟨marks, nodes⟩ := of_decide_eq_true shown
  have first : (classifySurfaces s.log)[0]? = some .logOnly := by
    rw [marks]
    rfl
  obtain ⟨-, -, logOnly⟩ := faithful c reached 0 s object alone 0 .logOnly first
  refine (logOnly.mp rfl).1 ?_
  rw [nodes]
  exact List.mem_cons_self

end Araya.Query
