import Araya.Runtime.Diagnose

/-!
The gate of the cycle scan. A mount whose factory does not throw is diagnosed, and the cycles are searched for only if one
of the keys the new fiber declares has a provider. Beside the diagnoser that obeys the gate stands one that scans at every
mount; a reconcile pass ends with a full scan for both.
-/

namespace Araya
namespace Runtime

/-- `cycles_possible`, for the fiber that was mounted. -/
def cyclesPossible (rt : Runtime) (id : FiberId) : Bool :=
  (rt.find id).any fun f => f.descriptor.injectKeys.any rt.providersOf.contains

/-- The mount loop of a reconcile pass finds nothing left to mount. -/
def allMounted (rt : Runtime) (desired : List DesiredComponent) : Bool :=
  desired.all fun node => rt.reconciled.contains node.path

/-- The frame raises an exception. -/
def throws (rt : Runtime) (fr : Frame) : Bool :=
  match rt.exec fr with
  | .call .. => false
  | .throw _ => true

end Runtime

/-- An engine with the mount whose `evaluate` is running, the diagnoser that obeys the gate and the one that does not. -/
structure Watch where
  config : EngineConfig := ⟨{}, []⟩
  due : Option FiberId := none
  gated : Diagnoser := {}
  full : Diagnoser := {}

namespace Watch

/-- The fiber whose mount goes on from `evaluate` to the gate in this step. -/
def reaches (w : Watch) : Label Op → Option FiberId
  | .op _ => none
  | .run =>
    match w.config.stack with
    | .evaluate id :: _ => if w.due = some id ∧ w.config.state.throws (.evaluate id) = false then some id else none
    | _ => none

/-- The step is the end of a reconcile pass. -/
def ends (w : Watch) : Label Op → Bool
  | .op _ => false
  | .run =>
    match w.config.stack with
    | .reconcileMount desired :: _ => w.config.state.allMounted desired
    | _ => false

/-- The mount that is pending after a step. -/
def dueAfter (w : Watch) (a : Label Op) (c : EngineConfig) : Option FiberId :=
  if (c.state.find w.config.state.nextId).isSome then some w.config.state.nextId
  else
    match a with
    | .run => none
    | .op _ => w.due

def after (w : Watch) (a : Label Op) (c : EngineConfig) : Watch :=
  let due := w.dueAfter a c
  match w.reaches a with
  | some id => ⟨c, due, w.gated.diagnose c.state (c.state.cyclesPossible id), w.full.diagnose c.state true⟩
  | none =>
    if w.ends a then ⟨c, due, w.gated.diagnose c.state true, w.full.diagnose c.state true⟩
    else { w with config := c, due }

end Watch

inductive WatchLabel where
  | engine (a : Label Op)
  | onDiagnostic (hasSink : Bool)

def watchNext (w : Watch) : WatchLabel → Option Watch
  | .engine a => (engine.next w.config a).map (w.after a)
  | .onDiagnostic hasSink => some { w with gated := { w.gated with hasSink }, full := { w.full with hasSink } }

def watch : System Watch WatchLabel where
  start w := engine.system.start w.config ∧ w.due = none ∧ w.gated = {} ∧ w.full = {}
  step w a w' := watchNext w a = some w'

/-! The cycles behind a closed gate -/

namespace Runtime

section
variable {rt : Runtime} {id : FiberId} {x : Diagnostic}

/-- A fiber none of whose keys has a provider depends on no fiber. -/
theorem closed_depends (registered : rt.Registered) (closed : rt.cyclesPossible id = false) (n : FiberId) :
    ¬ rt.DependsOn id n := by
  rintro ⟨f, g, found, there, ⟨k, declared, provided⟩, -⟩
  obtain ⟨ids, some, -⟩ := (registered.lists k n).mpr ⟨g, there, provided⟩
  unfold cyclesPossible at closed
  rw [found, Option.any_some, List.any_eq_false] at closed
  exact closed k declared (SortedMap.contains_iff.mpr ⟨ids, some⟩)

theorem dependsOn_eraseFiber {m n : FiberId} :
    (rt.eraseFiber id).DependsOn m n ↔ m ≠ id ∧ n ≠ id ∧ rt.DependsOn m n := by
  have contexts : (rt.eraseFiber id).contexts = rt.contexts := rfl
  unfold DependsOn
  simp only [find_eraseFiber, contexts]
  constructor
  · rintro ⟨f, g, found, there, edge⟩
    split at found
    · cases found
    · next other =>
        split at there
        · cases there
        · next other' => exact ⟨other, other', f, g, found, there, edge⟩
  · rintro ⟨other, other', f, g, found, there, edge⟩
    exact ⟨f, g, by rw [if_neg other, found], by rw [if_neg other', there], edge⟩

theorem leads_eraseFiber (alone : ∀ n, ¬ rt.DependsOn id n) {a b : FiberId} (other : b ≠ id) :
    (rt.eraseFiber id).Leads a b ↔ rt.Leads a b := by
  constructor
  · intro leads
    exact Relation.ReflTransGen.mono (fun _ _ edge => (dependsOn_eraseFiber.mp edge).2.2) a b leads
  · intro leads
    induction leads with
    | refl => exact .refl
    | @tail b c _ edge ih =>
        have before : b ≠ id := fun same => alone c (same ▸ edge)
        exact (ih before).tail (dependsOn_eraseFiber.mpr ⟨before, other, edge⟩)

/-- A fiber without an edge of its own is in no cycle with others. -/
theorem cyclic_eraseFiber (alone : ∀ n, ¬ rt.DependsOn id n) : (rt.eraseFiber id).Cyclic x ↔ rt.Cyclic x := by
  have back {root v : FiberId} (other : root ≠ id) :
      ((rt.eraseFiber id).Leads root v ∧ (rt.eraseFiber id).Leads v root) ↔ rt.Leads root v ∧ rt.Leads v root := by
    by_cases same : v = id
    · subst same
      have stuck : ¬ rt.Leads v root := fun leads =>
        leads.cases_head.elim (fun same => other same.symm) fun ⟨n, edge, _⟩ => alone n edge
      have stuck' : ¬ (rt.eraseFiber v).Leads v root := fun leads => stuck ((leads_eraseFiber alone other).mp leads)
      simp [stuck, stuck']
    · rw [leads_eraseFiber alone same, leads_eraseFiber alone other]
  constructor
  · rintro ⟨warranted, kind, several⟩
    refine ⟨?_, kind, several⟩
    cases warranted with
    | conflict => cases kind
    | own => exact absurd several (Nat.not_succ_le_self 1)
    | component root strict _ members =>
        obtain ⟨n, edge⟩ := component_depends strict several members
        exact .component root strict several fun v => (members v).trans (back (dependsOn_eraseFiber.mp edge).1)
  · rintro ⟨warranted, kind, several⟩
    refine ⟨?_, kind, several⟩
    cases warranted with
    | conflict => cases kind
    | own => exact absurd several (Nat.not_succ_le_self 1)
    | component root strict _ members =>
        obtain ⟨n, edge⟩ := component_depends strict several members
        have other : root ≠ id := fun same => alone n (same ▸ edge)
        exact .component root strict several fun v => (members v).trans (back other).symm

end
end Runtime

/-! Two diagnosers over one engine -/

namespace Diagnoser
variable {g g' f f' : Diagnoser} {rt : Runtime} {id : FiberId} {x : Diagnostic} {xs ys : List Diagnostic} {scan scan' : Bool}

/-- The two have reported the same. -/
structure Agree (g f : Diagnoser) : Prop where
  hasSink : f.hasSink = g.hasSink
  reported : ∀ σ, σ ∈ f.reported ↔ σ ∈ g.reported
  sent : ∀ x, x ∈ f.sent ↔ x ∈ g.sent

theorem Agree.adds (h : Agree g f) (gated : Adds g xs g') (full : Adds f ys f')
    (same : ∀ x, x.signature ∉ g.reported → (x ∈ ys ↔ x ∈ xs)) : Agree g' f' := by
  refine ⟨by rw [full.hasSink, gated.hasSink, h.hasSink], fun σ => ?_, fun x => ?_⟩
  · rw [full.reported, gated.reported, h.reported]
    by_cases old : σ ∈ g.reported
    · simp only [old, true_or]
    · simp only [old, false_or]
      constructor
      · rintro ⟨x, member, rfl⟩
        exact ⟨x, (same x old).mp member, rfl⟩
      · rintro ⟨x, member, rfl⟩
        exact ⟨x, (same x old).mpr member, rfl⟩
  · obtain ⟨new, sent, -, members⟩ := gated.sent
    obtain ⟨new', sent', -, members'⟩ := full.sent
    rw [sent, sent', List.mem_append, List.mem_append, h.sent, members, members', h.hasSink, h.reported]
    by_cases old : x.signature ∈ g.reported
    · simp [old]
    · rw [same x old]

theorem mem_raised (registered : rt.Registered) (d : Diagnoser) : x ∈ d.raised rt scan ↔
    (x ∈ rt.conflicts ∨ scan = true ∧ rt.Cyclic x) ∨ x ∈ rt.selfProvisions := by
  have rows := Runtime.diagAdjacency_rows registered d.adjacency
  unfold raised
  rw [List.mem_append, List.mem_append]
  cases scan with
  | false => simp
  | true =>
      rw [if_pos rfl, Runtime.cycles_exact rows]
      simp [Runtime.Cyclic]

/-- A diagnosis of the two goes the same way where the scans differ in nothing new. -/
theorem Agree.diagnose (h : Agree g f) (registered : rt.Registered)
    (same : ∀ x, x.signature ∉ g.reported → rt.Cyclic x → (scan' = true ↔ scan = true)) :
    Agree (g.diagnose rt scan) (f.diagnose rt scan') := by
  refine h.adds (diagnose_adds g rt scan) (diagnose_adds f rt scan') fun x new => ?_
  rw [mem_raised registered, mem_raised registered]
  by_cases cyclic : rt.Cyclic x
  · rw [same x new cyclic]
  · simp [cyclic]

end Diagnoser

/-! Runs -/

/-- When a mount comes to a closed gate, the components of several fibers among the others were all reported. -/
def Watch.Settled (w : Watch) : WatchLabel → Prop
  | .onDiagnostic _ => True
  | .engine a => ∀ c id, engine.next w.config a = some c → w.reaches a = some id → c.state.cyclesPossible id = false →
      ∀ x, (c.state.eraseFiber id).Cyclic x → x.signature ∈ w.gated.reported

section
variable {w w' : Watch} {a : Label Op} {c : EngineConfig}

theorem after_config (w : Watch) (a : Label Op) (c : EngineConfig) : (w.after a c).config = c := by
  unfold Watch.after
  dsimp only
  repeat' split
  all_goals rfl

/-- One step of the engine. -/
theorem agree_after (agree : w.gated.Agree w.full) (registered : c.state.Registered) (next : engine.next w.config a = some c)
    (settled : w.Settled (.engine a)) : (w.after a c).gated.Agree (w.after a c).full := by
  unfold Watch.after
  split
  case h_1 id reached =>
    refine agree.diagnose registered fun x new cyclic => ?_
    cases gate : c.state.cyclesPossible id with
    | true => rfl
    | false =>
        have alone := Runtime.closed_depends registered gate
        exact absurd (settled c id next reached gate x ((Runtime.cyclic_eraseFiber alone).mpr cyclic)) new
  case h_2 =>
    split
    · exact agree.diagnose registered fun _ _ _ => Iff.rfl
    · exact agree

/-- A mount that comes to a closed gate keeps the two together only if nothing was left to find. -/
theorem gate_misses {id : FiberId} (agree : w.gated.Agree w.full) (registered : c.state.Registered)
    (reached : w.reaches a = some id) (closed : c.state.cyclesPossible id = false) :
    (w.after a c).gated.Agree (w.after a c).full ↔
      ∀ x, (c.state.eraseFiber id).Cyclic x → x.signature ∈ w.gated.reported := by
  have alone := Runtime.closed_depends registered closed
  have after : w.after a c = ⟨c, w.dueAfter a c, w.gated.diagnose c.state false, w.full.diagnose c.state true⟩ := by
    unfold Watch.after
    rw [reached]
    dsimp only
    rw [closed]
  rw [after]
  constructor
  · intro together x cyclic
    have cyclic := (Runtime.cyclic_eraseFiber alone).mp cyclic
    have raised : x ∈ w.full.raised c.state true := (Diagnoser.mem_raised registered _).mpr (.inl (.inr ⟨rfl, cyclic⟩))
    have full := ((Diagnoser.diagnose_adds w.full c.state true).reported x.signature).mpr (.inr ⟨x, raised, rfl⟩)
    have gated := (together.reported _).mp full
    obtain old | ⟨y, found, same⟩ := ((Diagnoser.diagnose_adds w.gated c.state false).reported _).mp gated
    · exact old
    · obtain rfl := signature_injective same
      rcases (Diagnoser.mem_raised registered _).mp found with (conflict | ⟨none, -⟩) | own
      · obtain ⟨slot, -, rfl⟩ := Runtime.mem_conflicts.mp conflict
        exact absurd cyclic.2.1 nofun
      · cases none
      · exact absurd (Runtime.selfProvisions_exact.mp own).2.2 (ne_of_gt cyclic.2.2)
  · intro settled
    refine agree.diagnose registered fun x new cyclic => ?_
    exact absurd (settled x ((Runtime.cyclic_eraseFiber alone).mpr cyclic)) new

theorem watch_sound (reached : watch.Reached Watch.Settled w) :
    w.config.state.Known ∧ w.config.state.Registered ∧ w.gated.Agree w.full := by
  refine reached.invariant (I := fun w => w.config.state.Known ∧ w.config.state.Registered ∧ w.gated.Agree w.full) ?_ ?_
  · rintro ⟨c, due, g, f⟩ ⟨⟨fresh, -⟩, -, gated, full⟩
    dsimp only at gated full
    subst gated full
    exact ⟨fresh.known, fresh.registered, rfl, fun _ => Iff.rfl, fun _ => Iff.rfl⟩
  · rintro w a w' - ⟨known, registered, agree⟩ step settled
    cases a with
    | engine a =>
        obtain ⟨c, next, rfl⟩ := Option.map_eq_some_iff.mp step
        rw [after_config]
        have registered' := engine_registered next known registered
        exact ⟨engine_known next known, registered', agree_after agree registered' next settled⟩
    | onDiagnostic hasSink =>
        cases step
        exact ⟨known, registered, rfl, agree.reported, agree.sent⟩

/-! Schedules of mounts and retirements -/

def mounting (provide : List ServiceId) (inject : List ServiceId) : List WatchLabel :=
  [.engine (.op (.mount (storeSpec provide (inject.map (⟨·, true⟩))))), .engine .run]

theorem watch_start : watch.start {} := ⟨⟨⟨rfl, rfl, rfl, rfl, rfl, rfl, rfl, rfl⟩, rfl⟩, rfl, rfl, rfl⟩

/-- No mount comes to a closed gate while other fibers are mounted. -/
def openGates (w : Watch) : WatchLabel → Bool
  | .onDiagnostic _ => true
  | .engine a =>
    (engine.next w.config a).all fun c =>
      (w.reaches a).all fun id => c.state.cyclesPossible id || (c.state.eraseFiber id).fibers.toList.isEmpty

theorem openGates_settled (w : Watch) (a : WatchLabel) (gates : openGates w a = true) : w.Settled a := by
  cases a with
  | onDiagnostic => trivial
  | engine a =>
      intro c id next reached closed x cyclic
      dsimp only [openGates] at gates
      rw [next, Option.all_some, reached, Option.all_some, closed, Bool.false_or] at gates
      have none : (c.state.eraseFiber id).fibers.toList = [] := List.isEmpty_iff.mp gates
      obtain ⟨warranted, kind, several⟩ := cyclic
      cases warranted with
      | conflict => cases kind
      | own => exact absurd several (Nat.not_succ_le_self 1)
      | component root strict _ members =>
          obtain ⟨n, depends⟩ := Runtime.component_depends strict several members
          have live := depends.live.1
          unfold Runtime.diagOrder at live
          rw [none] at live
          cases live

/-- The gate loses nothing in the runs in which every closed gate is settled. -/
theorem gate_loses_nothing (reached : watch.Reached Watch.Settled w) :
    (∀ x, x ∈ w.gated.sent ↔ x ∈ w.full.sent) ∧ ∀ σ, σ ∈ w.gated.reported ↔ σ ∈ w.full.reported := by
  obtain ⟨-, -, agree⟩ := watch_sound reached
  exact ⟨fun x => (agree.sent x).symm, fun σ => (agree.reported σ).symm⟩

theorem gate_loses_nothing_cycle : ∃ w, watch.Reached Watch.Settled w ∧ w.full.sent = [⟨.cycle, "", 0, [1, 2]⟩] ∧
    ∀ x, x ∈ w.gated.sent ↔ x ∈ w.full.sent := by
  have played : (System.follow watchNext openGates {} (.onDiagnostic true :: mounting [⟨"db", 1⟩] [⟨"log", 1⟩] ++
      mounting [⟨"log", 1⟩] [⟨"db", 1⟩])).any (fun w => decide (w.full.sent = [⟨.cycle, "", 0, [1, 2]⟩])) = true := by
    decide +kernel
  obtain ⟨w, run, sent⟩ := (Option.any_eq_true _ _).mp played
  have reached := System.follow_reached (S := watch) (P := Watch.Settled) (fun _ _ _ h => h) openGates_settled run
    (.start watch_start)
  exact ⟨w, reached, of_decide_eq_true sent, (gate_loses_nothing reached).1⟩

/-- A fiber of a reported cycle is retired, and the cycle that is left waits for a mount that opens the gate. -/
theorem gate_misses_rest : ∃ w, watch.Reached (fun _ _ => True) w ∧
    (⟨.cycle, "", 0, [1, 3]⟩ : Diagnostic) ∈ w.full.sent ∧ (⟨.cycle, "", 0, [1, 3]⟩ : Diagnostic) ∉ w.gated.sent := by
  have played : (System.follow watchNext (fun _ _ => true) {} (.onDiagnostic true :: mounting [⟨"db", 1⟩] [⟨"log", 1⟩] ++
      mounting [⟨"web", 1⟩] [⟨"db", 1⟩] ++ mounting [⟨"log", 1⟩] [⟨"db", 1⟩, ⟨"web", 1⟩] ++ [.engine (.op (.retire 2))] ++
      mounting [] [])).any (fun w => decide ((⟨.cycle, "", 0, [1, 3]⟩ : Diagnostic) ∈ w.full.sent) &&
        decide ((⟨.cycle, "", 0, [1, 3]⟩ : Diagnostic) ∉ w.gated.sent)) = true := by
    decide +kernel
  obtain ⟨w, run, holds⟩ := (Option.any_eq_true _ _).mp played
  obtain ⟨full, gated⟩ := Bool.and_eq_true_iff.mp holds
  have reached := System.follow_reached (S := watch) (P := fun _ _ => True) (fun _ _ _ h => h) (fun _ _ _ => trivial) run
    (.start watch_start)
  exact ⟨w, reached, of_decide_eq_true full, of_decide_eq_true gated⟩

end
end Araya
