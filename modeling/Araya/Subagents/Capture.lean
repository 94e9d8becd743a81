import Araya.Agent.Loop
import Araya.Subagents.Structured
import Araya.Tools.Registry

/-!
The capture of a structured output. A child run with a schema has a tool, a guard and a result listener of its own in the
registry, and the three share one capture: the tool stages a value, the listener commits it once the call has succeeded,
and from the staging on the guard refuses every call. The loop of the child executes its calls one after another; what
the other guards, handlers and listeners do is left open.
-/

namespace Araya.Subagents

open Tools (ToolsService ToolContext ToolDefinition ToolEntry ToolRestriction)
open Agent (ToolResult ToolBatchOutcome RunOutcome runStatusName errorResult)
open Llm (ToolCallBlock)

/-- `structured_capture`, with every value it committed as a history. -/
structure Capture where
  schema : Json
  staged : Option Json := none
  value : Option Json := none
  recorded : Bool := false
  commits : List Json := []

def structuredTool : String := "structured_output"

def structuredToolDef (schema : Json) : ToolDefinition where
  name := structuredTool
  description :=
    "Report your final structured result. Call this exactly once, when your answer is complete; the arguments " ++
    "must match this tool's parameter schema exactly."
  parameters := schema

def recordedResult : ToolResult where
  content := Llm.textContent "Structured output recorded."
  concludesTurn := true

namespace Capture
variable (c : Capture) (context : ToolContext) (result : ToolResult)

/-- A value is staged or committed. -/
def closed : Bool := c.recorded || c.staged.isSome

def structuredHandler : Capture × ToolResult :=
  let violations := validateInto context.arguments c.schema "$"
  if violations.isEmpty then ({ c with staged := some context.arguments }, recordedResult)
  else
    (c, errorResult (violations.foldl (fun text violation => text ++ "\n- " ++ violation)
      "Error: arguments do not match the structured output schema:"))

def structuredGuard : Option String :=
  if !c.recorded && c.staged.isNone then none
  else some ("structured output already recorded: the run is complete, so `" ++ context.name ++ "` is not executed")

def structuredListener : Capture :=
  if context.name ≠ structuredTool then c
  else
    match c.staged with
    | none => c
    | some staged =>
      if result.isError || c.recorded then { c with staged := none }
      else { c with staged := none, value := some staged, recorded := true, commits := c.commits ++ [staged] }

end Capture

/-! The registry around the run -/

/-- Whose a handler, a guard or a listener is: the run's, or anyone else's. -/
inductive Callback where
  | structured
  | other
  deriving DecidableEq

/-- A guard or a result listener. -/
structure Hook where
  id : Nat
  scope : Option String
  callback : Callback
  deriving DecidableEq

def Hook.applies (hook : Hook) (scope : Option String) : Bool :=
  hook.scope.isNone || scope.isSome && hook.scope == scope

/-- The guards, or the result listeners, in the order of their registrations. -/
structure Hooks where
  nextId : Nat := 1
  entries : List Hook := []
  drawn : ∀ hook ∈ entries, hook.id < nextId := by simp

namespace Hooks
variable (hooks : Hooks)

/-- `guard` and `on_result`, with the id that the registration releases. -/
def add (scope : Option String) (callback : Callback) : Hooks × Nat :=
  ({ nextId := hooks.nextId + 1
     entries := hooks.entries ++ [⟨hooks.nextId, scope, callback⟩]
     drawn := by
       intro hook h
       rcases List.mem_append.mp h with old | new
       · exact Nat.lt_succ_of_lt (hooks.drawn hook old)
       · cases List.mem_singleton.mp new
         exact Nat.lt_succ_self _ }, hooks.nextId)

def release (id : Nat) : Hooks :=
  { hooks with
    entries := hooks.entries.filter (·.id != id)
    drawn := fun hook h => hooks.drawn hook (List.mem_of_mem_filter h) }

end Hooks

/-- What a guard says of a call. -/
inductive Verdict where
  | allow
  | deny (reason : String)
  | raise (what : String)

/-- What the guards and listeners of others do on one call, by their ids; a listener may raise. -/
structure Others where
  guard : Nat → ToolContext → Verdict
  listener : Nat → ToolContext → ToolResult → Option String

/-- The guards of others deny nothing, and no listener raises. -/
def Others.Quiet (others : Others) : Prop :=
  (∀ id context, others.guard id context = .allow) ∧ ∀ id context result, others.listener id context result = none

section
variable (others : Others) (context : ToolContext) (result : ToolResult) (scope : Option String)

/-- The first denial of the guards that apply to the scope. -/
def guardReason (capture : Capture) : List Hook → Verdict
  | [] => .allow
  | hook :: hooks =>
    if hook.applies scope then
      match hook.callback with
      | .structured => (capture.structuredGuard context).elim (guardReason capture hooks) .deny
      | .other =>
        match others.guard hook.id context with
        | .allow => guardReason capture hooks
        | verdict => verdict
    else guardReason capture hooks

/-- The listeners that apply to the scope in order; one that raises cuts off the rest. -/
def notifyResult (capture : Capture) : List Hook → Capture × Option String
  | [] => (capture, none)
  | hook :: hooks =>
    if hook.applies scope then
      match hook.callback with
      | .structured => notifyResult (capture.structuredListener context result) hooks
      | .other =>
        match others.listener hook.id context result with
        | none => notifyResult capture hooks
        | some what => (capture, some what)
    else notifyResult capture hooks

end

/-! The run -/

/-- A call that the registry took up: what its handler returned or its denial, and what a listener raised. -/
structure Settled where
  context : ToolContext
  result : ToolResult
  raised : Option String

/-- The result that the loop goes on with. -/
def Settled.answer (e : Settled) : ToolResult :=
  match e.raised with
  | none => e.result
  | some what => errorResult ("Error: " ++ what)

/-- A run with its registrations in place. The calls are those of the step that are still to execute, `pending` is the one
whose handler is suspended; what ran, what was settled and what was answered are histories. -/
structure ChildRun where
  child : String
  tools : ToolsService Callback
  guards : Hooks
  listeners : Hooks
  ownTool : Nat
  ownGuard : Nat
  ownListener : Nat
  capture : Capture
  calls : List ToolCallBlock := []
  outcome : ToolBatchOutcome := {}
  pending : Option ToolContext := none
  ran : List ToolContext := []
  settled : List Settled := []
  answers : List ToolResult := []

/-- `subagents::result`; `structured` is its `structure`. -/
structure Result where
  isError : Bool := false
  stopReason : String := ""
  output : String := ""
  error : String := ""
  child : String := ""
  structured : Option Json := none

/-- A step of the run, or a change to the registry that is not the run's. -/
inductive Act where
  | step (calls : List ToolCallBlock)
  | dispatch (stop : Bool) (others : Others)
  | settle (returned : Except String ToolResult) (others : Others)
  | registerTool (definition : ToolDefinition) (scope : Option String)
  | releaseTool (id : Nat)
  | restrict (filter : ToolRestriction) (scope : Option String)
  | releaseRestriction (id : Nat)
  | guard (scope : Option String)
  | releaseGuard (id : Nat)
  | onResult (scope : Option String)
  | releaseListener (id : Nat)

namespace ChildRun

/-- The registrations of `run`, before the child's first step. -/
def register (child : String) (schema : Json) (tools : ToolsService Callback) (guards listeners : Hooks) :
    Except String ChildRun :=
  match tools.registerTool (structuredToolDef schema) (fun _ => .structured) (some child) with
  | .error what => .error what
  | .ok (tools, ownTool) =>
    .ok {
      child, tools, ownTool
      guards := (guards.add (some child) .structured).1
      ownGuard := (guards.add (some child) .structured).2
      listeners := (listeners.add (some child) .structured).1
      ownListener := (listeners.add (some child) .structured).2
      capture := { schema } }

section
variable (s : ChildRun) (others : Others) (context : ToolContext) (result : ToolResult)

/-- The loop takes the result of a call. -/
def answer : ChildRun :=
  { s with
    outcome := { s.outcome with concluded := s.outcome.concluded || result.concludesTurn }
    answers := s.answers ++ [result] }

/-- The end of `invoke`: the listeners hear the result, and the loop takes it unless one raised. -/
def finish : ChildRun :=
  let notified := notifyResult others context result (some s.child) s.capture s.listeners.entries
  let e : Settled := ⟨context, result, notified.2⟩
  { s with capture := notified.1, settled := s.settled ++ [e] }.answer e.answer

/-- `tools_service::invoke` as the loop calls it; a handler of the run does not suspend, another one does. -/
def invoke : ChildRun :=
  match s.tools.resolve context.name (some s.child) with
  | none => s.answer (errorResult ("Error: unknown tool '" ++ context.name ++ "'"))
  | some entry =>
    match guardReason others context (some s.child) s.capture s.guards.entries with
    | .raise what => s.answer (errorResult ("Error: " ++ what))
    | .deny reason => s.finish others context (errorResult reason)
    | .allow =>
      match entry.handler context with
      | .structured =>
        { s with ran := s.ran ++ [context], capture := (s.capture.structuredHandler context).1 }.finish others context
          (s.capture.structuredHandler context).2
      | .other => { s with ran := s.ran ++ [context], pending := some context }

/-- The end of `run`: what it returns once the agent is done. -/
def conclude (outcome : Except String RunOutcome) (output : String) : Result :=
  let r : Result :=
    match outcome with
    | .error what => { child := s.child, isError := true, stopReason := "error", error := what }
    | .ok outcome => {
        child := s.child
        stopReason := runStatusName outcome.status
        isError := outcome.status = .error
        error := if outcome.status = .error then (outcome.failure.map (·.message)).getD "" else ""
        output }
  if s.capture.recorded then { r with structured := s.capture.value }
  else if !r.isError && r.stopReason == "completed" then
    { r with isError := true, stopReason := "error", error := "structured output was not recorded" }
  else r

end

section
variable (parse : String → Option Json) (s : ChildRun)

/-- The loop takes a call of the step, which is aborted once a stop was requested. -/
def dispatch (stop : Bool) (others : Others) (call : ToolCallBlock) : ChildRun :=
  if s.outcome.aborted || stop then
    { s with outcome := { s.outcome with aborted := true } }.answer
      (errorResult "Error: tool call aborted before dispatch")
  else
    s.invoke others ⟨call.id, call.name, s.child, (parse call.arguments).getD (.str call.arguments)⟩

/-- A suspended handler returns or raises. -/
def resume (returned : Except String ToolResult) (others : Others) (context : ToolContext) : ChildRun :=
  match returned with
  | .ok result => { s with pending := none }.finish others context result
  | .error what => { s with pending := none }.answer (errorResult ("Error: " ++ what))

/-- A step may be left early; the registrations of the run stay as long as it does. -/
def next : Act → Option ChildRun
  | .step calls => if s.pending.isSome then none else some { s with calls, outcome := {} }
  | .dispatch stop others =>
    match s.pending, s.calls with
    | none, call :: calls => some ({ s with calls }.dispatch parse stop others call)
    | _, _ => none
  | .settle returned others => s.pending.map fun context => s.resume returned others context
  | .registerTool definition scope =>
    (s.tools.registerTool definition (fun _ => .other) scope).toOption.map fun registered =>
      { s with tools := registered.1 }
  | .releaseTool id => if id = s.ownTool then none else some { s with tools := s.tools.releaseTool id }
  | .restrict filter scope =>
    (s.tools.restrict filter scope).toOption.map fun restricted => { s with tools := restricted.1 }
  | .releaseRestriction id => some { s with tools := s.tools.releaseRestriction id }
  | .guard scope => some { s with guards := (s.guards.add scope .other).1 }
  | .releaseGuard id => if id = s.ownGuard then none else some { s with guards := s.guards.release id }
  | .onResult scope => some { s with listeners := (s.listeners.add scope .other).1 }
  | .releaseListener id =>
    if id = s.ownListener then none else some { s with listeners := s.listeners.release id }

end
end ChildRun

/-- The registry has nothing of this run. -/
def Foreign (tools : ToolsService Callback) (guards listeners : Hooks) : Prop :=
  (∀ e ∈ tools.tools, ∀ context, e.handler context = .other) ∧
    ∀ hook ∈ guards.entries ++ listeners.entries, hook.callback = .other

/-- The child runs with a schema. -/
def childRuns (parse : String → Option Json) (schema : Json) : System ChildRun Act where
  start s := ∃ child tools guards listeners, Foreign tools guards listeners ∧
    ChildRun.register child schema tools guards listeners = .ok s
  step s a s' := s.next parse a = some s'

/-! What the three share -/

section
variable {c : Capture} {others : Others} {context : ToolContext} {result : ToolResult} {scope : Option String}

theorem closed_eq_false : c.closed = false ↔ c.recorded = false ∧ c.staged = none := by
  simp [Capture.closed]

/-- The handler stages valid arguments, or reports an error and stages nothing. -/
theorem structuredHandler_cases (c : Capture) (context : ToolContext) :
    validateInto context.arguments c.schema "$" = [] ∧
      (c.structuredHandler context).1 = { c with staged := some context.arguments } ∨
    (c.structuredHandler context).1 = c ∧ (c.structuredHandler context).2.isError = true := by
  unfold Capture.structuredHandler
  dsimp only
  split
  · next valid => exact .inl ⟨List.isEmpty_iff.mp valid, rfl⟩
  · exact .inr ⟨rfl, rfl⟩

/-- The listener leaves the capture alone, drops what is staged, or commits it. -/
theorem structuredListener_cases (c : Capture) (context : ToolContext) (result : ToolResult) :
    c.structuredListener context result = c ∨
    c.structuredListener context result = { c with staged := none } ∨
    ∃ v, context.name = structuredTool ∧ c.staged = some v ∧ result.isError = false ∧ c.recorded = false ∧
      c.structuredListener context result =
        { c with staged := none, value := some v, recorded := true, commits := c.commits ++ [v] } := by
  unfold Capture.structuredListener
  split
  · exact .inl rfl
  · next named =>
      split
      · exact .inl rfl
      · next v staged =>
          split
          · exact .inr (.inl rfl)
          · next open_ =>
              obtain ⟨success, fresh⟩ := Bool.or_eq_false_iff.mp (Bool.eq_false_of_not_eq_true open_)
              exact .inr (.inr ⟨v, not_not.mp named, staged, success, fresh, rfl⟩)

theorem structuredListener_commit {v : Json} (named : context.name = structuredTool) (staged : c.staged = some v)
    (success : result.isError = false) (fresh : c.recorded = false) : c.structuredListener context result =
      { c with staged := none, value := some v, recorded := true, commits := c.commits ++ [v] } := by
  unfold Capture.structuredListener
  rw [if_neg (not_not.mpr named), staged]
  simp [success, fresh]

theorem structuredListener_clear (clear : c.staged = none) : c.structuredListener context result = c := by
  unfold Capture.structuredListener
  split
  · rfl
  · rw [clear]

/-- To hear one result twice is to hear it once. -/
theorem structuredListener_idem :
    (c.structuredListener context result).structuredListener context result = c.structuredListener context result := by
  rcases structuredListener_cases c context result with same | dropped | ⟨v, _, _, _, _, committed⟩
  · rw [same, same]
  · rw [dropped]
    exact structuredListener_clear rfl
  · rw [committed]
    exact structuredListener_clear rfl

/-- The listeners leave the capture with what the run's own makes of it, if that is reached. -/
theorem notifyResult_cases (others : Others) (context : ToolContext) (result : ToolResult) (scope : Option String)
    (c : Capture) (hooks : List Hook) :
    (notifyResult others context result scope c hooks).1 = c ∨
      (notifyResult others context result scope c hooks).1 = c.structuredListener context result := by
  induction hooks generalizing c with
  | nil => exact .inl rfl
  | cons hook hooks ih =>
      unfold notifyResult
      split
      · split
        · rcases ih (c.structuredListener context result) with same | again
          · exact .inr same
          · exact .inr (again.trans structuredListener_idem)
        · split
          · exact ih c
          · exact .inl rfl
      · exact ih c

/-- What passes the guards passes those after the first. -/
theorem guardReason_tail {hook : Hook} {hooks : List Hook}
    (h : guardReason others context scope c (hook :: hooks) = .allow) :
    guardReason others context scope c hooks = .allow := by
  unfold guardReason at h
  split at h
  · split at h
    · cases denied : c.structuredGuard context with
      | none => simpa [denied] using h
      | some reason => simp [denied] at h
    · split at h
      · exact h
      · next denied => exact absurd h denied
  · exact h

theorem structuredGuard_none {context : ToolContext} (h : c.structuredGuard context = none) : c.closed = false := by
  unfold Capture.structuredGuard at h
  split at h
  · next clear => simpa [Capture.closed] using clear
  · cases h

/-- No call passes the guards once a value is staged. -/
theorem guardReason_open {id : Nat} {child : String} {hooks : List Hook} (own : ⟨id, some child, .structured⟩ ∈ hooks)
    (h : guardReason others context (some child) c hooks = .allow) : c.closed = false := by
  induction hooks with
  | nil => cases own
  | cons hook hooks ih =>
      rcases List.mem_cons.mp own with rfl | later
      · cases denied : c.structuredGuard context with
        | none => exact structuredGuard_none denied
        | some reason => simp [guardReason, Hook.applies, denied] at h
      · exact ih later (guardReason_tail h)

theorem guardReason_quiet (quiet : others.Quiet) (clear : c.closed = false) (hooks : List Hook) :
    guardReason others context scope c hooks = .allow := by
  have allowed : c.structuredGuard context = none := by
    obtain ⟨fresh, unstaged⟩ := closed_eq_false.mp clear
    simp [Capture.structuredGuard, fresh, unstaged]
  induction hooks with
  | nil => rfl
  | cons hook hooks ih =>
      unfold guardReason
      split
      · split
        · rw [allowed]
          exact ih
        · rw [quiet.1]
          exact ih
      · exact ih

/-- Where no listener raises, that of the run is reached. -/
theorem notifyResult_quiet (quiet : others.Quiet) {id : Nat} {child : String} {hooks : List Hook}
    (own : ⟨id, some child, .structured⟩ ∈ hooks) :
    notifyResult others context result (some child) c hooks = (c.structuredListener context result, none) := by
  have silent : ∀ hooks c, (notifyResult others context result (some child) c hooks).2 = none := by
    intro hooks
    induction hooks with
    | nil => exact fun c => rfl
    | cons hook hooks ih =>
        intro c
        unfold notifyResult
        split
        · split
          · exact ih _
          · rw [quiet.2]
            exact ih _
        · exact ih _
  refine Prod.ext ?_ (silent hooks c)
  induction hooks generalizing c with
  | nil => cases own
  | cons hook hooks ih =>
      rcases List.mem_cons.mp own with rfl | later
      · have heard : notifyResult others context result (some child) c (⟨id, some child, .structured⟩ :: hooks) =
            notifyResult others context result (some child) (c.structuredListener context result) hooks := by
          simp [notifyResult, Hook.applies]
        rw [heard]
        rcases notifyResult_cases others context result (some child) (c.structuredListener context result) hooks with
          same | again
        · exact same
        · exact again.trans structuredListener_idem
      · unfold notifyResult
        split
        · split
          · exact (ih later).trans structuredListener_idem
          · rw [quiet.2]
            exact ih later
        · exact ih later

end

/-! The capture over a run -/

/-- What holds of a capture after the calls so far: what is staged passes the check, and the one value that is committed
also was the argument of a call of the tool that succeeded. -/
structure Capture.Sound (schema : Json) (settled : List Settled) (c : Capture) : Prop where
  under : c.schema = schema
  staged : ∀ v ∈ c.staged, c.recorded = false ∧ validateInto v schema "$" = []
  recorded : c.recorded = c.value.isSome
  commits : c.commits = c.value.toList
  valid : ∀ v ∈ c.value, validateInto v schema "$" = []
  vouched : ∀ v ∈ c.value, ∃ e ∈ settled, e.context.name = structuredTool ∧ e.context.arguments = v ∧
    e.result.isError = false

section
variable {schema : Json} {settled : List Settled} {c : Capture} {context : ToolContext} {result : ToolResult}

theorem Capture.Sound.init : Capture.Sound schema [] { schema } where
  under := rfl
  staged := by simp
  recorded := rfl
  commits := rfl
  valid := by simp
  vouched := by simp

/-- The tool is only run while nothing is staged or committed. -/
theorem Capture.Sound.structuredHandler (sound : c.Sound schema settled) (context : ToolContext) (clear : c.closed = false) :
    (c.structuredHandler context).1.Sound schema settled ∧
      ∀ v ∈ (c.structuredHandler context).1.staged, context.arguments = v := by
  obtain ⟨fresh, unstaged⟩ := closed_eq_false.mp clear
  rcases structuredHandler_cases c context with ⟨valid, staged⟩ | ⟨same, _⟩
  · rw [staged]
    refine ⟨⟨sound.under, ?_, sound.recorded, sound.commits, sound.valid, sound.vouched⟩, ?_⟩
    · intro v hv
      cases hv
      exact ⟨fresh, sound.under ▸ valid⟩
    · intro v hv
      cases hv
      rfl
  · rw [same]
    refine ⟨sound, fun v hv => ?_⟩
    rw [unstaged] at hv
    cases hv

theorem Capture.Sound.settle (sound : c.Sound schema settled) (e : Settled) : c.Sound schema (settled ++ [e]) where
  under := sound.under
  staged := sound.staged
  recorded := sound.recorded
  commits := sound.commits
  valid := sound.valid
  vouched := fun v hv =>
    let ⟨e', he', from_⟩ := sound.vouched v hv
    ⟨e', List.mem_append_left _ he', from_⟩

/-- A result without an error is that of the call that staged its arguments. -/
theorem Capture.Sound.structuredListener (sound : c.Sound schema settled) (raised : Option String)
    (fits : ∀ v ∈ c.staged, result.isError = false → context.arguments = v) :
    (c.structuredListener context result).Sound schema (settled ++ [⟨context, result, raised⟩]) := by
  rcases structuredListener_cases c context result with
    same | dropped | ⟨v, named, staged, success, fresh, committed⟩
  · rw [same]
    exact sound.settle _
  · rw [dropped]
    have kept := sound.settle ⟨context, result, raised⟩
    exact ⟨kept.under, by simp, kept.recorded, kept.commits, kept.valid, kept.vouched⟩
  · rw [committed]
    have none : c.value = none := by
      simpa [fresh] using sound.recorded
    refine ⟨sound.under, by simp, rfl, ?_, ?_, ?_⟩
    · simp [sound.commits, none]
    · intro w hw
      cases hw
      exact (sound.staged v staged).2
    · intro w hw
      cases hw
      exact ⟨⟨context, result, raised⟩, by simp, named, fits v staged success, success⟩

end

/-! Runs -/

namespace ChildRun

structure Inv (schema : Json) (s : ChildRun) : Prop where
  sound : s.capture.Sound schema s.settled
  idle : s.capture.closed = true → s.pending = none
  guarded : ⟨s.ownGuard, some s.child, .structured⟩ ∈ s.guards.entries
  heard : ⟨s.ownListener, some s.child, .structured⟩ ∈ s.listeners.entries
  tool : ∃ e ∈ s.tools.tools, e.id = s.ownTool ∧ e.scope = some s.child ∧ e.definition.name = structuredTool ∧
    ∀ context, e.handler context = .structured

section
variable {schema : Json} {s s' : ChildRun} {others : Others} {context : ToolContext} {result : ToolResult}

theorem Inv.answer (inv : s.Inv schema) (result : ToolResult) : (s.answer result).Inv schema :=
  ⟨inv.sound, inv.idle, inv.guarded, inv.heard, inv.tool⟩

theorem Inv.finish (inv : s.Inv schema) (quiet : s.pending = none)
    (fits : ∀ v ∈ s.capture.staged, result.isError = false → context.arguments = v) :
    (s.finish others context result).Inv schema := by
  refine ⟨?_, fun _ => quiet, inv.guarded, inv.heard, inv.tool⟩
  rcases notifyResult_cases others context result (some s.child) s.capture s.listeners.entries with same | heard
  · simp only [ChildRun.finish, ChildRun.answer, same]
    exact inv.sound.settle _
  · simp only [ChildRun.finish, ChildRun.answer, heard]
    exact inv.sound.structuredListener _ fits

/-- A call meets the invariant: its handler runs only while the capture is open. -/
theorem Inv.invoke (inv : s.Inv schema) (quiet : s.pending = none) : (s.invoke others context).Inv schema := by
  unfold ChildRun.invoke
  split
  · exact inv.answer _
  · next entry found =>
      split
      · exact inv.answer _
      · exact inv.finish quiet fun v _ success => by cases success
      · next allowed =>
          have clear := guardReason_open inv.guarded allowed
          split
          · obtain ⟨sound, staged⟩ := inv.sound.structuredHandler context clear
            refine Inv.finish ⟨sound, fun _ => quiet, inv.guarded, inv.heard, inv.tool⟩ quiet fun v hv _ => staged v hv
          · exact ⟨inv.sound, fun shut => by simp [clear] at shut, inv.guarded, inv.heard, inv.tool⟩

/-- A handler that starts finds the capture open. -/
theorem Inv.ran (inv : s.Inv schema) (closed : s.capture.closed = true) :
    (s.invoke others context).ran = s.ran ∧ (s.invoke others context).pending = s.pending := by
  unfold ChildRun.invoke
  split
  · exact ⟨rfl, rfl⟩
  · split
    · exact ⟨rfl, rfl⟩
    · exact ⟨rfl, rfl⟩
    · next allowed =>
        have clear := guardReason_open inv.guarded allowed
        simp [closed] at clear

variable {parse : String → Option Json} {a : Act}

theorem register_cases {child : String} {tools : ToolsService Callback} {guards listeners : Hooks}
    (h : register child schema tools guards listeners = .ok s) : s.capture = { schema } ∧ s.pending = none ∧
      s.settled = [] ∧ ⟨s.ownGuard, some s.child, .structured⟩ ∈ s.guards.entries ∧
      ⟨s.ownListener, some s.child, .structured⟩ ∈ s.listeners.entries ∧
      ⟨s.ownTool, some s.child, structuredToolDef schema, fun _ => .structured⟩ ∈ s.tools.tools := by
  unfold register at h
  split at h
  · cases h
  · next registered =>
      obtain ⟨rfl, _, listed, _⟩ := ToolsService.registerTool_cases registered
      cases h
      refine ⟨rfl, rfl, rfl, ?_, ?_, ?_⟩
      · exact List.mem_append_right _ (List.mem_singleton_self _)
      · exact List.mem_append_right _ (List.mem_singleton_self _)
      · exact listed ▸ List.mem_append_right _ (List.mem_singleton_self _)

theorem mem_released {α : Type*} {entries : List α} {idOf : α → Nat} {entry : α} {id : Nat} (present : entry ∈ entries)
    (other : idOf entry ≠ id) : entry ∈ entries.filter fun entry => idOf entry != id :=
  List.mem_filter.mpr ⟨present, bne_iff_ne.mpr other⟩

theorem toOption_eq_some {ε α : Type*} {e : Except ε α} {a : α} : e.toOption = some a ↔ e = .ok a := by
  cases e <;> simp [Except.toOption]

/-- What a step is: the loop leaves the step or takes a call of it, a suspended handler ends, or the registry changes around
the run. -/
theorem next_cases (h : s.next parse a = some s') :
    (∃ calls, s' = { s with calls, outcome := {} }) ∨
    (∃ stop others call calls, s.pending = none ∧ s' = { s with calls }.dispatch parse stop others call) ∨
    (∃ returned others context, s.pending = some context ∧ s' = s.resume returned others context) ∨
    (∃ tools, (∀ e ∈ s.tools.tools, e.id = s.ownTool → e ∈ tools.tools) ∧ s' = { s with tools }) ∨
    (∃ guards, (∀ hook ∈ s.guards.entries, hook.id = s.ownGuard → hook ∈ guards.entries) ∧ s' = { s with guards }) ∨
    ∃ listeners, (∀ hook ∈ s.listeners.entries, hook.id = s.ownListener → hook ∈ listeners.entries) ∧
      s' = { s with listeners } := by
  cases a with
  | step calls =>
      simp only [next] at h
      split at h
      · cases h
      · exact .inl ⟨calls, (Option.some.inj h).symm⟩
  | dispatch stop others =>
      simp only [next] at h
      split at h
      · next call calls quiet listed => exact .inr (.inl ⟨stop, others, call, calls, quiet, (Option.some.inj h).symm⟩)
      · cases h
  | settle returned others =>
      obtain ⟨context, pending, rfl⟩ := Option.map_eq_some_iff.mp h
      exact .inr (.inr (.inl ⟨returned, others, context, pending, rfl⟩))
  | registerTool definition scope =>
      obtain ⟨registered, made, rfl⟩ := Option.map_eq_some_iff.mp h
      obtain ⟨_, _, listed, _⟩ := ToolsService.registerTool_cases (toOption_eq_some.mp made)
      exact .inr (.inr (.inr (.inl ⟨_, fun e present _ => listed ▸ List.mem_append_left _ present, rfl⟩)))
  | releaseTool id =>
      simp only [next] at h
      split at h
      · cases h
      · next foreign =>
          refine .inr (.inr (.inr (.inl ⟨_, ?_, (Option.some.inj h).symm⟩)))
          exact fun e present own => mem_released present (own ▸ Ne.symm foreign)
  | restrict filter scope =>
      obtain ⟨restricted, made, rfl⟩ := Option.map_eq_some_iff.mp h
      obtain ⟨_, _, same, _⟩ := ToolsService.restrict_cases (toOption_eq_some.mp made)
      exact .inr (.inr (.inr (.inl ⟨_, fun e present _ => same ▸ present, rfl⟩)))
  | releaseRestriction id =>
      refine .inr (.inr (.inr (.inl ⟨s.tools.releaseRestriction id, ?_, (Option.some.inj h).symm⟩)))
      exact fun e present _ => present
  | guard scope =>
      refine .inr (.inr (.inr (.inr (.inl ⟨_, ?_, (Option.some.inj h).symm⟩))))
      exact fun hook present _ => List.mem_append_left _ present
  | releaseGuard id =>
      simp only [next] at h
      split at h
      · cases h
      · next foreign =>
          refine .inr (.inr (.inr (.inr (.inl ⟨_, ?_, (Option.some.inj h).symm⟩))))
          exact fun hook present own => mem_released present (own ▸ Ne.symm foreign)
  | onResult scope =>
      refine .inr (.inr (.inr (.inr (.inr ⟨_, ?_, (Option.some.inj h).symm⟩))))
      exact fun hook present _ => List.mem_append_left _ present
  | releaseListener id =>
      simp only [next] at h
      split at h
      · cases h
      · next foreign =>
          refine .inr (.inr (.inr (.inr (.inr ⟨_, ?_, (Option.some.inj h).symm⟩))))
          exact fun hook present own => mem_released present (own ▸ Ne.symm foreign)

theorem Inv.dispatch (inv : s.Inv schema) (quiet : s.pending = none) (stop : Bool) (call : ToolCallBlock) :
    (s.dispatch parse stop others call).Inv schema := by
  unfold ChildRun.dispatch
  split
  · have aborted : Inv schema { s with outcome := { s.outcome with aborted := true } } :=
      ⟨inv.sound, inv.idle, inv.guarded, inv.heard, inv.tool⟩
    exact aborted.answer _
  · exact inv.invoke quiet

theorem Inv.resume (inv : s.Inv schema) (pending : s.pending = some context) (returned : Except String ToolResult) :
    (s.resume returned others context).Inv schema := by
  have clear : s.capture.staged = none := by
    have open_ : s.capture.closed ≠ true := fun closed => by simp [inv.idle closed] at pending
    exact (closed_eq_false.mp (Bool.eq_false_of_not_eq_true open_)).2
  have inv' : Inv schema { s with pending := none } := ⟨inv.sound, fun _ => rfl, inv.guarded, inv.heard, inv.tool⟩
  cases returned with
  | error what => exact inv'.answer _
  | ok result =>
      refine inv'.finish rfl fun v hv _ => ?_
      rw [show _ = _ from clear] at hv
      cases hv

theorem Inv.next (inv : s.Inv schema) (h : s.next parse a = some s') : s'.Inv schema := by
  rcases next_cases h with ⟨calls, rfl⟩ | ⟨stop, others, call, calls, quiet, rfl⟩ |
    ⟨returned, others, context, pending, rfl⟩ | ⟨tools, kept, rfl⟩ | ⟨guards, kept, rfl⟩ | ⟨listeners, kept, rfl⟩
  · exact ⟨inv.sound, inv.idle, inv.guarded, inv.heard, inv.tool⟩
  · have taken : Inv schema { s with calls } := ⟨inv.sound, inv.idle, inv.guarded, inv.heard, inv.tool⟩
    exact taken.dispatch quiet stop call
  · exact inv.resume pending returned
  · obtain ⟨e, present, own, scope, named, handler⟩ := inv.tool
    exact ⟨inv.sound, inv.idle, inv.guarded, inv.heard, e, kept e present own, own, scope, named, handler⟩
  · exact ⟨inv.sound, inv.idle, kept _ inv.guarded rfl, inv.heard, inv.tool⟩
  · exact ⟨inv.sound, inv.idle, inv.guarded, kept _ inv.heard rfl, inv.tool⟩

/-- No step from a closed capture starts a handler. -/
theorem Inv.next_ran (inv : s.Inv schema) (closed : s.capture.closed = true) (h : s.next parse a = some s') :
    s'.ran = s.ran ∧ s'.pending = s.pending := by
  rcases next_cases h with ⟨calls, rfl⟩ | ⟨stop, others, call, calls, quiet, rfl⟩ |
    ⟨returned, others, context, pending, rfl⟩ | ⟨tools, kept, rfl⟩ | ⟨guards, kept, rfl⟩ | ⟨listeners, kept, rfl⟩
  · exact ⟨rfl, rfl⟩
  · unfold ChildRun.dispatch
    split
    · exact ⟨rfl, rfl⟩
    · have taken : Inv schema { s with calls } := ⟨inv.sound, inv.idle, inv.guarded, inv.heard, inv.tool⟩
      exact taken.ran closed
  · rw [inv.idle closed] at pending
    cases pending
  · exact ⟨rfl, rfl⟩
  · exact ⟨rfl, rfl⟩
  · exact ⟨rfl, rfl⟩

theorem finish_quiet (quiet : others.Quiet) {s : ChildRun}
    (heard : (⟨s.ownListener, some s.child, .structured⟩ : Hook) ∈ s.listeners.entries) (context : ToolContext)
    (result : ToolResult) : s.finish others context result = ChildRun.answer { s with
      capture := s.capture.structuredListener context result
      settled := s.settled ++ [⟨context, result, none⟩] } result := by
  unfold ChildRun.finish
  rw [notifyResult_quiet quiet heard]
  rfl

/-- A call of the tool with valid arguments commits them and concludes the turn, where the others neither deny nor raise. -/
theorem Inv.commits (inv : s.Inv schema) (clear : s.capture.closed = false) (quiet : others.Quiet) (context : ToolContext)
    (named : context.name = structuredTool) (valid : validateInto context.arguments schema "$" = []) :
    (s.invoke others context).capture.value = some context.arguments ∧
      (s.invoke others context).outcome.concluded = true := by
  obtain ⟨e, present, _, scope, called, handler⟩ := inv.tool
  have found : s.tools.resolve context.name (some s.child) = some e := by
    rw [named, ← called]
    exact ToolsService.resolve_own present scope
  have staged : s.capture.structuredHandler context =
      ({ s.capture with staged := some context.arguments }, recordedResult) := by
    simp [Capture.structuredHandler, inv.sound.under, valid]
  unfold ChildRun.invoke
  rw [found, guardReason_quiet quiet clear]
  dsimp only
  rw [handler, staged]
  have ended := finish_quiet (s := {
    s with ran := s.ran ++ [context], capture := { s.capture with staged := some context.arguments } })
    quiet inv.heard context recordedResult
  have committed := structuredListener_commit (c := { s.capture with staged := some context.arguments }) named rfl
    (show recordedResult.isError = false from rfl) (closed_eq_false.mp clear).1
  dsimp only at ended committed ⊢
  rw [ended, committed]
  exact ⟨rfl, Bool.or_true _⟩

/-- The result of a run has what its capture committed. -/
theorem Inv.conclude_structured (inv : s.Inv schema) (outcome : Except String RunOutcome) (output : String) :
    (s.conclude outcome output).structured = s.capture.value := by
  have recorded := inv.sound.recorded
  unfold conclude
  cases done : s.capture.recorded with
  | true => rfl
  | false =>
      have absent : s.capture.value = none := by
        simpa [done] using recorded
      rw [absent]
      cases outcome with
      | error what => rfl
      | ok outcome =>
          dsimp only
          split_ifs <;> rfl

theorem inv_of_reached (h : (childRuns parse schema).Reached (fun _ _ => True) s) : s.Inv schema := by
  refine h.invariant (fun s start => ?_) fun s a s' _ inv step _ => inv.next step
  obtain ⟨child, tools, guards, listeners, _, registered⟩ := start
  obtain ⟨capture, quiet, unsettled, guarded, heard, tool⟩ := register_cases registered
  refine ⟨?_, fun _ => quiet, guarded, heard, _, tool, rfl, rfl, rfl, fun _ => rfl⟩
  rw [capture, unsettled]
  exact .init

end
end ChildRun

/-- A child run with a schema commits at most one value, which is the structure of its result: it passes the check and was
the argument of a call of the tool that succeeded. No handler runs from a staging on, as long as the value stays. -/
theorem structured_output_terminal {parse : String → Option Json} {schema : Json} {s : ChildRun}
    (h : (childRuns parse schema).Reached (fun _ _ => True) s) :
    s.capture.commits.length ≤ 1 ∧
    (∀ outcome output, (s.conclude outcome output).structured = s.capture.commits.head?) ∧
    (∀ v ∈ s.capture.commits, validateInto v schema "$" = [] ∧ ∃ e ∈ s.settled, e.context.name = structuredTool ∧
      e.context.arguments = v ∧ e.result.isError = false ∧ (e.raised = none → e.answer = e.result)) ∧
    (s.capture.closed = true → ∀ t, (childRuns parse schema).Later (fun u _ => u.capture.closed = true) s t →
      t.ran = s.ran ∧ t.pending = none) := by
  have inv := ChildRun.inv_of_reached h
  refine ⟨?_, fun outcome output => ?_, fun v hv => ?_, fun closed t later => ?_⟩
  · rw [inv.sound.commits]
    exact Option.length_toList_le
  · rw [inv.conclude_structured, inv.sound.commits]
    cases s.capture.value <;> rfl
  · rw [inv.sound.commits, Option.mem_toList] at hv
    obtain ⟨e, he, named, arguments, success⟩ := inv.sound.vouched v hv
    refine ⟨inv.sound.valid v hv, e, he, named, arguments, success, fun quiet => ?_⟩
    simp [Settled.answer, quiet]
  · have kept : t.Inv schema ∧ t.ran = s.ran ∧ t.pending = none := by
      refine later.invariant (I := fun u => u.Inv schema ∧ u.ran = s.ran ∧ u.pending = none) ?_
        ⟨inv, rfl, inv.idle closed⟩
      rintro u a u' ⟨inv, ran, quiet⟩ step still
      obtain ⟨same, pending⟩ := inv.next_ran still step
      exact ⟨inv.next step, same.trans ran, pending.trans quiet⟩
    exact kept.2

/-- A text under a schema of texts. -/
theorem structured_output_terminal_text : ∃ s : ChildRun, s.capture.commits = [.str "x"] ∧
    s.capture.commits.length ≤ 1 ∧ validateInto (.str "x") (ofType "string") "$" = [] ∧
    ∀ t, (childRuns (fun _ => none) (ofType "string")).Later (fun u _ => u.capture.closed = true) s t → t.ran = s.ran := by
  have valid : validateInto (.str "x") (ofType "string") "$" = [] := by
    simp [ofType, validateInto, constantViolations, enumViolations, typeViolations, Json.arrayField, allowedTypes,
      typeMatches, hasType, Json.ifObject, Json.ifArray]
  obtain ⟨others, quiet⟩ : ∃ others : Others, others.Quiet :=
    ⟨⟨fun _ _ => .allow, fun _ _ _ => none⟩, fun _ _ => rfl, fun _ _ _ => rfl⟩
  obtain ⟨s, registered⟩ : ∃ s, ChildRun.register "c" (ofType "string") .fresh {} {} = .ok s := ⟨_, rfl⟩
  have begun : (childRuns (fun _ => none) (ofType "string")).Reached (fun _ _ => True) s :=
    .start ⟨"c", .fresh, {}, {}, ⟨by simp [ToolsService.fresh], by simp⟩, registered⟩
  obtain ⟨capture, idle, _⟩ := ChildRun.register_cases registered
  have listed : (childRuns (fun _ => none) (ofType "string")).Reached (fun _ _ => True)
      { s with calls := [⟨"1", structuredTool, "x"⟩], outcome := {} } :=
    .step begun (a := .step [⟨"1", structuredTool, "x"⟩]) (by simp [childRuns, ChildRun.next, idle]) trivial
  have taken : (childRuns (fun _ => none) (ofType "string")).Reached (fun _ _ => True)
      (ChildRun.invoke { s with calls := [], outcome := {} } others ⟨"1", structuredTool, s.child, .str "x"⟩) :=
    .step listed (a := .dispatch false others) (by simp [childRuns, ChildRun.next, ChildRun.dispatch, idle]) trivial
  have open_ : ChildRun.Inv (ofType "string") { s with calls := [], outcome := {} } :=
    let inv := ChildRun.inv_of_reached listed
    ⟨inv.sound, inv.idle, inv.guarded, inv.heard, inv.tool⟩
  obtain ⟨committed, _⟩ := open_.commits (by simp [capture, Capture.closed]) quiet
    ⟨"1", structuredTool, s.child, .str "x"⟩ rfl valid
  have commits := (ChildRun.inv_of_reached taken).sound.commits
  rw [committed] at commits
  obtain ⟨one, _, passed, still⟩ := structured_output_terminal taken
  refine ⟨_, commits, one, (passed _ (commits ▸ List.mem_singleton_self _)).1, fun t later => (still ?_ t later).1⟩
  simp [Capture.closed, (ChildRun.inv_of_reached taken).sound.recorded, committed]

end Araya.Subagents
