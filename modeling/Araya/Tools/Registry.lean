import Araya.Util.Json
import Araya.Util.Sorted
import Mathlib.Data.String.Basic

/-!
The tool registry. A tool without a scope is global; a scope sees the globals that its
restrictions admit, and its own tools over them.
-/

namespace Araya.Tools

universe u

structure ToolDefinition where
  name : String
  description : String := ""
  parameters : Json := .null

structure ToolContext where
  callId : String := ""
  name : String := ""
  session : String := ""
  arguments : Json := .null

/-- A filter over the globals of a scope. -/
structure ToolRestriction where
  allow : Option (List String) := none
  deny : Option (List String) := none

/-- A handler returns the task of a result. -/
structure ToolEntry (ρ : Type u) where
  id : Nat
  scope : Option String
  definition : ToolDefinition
  handler : ToolContext → ρ

structure RestrictionEntry where
  id : Nat
  scope : Option String
  filter : ToolRestriction

structure GuardEntry where
  id : Nat
  scope : Option String
  check : ToolContext → Option String

/-- No two tools have the same name in one scope. -/
def ToolEntry.Apart {ρ : Type u} (e e' : ToolEntry ρ) : Prop :=
  e.id ≠ e'.id ∧ ¬ (e.scope = e'.scope ∧ e.definition.name = e'.definition.name)

structure ToolsService (ρ : Type u) where
  nextId : Nat := 1
  tools : List (ToolEntry ρ) := []
  nextRestrictionId : Nat := 1
  restrictions : List RestrictionEntry := []
  nextGuardId : Nat := 1
  guards : List GuardEntry := []
  apart : tools.Pairwise ToolEntry.Apart := by simp
  drawn : ∀ e ∈ tools, e.id < nextId := by simp

/-- The registry of a fresh service. -/
def ToolsService.fresh {ρ : Type u} : ToolsService ρ := {}

/-- What an invocation ends with: a denial, or the task of its handler. -/
inductive Invocation (ρ : Type u) where
  | denied (reason : String)
  | ran (result : ρ)

def ToolRestriction.admits (filter : ToolRestriction) (name : String) : Bool :=
  filter.allow.all (·.contains name) && filter.deny.all fun names => !names.contains name

namespace ToolsService
variable {ρ : Type u} (s : ToolsService ρ)

def clashes (scope : Option String) (name : String) : Bool :=
  s.tools.any fun entry => entry.scope == scope && entry.definition.name == name

/-- `register_tool`, with the id that its registration releases. -/
def registerTool (definition : ToolDefinition) (handler : ToolContext → ρ) (scope : Option String) :
    Except String (ToolsService ρ × Nat) :=
  if definition.name = "" then .error "tools: tool name must not be empty"
  else if h : s.clashes scope definition.name then
    .error ("tools: duplicate tool '" ++ definition.name ++ "'")
  else .ok ({ s with
    nextId := s.nextId + 1
    tools := s.tools ++ [{ id := s.nextId, scope, definition, handler }]
    apart := by
      refine List.pairwise_append.mpr ⟨s.apart, List.pairwise_singleton _ _, fun e he e' he' => ?_⟩
      cases List.mem_singleton.mp he'
      refine ⟨Nat.ne_of_lt (s.drawn e he), fun same => h ?_⟩
      exact List.any_eq_true.mpr ⟨e, he, by simpa using same⟩
    drawn := by
      intro e he
      rcases List.mem_append.mp he with old | new
      · exact Nat.lt_succ_of_lt (s.drawn e old)
      · cases List.mem_singleton.mp new
        exact Nat.lt_succ_self _ }, s.nextId)

/-- What the cleanup of a registration does. -/
def releaseTool (id : Nat) : ToolsService ρ :=
  { s with
    tools := s.tools.filter (·.id != id)
    apart := s.apart.filter _
    drawn := fun e he => s.drawn e (List.mem_of_mem_filter he) }

/-- Every restriction of the scope admits the global. -/
def admits (name : String) (scope : Option String) : Bool :=
  s.restrictions.all fun entry =>
    entry.scope.isNone || scope.isNone || entry.scope != scope || entry.filter.admits name

/-- The globals, and over them what the scope has of its own, by name. -/
def merged (scope : Option String) : SortedMap String (ToolEntry ρ) :=
  let globals := s.tools.foldl (fun merged entry =>
    if entry.scope.isNone && s.admits entry.definition.name scope then
      merged.insert entry.definition.name entry
    else merged) ∅
  s.tools.foldl (fun merged entry =>
    if entry.scope.isSome && scope.isSome && scope == entry.scope then
      merged.insert entry.definition.name entry
    else merged) globals

def visible (scope : Option String) : List (ToolEntry ρ) := (s.merged scope).toList.map (·.2)

def known (name : String) : Bool := s.tools.any fun entry => entry.scope.isNone && entry.definition.name == name

/-- `restrict`, with the id that its registration releases. -/
def restrict (filter : ToolRestriction) (scope : Option String) : Except String (ToolsService ρ × Nat) :=
  if scope.all (· == "") then .error "tools: restrict requires a scope"
  else if filter.allow.isNone && filter.deny.isNone then .error "tools: restrict requires allow and/or deny"
  else
    match (filter.allow.getD [] ++ filter.deny.getD []).find? fun name => !s.known name with
    | some name => .error ("tools: restrict names unknown tool '" ++ name ++ "'")
    | none => .ok ({ s with
        nextRestrictionId := s.nextRestrictionId + 1
        restrictions := s.restrictions ++ [{ id := s.nextRestrictionId, scope, filter }] }, s.nextRestrictionId)

def releaseRestriction (id : Nat) : ToolsService ρ :=
  { s with restrictions := s.restrictions.filter (·.id != id) }

def guard (check : ToolContext → Option String) (scope : Option String) : ToolsService ρ :=
  { s with
    nextGuardId := s.nextGuardId + 1
    guards := s.guards ++ [{ id := s.nextGuardId, scope, check }] }

def releaseGuard (id : Nat) : ToolsService ρ := { s with guards := s.guards.filter (·.id != id) }

/-- The first denial of the guards that apply to the scope. -/
def guardReason (context : ToolContext) (scope : Option String) : Option String :=
  (s.guards.filter fun entry => entry.scope.isNone || scope.isSome && entry.scope == scope).findSome? fun entry =>
    entry.check context

def resolve (name : String) (scope : Option String) : Option (ToolEntry ρ) :=
  (s.visible scope).find? (·.definition.name == name)

def find (name : String) (scope : Option String) : Option ToolDefinition := (s.resolve name scope).map (·.definition)

def list (scope : Option String) : List ToolDefinition := (s.visible scope).map (·.definition)

def invoke (name : String) (context : ToolContext) (scope : Option String) : Option (Invocation ρ) :=
  (s.resolve name scope).map fun entry =>
    match s.guardReason context scope with
    | some reason => .denied reason
    | none => .ran (entry.handler context)

section
variable {s}

/-- A registration appends its tool under the next id. -/
theorem registerTool_cases {s' : ToolsService ρ} {definition : ToolDefinition} {handler : ToolContext → ρ}
    {scope : Option String} {id : Nat} (h : s.registerTool definition handler scope = .ok (s', id)) :
    id = s.nextId ∧ s'.nextId = s.nextId + 1 ∧ s'.tools = s.tools ++ [⟨id, scope, definition, handler⟩] ∧
      s'.restrictions = s.restrictions ∧ s'.nextRestrictionId = s.nextRestrictionId := by
  unfold registerTool at h
  split at h
  · cases h
  · split at h
    · cases h
    · cases h
      exact ⟨rfl, rfl, rfl, rfl, rfl⟩

theorem restrict_cases {s' : ToolsService ρ} {filter : ToolRestriction} {scope : Option String} {id : Nat}
    (h : s.restrict filter scope = .ok (s', id)) : id = s.nextRestrictionId ∧
      s'.nextRestrictionId = s.nextRestrictionId + 1 ∧ s'.tools = s.tools ∧
      s'.restrictions = s.restrictions ++ [⟨id, scope, filter⟩] := by
  simp only [restrict] at h
  split at h
  · cases h
  · split at h
    · cases h
    · split at h
      · cases h
      · cases h
        exact ⟨rfl, rfl, rfl, rfl⟩

end

/-! What a scope sees -/

section
variable {s} {scope : Option String} {e : ToolEntry ρ}

/-- The scope has a tool of this name of its own. -/
def shadows (scope : Option String) (name : String) : Prop :=
  ∃ e ∈ s.tools, scope.isSome = true ∧ e.scope = scope ∧ e.definition.name = name

theorem find?_merged (name : String) : (s.merged scope).find? name = some e ↔ e ∈ s.tools ∧ e.definition.name = name ∧
    (scope.isSome = true ∧ e.scope = scope ∨
      e.scope = none ∧ s.admits name scope = true ∧ ¬ s.shadows scope name) := by
  have own : s.tools.Pairwise fun c d => (c.scope.isSome && scope.isSome && scope == c.scope) = true →
      (d.scope.isSome && scope.isSome && scope == d.scope) = true → c.definition.name ≠ d.definition.name := by
    refine s.apart.imp fun apart hc hd same => apart.2 ⟨?_, same⟩
    simp only [Bool.and_eq_true, beq_iff_eq] at hc hd
    exact hc.2.symm.trans hd.2
  have global : s.tools.Pairwise fun c d => (c.scope.isNone && s.admits c.definition.name scope) = true →
      (d.scope.isNone && s.admits d.definition.name scope) = true → c.definition.name ≠ d.definition.name := by
    refine s.apart.imp fun apart hc hd same => apart.2 ⟨?_, same⟩
    simp only [Bool.and_eq_true, Option.isNone_iff_eq_none] at hc hd
    exact hc.1.trans hd.1.symm
  refine (SortedMap.find?_foldl_insert (fun c : ToolEntry ρ => c.definition.name) _ _ own name e).trans ?_
  rw [SortedMap.find?_foldl_insert (fun c : ToolEntry ρ => c.definition.name) _ _ global]
  have hidden : (∀ d ∈ s.tools, (d.scope.isSome = true ∧ scope.isSome = true) ∧ scope = d.scope →
      d.definition.name ≠ name) ↔ ¬ s.shadows scope name := by
    constructor
    · rintro none ⟨d, hd, some, same, named⟩
      exact none d hd ⟨⟨same ▸ some, some⟩, same.symm⟩ named
    · rintro none d hd ⟨⟨_, some⟩, same⟩ named
      exact none ⟨d, hd, some, same.symm, named⟩
  simp only [Bool.and_eq_true, beq_iff_eq, ne_eq] at hidden ⊢
  simp only [hidden, SortedMap.find?_empty, and_false, or_false, Option.isNone_iff_eq_none, reduceCtorEq]
  constructor
  · rintro (⟨tool, ⟨⟨_, some⟩, same⟩, rfl⟩ | ⟨clear, tool, ⟨none, admitted⟩, rfl⟩)
    · exact ⟨tool, rfl, .inl ⟨some, same.symm⟩⟩
    · exact ⟨tool, rfl, .inr ⟨none, admitted, clear⟩⟩
  · rintro ⟨tool, rfl, ⟨some, same⟩ | ⟨none, admitted, clear⟩⟩
    · exact .inl ⟨tool, ⟨⟨same ▸ some, some⟩, same.symm⟩, rfl⟩
    · exact .inr ⟨clear, tool, ⟨none, admitted⟩, rfl⟩

/-- A scope sees its own tools, and the globals that its restrictions admit and none of its own shadows. -/
theorem mem_visible : e ∈ s.visible scope ↔ e ∈ s.tools ∧ (scope.isSome = true ∧ e.scope = scope ∨
    e.scope = none ∧ s.admits e.definition.name scope = true ∧ ¬ s.shadows scope e.definition.name) := by
  have found : ∀ name, (name, e) ∈ (s.merged scope).toList ↔ (s.merged scope).find? name = some e :=
    fun name => SortedMap.mem_toList
  simp only [visible, List.mem_map, Prod.exists, exists_eq_right, found, find?_merged]
  constructor
  · rintro ⟨name, tool, rfl, seen⟩
    exact ⟨tool, seen⟩
  · rintro ⟨tool, seen⟩
    exact ⟨_, tool, rfl, seen⟩

/-- A scope runs a tool of its own under its name. -/
theorem resolve_own {child : String} (tool : e ∈ s.tools) (own : e.scope = some child) :
    s.resolve e.definition.name (some child) = some e := by
  have seen : e ∈ s.visible (some child) := mem_visible.mpr ⟨tool, .inl ⟨rfl, own⟩⟩
  have merged : (s.merged (some child)).find? e.definition.name = some e :=
    (find?_merged e.definition.name).mpr ⟨tool, rfl, .inl ⟨rfl, own⟩⟩
  cases found : s.resolve e.definition.name (some child) with
  | none =>
      have absent := List.find?_eq_none.mp found e seen
      simp at absent
  | some e' =>
      have named : e'.definition.name = e.definition.name := by
        simpa using List.find?_some found
      obtain ⟨tool', which⟩ := mem_visible.mp (List.mem_of_find?_eq_some found)
      rw [named] at which
      exact ((find?_merged e.definition.name).mpr ⟨tool', named, which⟩).symm.trans merged

variable (s) in
/-- The global is listed for the scope, or a call from there can run it. -/
def Offers (scope : String) (e : ToolEntry ρ) : Prop :=
  e.scope = none ∧ (e ∈ s.visible (some scope) ∨ ∃ context, s.resolve e.definition.name (some scope) = some e ∧
    s.guardReason context (some scope) = none)

theorem resolve_visible {name : String} (h : s.resolve name scope = some e) : e ∈ s.visible scope :=
  List.mem_of_find?_eq_some h

theorem offers_iff {scope : String} : s.Offers scope e ↔ e ∈ s.tools ∧ e.scope = none ∧
    s.admits e.definition.name (some scope) = true ∧ ¬ s.shadows (some scope) e.definition.name := by
  constructor
  · rintro ⟨global, offered⟩
    have seen : e ∈ s.visible (some scope) := by
      rcases offered with listed | ⟨_, found, _⟩
      · exact listed
      · exact resolve_visible found
    obtain ⟨tool, ⟨_, own⟩ | ⟨_, admitted, clear⟩⟩ := mem_visible.mp seen
    · rw [global] at own
      cases own
    · exact ⟨tool, global, admitted, clear⟩
  · rintro ⟨tool, global, admitted, clear⟩
    exact ⟨global, .inl (mem_visible.mpr ⟨tool, .inr ⟨global, admitted, clear⟩⟩)⟩

end

end ToolsService
end Araya.Tools
