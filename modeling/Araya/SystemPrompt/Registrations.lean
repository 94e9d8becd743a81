import Araya.SystemPrompt.Assembly
import Araya.Util.Ledger

/-!
The prompt registry over time. Plugins register contributions and their registrations are released; what an assembly holds
depends on the settings and on the contributions that stand and that the asker sees, and on nothing that was taken back.
-/

namespace Araya.SystemPrompt
open Llm (Bytes)
open Utf8 (bytes)
open Ledger (Move standing)

/-- What a plugin contributes. -/
inductive Contribution where
  | promptSection (value : PromptSection)
  | promptContext (value : PromptContext)
  | promptVariable (value : Variable)
  | tools (provider : ToolProvider)
  | suppressor
  | interceptor (value : Interceptor)

inductive Kind where
  | promptSection
  | promptContext
  | promptVariable
  | tools
  | suppressor
  | interceptor
  deriving DecidableEq

def Contribution.kind : Contribution → Kind
  | .promptSection _ => .promptSection
  | .promptContext _ => .promptContext
  | .promptVariable _ => .promptVariable
  | .tools _ => .tools
  | .suppressor => .suppressor
  | .interceptor _ => .interceptor

/-- A registration says what its release erases. -/
abbrev Registration := Kind × Nat

namespace SystemPromptService
variable (s : SystemPromptService)

/-- The effect of a registration. -/
def enter (id : Nat) (scope : Option String) : Contribution → SystemPromptService
  | .promptSection value => { s with sections := s.sections ++ [⟨id, scope, value⟩] }
  | .promptContext value => { s with contexts := s.contexts ++ [⟨id, scope, value⟩] }
  | .promptVariable value => { s with vars := s.vars ++ [⟨id, scope, value⟩] }
  | .tools provider => { s with toolProviders := s.toolProviders ++ [⟨id, scope, provider⟩] }
  | .suppressor => { s with suppressors := s.suppressors ++ [⟨id, scope, ()⟩] }
  | .interceptor value => { s with interceptors := s.interceptors ++ [⟨id, scope, value⟩] }

/-- Every registration draws the next id and runs its effect. -/
def drawn (value : Contribution) (scope : Option String) : SystemPromptService × Registration :=
  ({ s with nextId := s.nextId + 1 }.enter s.nextId scope value, value.kind, s.nextId)

def registerSection (value : PromptSection) (scope : Option String) :
    Except Bytes (SystemPromptService × Registration) :=
  if value.name = "" then .error (bytes "system-prompt: section name must not be empty")
  else .ok (s.drawn (.promptSection value) scope)

def registerContext (value : PromptContext) (scope : Option String) :
    Except Bytes (SystemPromptService × Registration) :=
  if value.name = "" then .error (bytes "system-prompt: context name must not be empty")
  else .ok (s.drawn (.promptContext value) scope)

def registerVariable (name : String) (provider : VariableProvider) (scope : Option String) :
    Except Bytes (SystemPromptService × Registration) :=
  if isVariableName (bytes name) then .ok (s.drawn (.promptVariable ⟨name, provider⟩) scope)
  else .error (bytes ("system-prompt: invalid variable name '" ++ name ++ "'"))

def registerTools (provider : ToolProvider) (scope : Option String) : SystemPromptService × Registration :=
  s.drawn (.tools provider) scope

def suppressRuntimeContext (scope : Option String) : SystemPromptService × Registration := s.drawn .suppressor scope

def intercept (order : Int) (fn : AssembleInterceptor) (scope : Option String) : SystemPromptService × Registration :=
  s.drawn (.interceptor ⟨order, fn⟩) scope

/-- The cleanup of a registration. -/
def release : Registration → SystemPromptService
  | (.promptSection, id) => { s with sections := s.sections.filter fun entry => decide (entry.id ≠ id) }
  | (.promptContext, id) => { s with contexts := s.contexts.filter fun entry => decide (entry.id ≠ id) }
  | (.promptVariable, id) => { s with vars := s.vars.filter fun entry => decide (entry.id ≠ id) }
  | (.tools, id) => { s with toolProviders := s.toolProviders.filter fun entry => decide (entry.id ≠ id) }
  | (.suppressor, id) => { s with suppressors := s.suppressors.filter fun entry => decide (entry.id ≠ id) }
  | (.interceptor, id) => { s with interceptors := s.interceptors.filter fun entry => decide (entry.id ≠ id) }

def register (value : Contribution) (scope : Option String) : Except Bytes (SystemPromptService × Registration) :=
  match value with
  | .promptSection value => s.registerSection value scope
  | .promptContext value => s.registerContext value scope
  | .promptVariable value => s.registerVariable value.name value.provider scope
  | .tools provider => .ok (s.registerTools provider scope)
  | .suppressor => .ok (s.suppressRuntimeContext scope)
  | .interceptor value => .ok (s.intercept value.order value.fn scope)

end SystemPromptService

inductive Setting where
  | personaPrefix (text : Bytes)
  | personaSuffix (text : Bytes)
  | includeHarnessIdentity (on : Bool)
  | includeRuntimeContext (on : Bool)
  | toolOrder (order : List String)

def SystemPromptService.configure (s : SystemPromptService) : Setting → SystemPromptService
  | .personaPrefix text => { s with personaPrefix := text }
  | .personaSuffix text => { s with personaSuffix := text }
  | .includeHarnessIdentity on => { s with includeHarnessIdentity := on }
  | .includeRuntimeContext on => { s with includeRuntimeContext := on }
  | .toolOrder order => { s with toolOrder := some order }

/-- What is done to the registry. -/
inductive Op where
  | register (value : Contribution) (scope : Option String)
  | release (registration : Registration)
  | configure (setting : Setting)

/-- An operation that throws leaves the registry as it was. -/
def SystemPromptService.perform (s : SystemPromptService) : Op → SystemPromptService
  | .register value scope =>
    match s.register value scope with
    | .error _ => s
    | .ok (s', _) => s'
  | .release registration => s.release registration
  | .configure setting => s.configure setting

def performed (ops : List Op) : SystemPromptService := ops.foldl SystemPromptService.perform {}

/-! What stands after a run -/

/-- A contribution that is accepted. -/
def Contribution.sound : Contribution → Bool
  | .promptSection value => decide (value.name ≠ "")
  | .promptContext value => decide (value.name ≠ "")
  | .promptVariable value => isVariableName (bytes value.name)
  | _ => true

/-- The moves of a run on the ledger of contributions, which are numbered from the next id. -/
def moves : Nat → List Op → List (Move Registration (Option String × Contribution))
  | _, [] => []
  | next, .register value scope :: ops =>
    if value.sound then .enter (value.kind, next) (scope, value) :: moves (next + 1) ops else moves next ops
  | next, .release registration :: ops => .leave registration :: moves next ops
  | next, .configure _ :: ops => moves next ops

def settings (ops : List Op) : List Setting :=
  ops.filterMap fun
    | .configure setting => some setting
    | _ => none

def visible (context : AssembleContext) (scope : Option String) : Bool :=
  scope.all fun scope => context.scope == some scope

/-- The contributions of a kind that stand after a run and that the asker sees. -/
def offered (kind : Kind) (context : AssembleContext) (ops : List Op) : List (Option String × Contribution) :=
  ((standing (moves 1 ops)).filter fun entry => decide (entry.1.1 = kind) && visible context entry.2.1).map (·.2)

/-! What an assembly reads of the tables -/

section
variable {α : Type} {context : AssembleContext} {l l' : List (Owned α)}

/-- What the asker sees of a table, without the ids. -/
def seen (context : AssembleContext) (l : List (Owned α)) : List (Option String × α) :=
  (l.filter (Owned.matches context)).map fun entry => (entry.scope, entry.value)

/-- The part of a table that one loop of an assembly reads. -/
def part (p : Option String → Bool) (context : AssembleContext) (l : List (Owned α)) : List (Owned α) :=
  l.filter fun entry => p entry.scope && entry.matches context

theorem part_seen (p : Option String → Bool) : (part p context l).map (fun entry => (entry.scope, entry.value)) =
    (seen context l).filter fun entry => p entry.1 := by
  unfold part seen
  rw [List.filter_map, List.filter_filter]
  rfl

theorem part_values (p : Option String → Bool) (same : seen context l = seen context l') :
    (part p context l).map (·.value) = (part p context l').map (·.value) := by
  have strip (l : List (Owned α)) : (part p context l).map (·.value) =
      ((part p context l).map fun entry => (entry.scope, entry.value)).map (·.2) := by
    rw [List.map_map]
    rfl
  rw [strip, strip, part_seen, part_seen, same]

theorem part_isNone (l : List (Owned α)) : l.filter (fun entry => entry.scope.isNone) = part Option.isNone context l := by
  refine List.filter_congr fun entry _ => ?_
  unfold Owned.matches
  cases entry.scope <;> rfl

theorem part_all (l : List (Owned α)) : l.filter (Owned.matches context) = part (fun _ => true) context l := by
  unfold part
  simp only [Bool.true_and]

theorem merge_parts (name : α → String) (builtins : SortedMap String α) : merge name context builtins l =
    ((part Option.isSome context l).map (·.value)).foldl (fun merged value => merged.insert (name value) value)
      (((part Option.isNone context l).map (·.value)).foldl (fun merged value => merged.insert (name value) value)
        builtins) := by
  rw [← part_isNone, List.foldl_map, List.foldl_map, part, List.foldl_filter, List.foldl_filter]
  rfl

theorem merge_seen (name : α → String) (builtins : SortedMap String α) (same : seen context l = seen context l') :
    merge name context builtins l = merge name context builtins l' := by
  rw [merge_parts, merge_parts, part_values _ same, part_values _ same]

end

section
variable {context : AssembleContext} {s s' : SystemPromptService}

theorem askVariables_part (p : Option String → Bool) (which : Owned Variable → Bool)
    (is : s.vars.filter which = part p context s.vars) (is' : s'.vars.filter which = part p context s'.vars)
    (same : seen context s.vars = seen context s'.vars) (values : SortedMap String (Option Bytes)) :
    s.askVariables context which values = s'.askVariables context which values := by
  have own (l : List (Owned Variable)) : (l.foldlM (fun values entry => do
      let value ← entry.value.provider context
      return values.insert entry.value.name value) values : Except Bytes (SortedMap String (Option Bytes))) =
      (l.map (·.value)).foldlM (fun values entry => do
        let value ← entry.provider context
        return values.insert entry.name value) values := by
    rw [List.foldlM_map]
  unfold SystemPromptService.askVariables
  rw [is, is', own, own, part_values p same]

theorem resolveVariables_seen (same : seen context s.vars = seen context s'.vars) :
    s.resolveVariables context = s'.resolveVariables context := by
  unfold SystemPromptService.resolveVariables
  rw [askVariables_part Option.isNone _ (part_isNone _) (part_isNone _) same]
  congr 1
  funext globals
  exact askVariables_part Option.isSome _ rfl rfl same globals

theorem suppressed_seen (on : s.includeRuntimeContext = s'.includeRuntimeContext)
    (same : seen context s.suppressors = seen context s'.suppressors) : s.suppressed context = s'.suppressed context := by
  have any (l : List (Owned Unit)) : l.any (Owned.matches context) = !(seen context l).isEmpty := by
    rw [Bool.eq_iff_iff, seen, List.isEmpty_map, Bool.not_eq_true', List.isEmpty_eq_false_iff_exists_mem, List.any_eq_true]
    simp only [List.mem_filter]
  unfold SystemPromptService.suppressed
  rw [on, any, any, same]

theorem collectTools_seen (same : seen context s.toolProviders = seen context s'.toolProviders) :
    s.collectTools context = s'.collectTools context := by
  have own (l : List (Owned ToolProvider)) : l.mapM (fun entry => entry.value context) =
      (l.map (·.value)).mapM fun provider => provider context := by
    rw [List.mapM_map]
    rfl
  unfold SystemPromptService.collectTools
  rw [part_all, part_all, own, own, part_values _ same]

/-- The order of the interceptors alone. -/
def Interceptor.Before (a b : Interceptor) : Prop := a.order ≤ b.order

instance : DecidableRel Interceptor.Before := fun a b => inferInstanceAs (Decidable (a.order ≤ b.order))

/-- Interceptors that stand in the order of their registrations are sorted as a stable sort by their orders does. -/
theorem values_insertionSort (l : List (Owned Interceptor)) (ids : l.Pairwise fun a b => a.id < b.id) :
    (l.insertionSort SystemPromptService.InterceptBefore).map (·.value) =
      (l.map (·.value)).insertionSort Interceptor.Before := by
  have insert (a : Owned Interceptor) (l : List (Owned Interceptor)) (first : ∀ b ∈ l, a.id < b.id) :
      (l.orderedInsert SystemPromptService.InterceptBefore a).map (·.value) =
        (l.map (·.value)).orderedInsert Interceptor.Before a.value := by
    induction l with
    | nil => rfl
    | cons b l ih =>
        have later := first b List.mem_cons_self
        have same : SystemPromptService.InterceptBefore a b ↔ Interceptor.Before a.value b.value := by
          unfold SystemPromptService.InterceptBefore Interceptor.Before
          omega
        rw [List.orderedInsert_cons, List.map_cons, List.orderedInsert_cons, ← ih fun c hc => first c (.tail b hc)]
        by_cases before : SystemPromptService.InterceptBefore a b
        · rw [if_pos before, if_pos (same.mp before)]
          rfl
        · rw [if_neg before, if_neg (mt same.mpr before)]
          rfl
  induction l with
  | nil => rfl
  | cons a l ih =>
      have ⟨first, ids⟩ := List.pairwise_cons.mp ids
      rw [List.insertionSort_cons, insert a _ fun b hb => first b ((List.mem_insertionSort _).mp hb), ih ids]
      rfl

/-- Two registries are the same to an asker. -/
structure Alike (context : AssembleContext) (s s' : SystemPromptService) : Prop where
  personaPrefix : s.personaPrefix = s'.personaPrefix
  personaSuffix : s.personaSuffix = s'.personaSuffix
  includeHarnessIdentity : s.includeHarnessIdentity = s'.includeHarnessIdentity
  includeRuntimeContext : s.includeRuntimeContext = s'.includeRuntimeContext
  toolOrder : s.toolOrder = s'.toolOrder
  sections : seen context s.sections = seen context s'.sections
  contexts : seen context s.contexts = seen context s'.contexts
  vars : seen context s.vars = seen context s'.vars
  toolProviders : seen context s.toolProviders = seen context s'.toolProviders
  suppressors : seen context s.suppressors = seen context s'.suppressors
  interceptors : seen context s.interceptors = seen context s'.interceptors
  ids : s.interceptors.Pairwise fun a b => a.id < b.id
  ids' : s'.interceptors.Pairwise fun a b => a.id < b.id

theorem intercepted_seen (same : seen context s.interceptors = seen context s'.interceptors)
    (ids : s.interceptors.Pairwise fun a b => a.id < b.id) (ids' : s'.interceptors.Pairwise fun a b => a.id < b.id)
    (assembly : PromptAssembly) : s.intercepted context assembly = s'.intercepted context assembly := by
  have own (l : List (Owned Interceptor)) : l.foldlM (fun assembly entry => entry.value.fn assembly context) assembly =
      (l.map (·.value)).foldlM (fun assembly value => value.fn assembly context) assembly := by
    rw [List.foldlM_map]
  unfold SystemPromptService.intercepted
  rw [own, own, values_insertionSort _ (ids.filter _), values_insertionSort _ (ids'.filter _), part_all, part_all,
    part_values _ same]

theorem Alike.builtins (alike : Alike context s s') : s.builtins = s'.builtins := by
  unfold SystemPromptService.builtins SystemPromptService.prefixSection SystemPromptService.suffixSection
  rw [alike.personaPrefix, alike.personaSuffix, alike.includeHarnessIdentity]

/-- An assembly reads nothing else. -/
theorem Alike.assemble (alike : Alike context s s') : s.assemble context = s'.assemble context := by
  have sections : s.orderedSections context = s'.orderedSections context := by
    unfold SystemPromptService.orderedSections
    rw [alike.builtins, merge_seen _ _ alike.sections]
  have contexts : s.assembleContexts context = s'.assembleContexts context := by
    unfold SystemPromptService.assembleContexts SystemPromptService.orderedContexts
    rw [suppressed_seen alike.includeRuntimeContext alike.suppressors, merge_seen _ _ alike.contexts]
  unfold SystemPromptService.assemble
  simp only [resolveVariables_seen alike.vars, sections, contexts, collectTools_seen alike.toolProviders, alike.toolOrder,
    intercepted_seen alike.interceptors alike.ids alike.ids']

end

/-! The tables are the ledger -/

/-- A contribution in the ledger. -/
abbrev Entry := Registration × (Option String × Contribution)

namespace Contribution

def asSection : Contribution → Option PromptSection
  | .promptSection value => some value
  | _ => none

def asContext : Contribution → Option PromptContext
  | .promptContext value => some value
  | _ => none

def asVariable : Contribution → Option Variable
  | .promptVariable value => some value
  | _ => none

def asTools : Contribution → Option ToolProvider
  | .tools provider => some provider
  | _ => none

def asSuppressor : Contribution → Option Unit
  | .suppressor => some ()
  | _ => none

def asInterceptor : Contribution → Option Interceptor
  | .interceptor value => some value
  | _ => none

end Contribution

section
variable {α : Type} {context : AssembleContext} {pick : Contribution → Option α} {kind : Kind} {table table' : List Entry}

def Entry.owned (pick : Contribution → Option α) (entry : Entry) : Option (Owned α) :=
  (pick entry.2.2).map fun value => ⟨entry.1.2, entry.2.1, value⟩

/-- The table of one kind of contributions. -/
def owned (pick : Contribution → Option α) (table : List Entry) : List (Owned α) := table.filterMap (Entry.owned pick)

/-- What is picked is of the kind. -/
def Picks (pick : Contribution → Option α) (kind : Kind) : Prop := ∀ value x, pick value = some x → value.kind = kind

/-- Each entry stands under its own kind. -/
def Keyed (table : List Entry) : Prop := ∀ entry ∈ table, entry.1.1 = entry.2.2.kind

theorem owned_enter (id : Nat) (scope : Option String) (value : Contribution) :
    owned pick (table ++ [((value.kind, id), (scope, value))]) =
      owned pick table ++ ((pick value).map fun x => ⟨id, scope, x⟩).toList := by
  unfold owned
  rw [List.filterMap_append, List.filterMap_cons, Entry.owned]
  cases pick value <;> rfl

theorem owned_leave (picks : Picks pick kind) (keyed : Keyed table) (key : Registration) :
    owned pick (table.filter fun entry => decide (entry.1 ≠ key)) =
      if key.1 = kind then (owned pick table).filter (fun entry => decide (entry.id ≠ key.2)) else owned pick table := by
  obtain ⟨own, id⟩ := key
  unfold owned
  rw [List.filterMap_filter, List.filter_filterMap]
  split
  · next same =>
      refine List.filterMap_congr fun entry member => ?_
      unfold Entry.owned
      cases found : pick entry.2.2 with
      | none => simp
      | some x =>
          have here : entry.1.1 = own := (keyed entry member).trans ((picks _ x found).trans same.symm)
          by_cases which : entry.1.2 = id <;> simp [Prod.ext_iff, Option.filter_some, here, which]
  · next other =>
      refine List.filterMap_congr fun entry member => ?_
      unfold Entry.owned
      cases found : pick entry.2.2 with
      | none => simp
      | some x =>
          have here : entry.1.1 = kind := (keyed entry member).trans (picks _ x found)
          simp [Prod.ext_iff, here, Ne.symm other]

/-- What the asker sees of a kind is what stands of the kind and is for the asker. -/
theorem seen_owned (picks : Picks pick kind) (keyed : Keyed table) : seen context (owned pick table) =
    ((table.filter fun entry => decide (entry.1.1 = kind) && visible context entry.2.1).map (·.2)).filterMap
      fun entry => (pick entry.2).map fun x => (entry.1, x) := by
  unfold seen owned
  rw [List.filter_filterMap, List.map_filterMap, List.filterMap_map, List.filterMap_filter]
  refine List.filterMap_congr fun entry member => ?_
  unfold Entry.owned
  cases found : pick entry.2.2 with
  | none => simp [found]
  | some x =>
      have here : entry.1.1 = kind := (keyed entry member).trans (picks _ x found)
      have own : Owned.matches context ⟨entry.1.2, entry.2.1, x⟩ = visible context entry.2.1 := rfl
      cases sight : visible context entry.2.1 <;> simp [Option.filter_some, found, here, own, sight]

theorem asSection_picks : Picks Contribution.asSection .promptSection := by
  intro value x found
  cases value <;> cases found
  rfl

theorem asContext_picks : Picks Contribution.asContext .promptContext := by
  intro value x found
  cases value <;> cases found
  rfl

theorem asVariable_picks : Picks Contribution.asVariable .promptVariable := by
  intro value x found
  cases value <;> cases found
  rfl

theorem asTools_picks : Picks Contribution.asTools .tools := by
  intro value x found
  cases value <;> cases found
  rfl

theorem asSuppressor_picks : Picks Contribution.asSuppressor .suppressor := by
  intro value x found
  cases value <;> cases found
  rfl

theorem asInterceptor_picks : Picks Contribution.asInterceptor .interceptor := by
  intro value x found
  cases value <;> cases found
  rfl

end

section
variable {context : AssembleContext} {table : List Entry} {s : SystemPromptService} {ops ops' : List Op}

/-- The tables of the registry hold what the ledger does, in the order in which the ids were drawn. -/
structure Keeps (table : List Entry) (s : SystemPromptService) : Prop where
  keyed : Keyed table
  drawn : ∀ entry ∈ table, entry.1.2 < s.nextId
  ascending : table.Pairwise fun a b => a.1.2 < b.1.2
  sections : s.sections = owned Contribution.asSection table
  contexts : s.contexts = owned Contribution.asContext table
  vars : s.vars = owned Contribution.asVariable table
  toolProviders : s.toolProviders = owned Contribution.asTools table
  suppressors : s.suppressors = owned Contribution.asSuppressor table
  interceptors : s.interceptors = owned Contribution.asInterceptor table

theorem drawn_nextId (value : Contribution) (scope : Option String) : (s.drawn value scope).1.nextId = s.nextId + 1 := by
  cases value <;> rfl

theorem release_nextId (key : Registration) : (s.release key).nextId = s.nextId := by
  obtain ⟨kind, id⟩ := key
  cases kind <;> rfl

theorem configure_nextId (setting : Setting) : (s.configure setting).nextId = s.nextId := by
  cases setting <;> rfl

theorem Keeps.empty : Keeps [] {} where
  keyed := fun entry member => by cases member
  drawn := fun entry member => by cases member
  ascending := .nil
  sections := rfl
  contexts := rfl
  vars := rfl
  toolProviders := rfl
  suppressors := rfl
  interceptors := rfl

theorem Keeps.register (h : Keeps table s) (value : Contribution) (scope : Option String) :
    Keeps (table ++ [((value.kind, s.nextId), (scope, value))]) (s.drawn value scope).1 where
  keyed := by
    intro entry member
    obtain old | new := List.mem_append.mp member
    · exact h.keyed entry old
    · cases List.mem_singleton.mp new
      rfl
  drawn := by
    intro entry member
    rw [drawn_nextId]
    obtain old | new := List.mem_append.mp member
    · exact Nat.lt_succ_of_lt (h.drawn entry old)
    · cases List.mem_singleton.mp new
      exact Nat.lt_succ_self _
  ascending := by
    refine List.pairwise_append.mpr ⟨h.ascending, List.pairwise_singleton _ _, fun entry old new member => ?_⟩
    cases List.mem_singleton.mp member
    exact h.drawn entry old
  sections := by
    rw [owned_enter, ← h.sections]
    cases value <;> simp [SystemPromptService.drawn, SystemPromptService.enter, Contribution.asSection]
  contexts := by
    rw [owned_enter, ← h.contexts]
    cases value <;> simp [SystemPromptService.drawn, SystemPromptService.enter, Contribution.asContext]
  vars := by
    rw [owned_enter, ← h.vars]
    cases value <;> simp [SystemPromptService.drawn, SystemPromptService.enter, Contribution.asVariable]
  toolProviders := by
    rw [owned_enter, ← h.toolProviders]
    cases value <;> simp [SystemPromptService.drawn, SystemPromptService.enter, Contribution.asTools]
  suppressors := by
    rw [owned_enter, ← h.suppressors]
    cases value <;> simp [SystemPromptService.drawn, SystemPromptService.enter, Contribution.asSuppressor]
  interceptors := by
    rw [owned_enter, ← h.interceptors]
    cases value <;> simp [SystemPromptService.drawn, SystemPromptService.enter, Contribution.asInterceptor]

theorem Keeps.release (h : Keeps table s) (key : Registration) :
    Keeps (table.filter fun entry => decide (entry.1 ≠ key)) (s.release key) where
  keyed := fun entry member => h.keyed entry (List.mem_of_mem_filter member)
  drawn := by
    intro entry member
    rw [release_nextId]
    exact h.drawn entry (List.mem_of_mem_filter member)
  ascending := h.ascending.filter _
  sections := by
    obtain ⟨kind, id⟩ := key
    rw [owned_leave asSection_picks h.keyed, ← h.sections]
    cases kind <;> rfl
  contexts := by
    obtain ⟨kind, id⟩ := key
    rw [owned_leave asContext_picks h.keyed, ← h.contexts]
    cases kind <;> rfl
  vars := by
    obtain ⟨kind, id⟩ := key
    rw [owned_leave asVariable_picks h.keyed, ← h.vars]
    cases kind <;> rfl
  toolProviders := by
    obtain ⟨kind, id⟩ := key
    rw [owned_leave asTools_picks h.keyed, ← h.toolProviders]
    cases kind <;> rfl
  suppressors := by
    obtain ⟨kind, id⟩ := key
    rw [owned_leave asSuppressor_picks h.keyed, ← h.suppressors]
    cases kind <;> rfl
  interceptors := by
    obtain ⟨kind, id⟩ := key
    rw [owned_leave asInterceptor_picks h.keyed, ← h.interceptors]
    cases kind <;> rfl

theorem Keeps.configure (h : Keeps table s) (setting : Setting) : Keeps table (s.configure setting) := by
  cases setting <;> exact { h with }

theorem perform_sound {value : Contribution} (sound : value.sound = true) (scope : Option String) :
    s.perform (.register value scope) = (s.drawn value scope).1 := by
  have went : s.register value scope = .ok (s.drawn value scope) := by
    cases value with
    | promptSection value => exact if_neg (of_decide_eq_true sound)
    | promptContext value => exact if_neg (of_decide_eq_true sound)
    | promptVariable value => exact if_pos sound
    | tools provider => rfl
    | suppressor => rfl
    | interceptor value => rfl
  rw [SystemPromptService.perform, went]

theorem perform_unsound {value : Contribution} (unsound : ¬ value.sound = true) (scope : Option String) :
    s.perform (.register value scope) = s := by
  have failed : ∃ what, s.register value scope = .error what := by
    cases value with
    | promptSection value => exact ⟨_, if_pos (by simpa [Contribution.sound] using unsound)⟩
    | promptContext value => exact ⟨_, if_pos (by simpa [Contribution.sound] using unsound)⟩
    | promptVariable value => exact ⟨_, if_neg unsound⟩
    | tools provider => exact absurd rfl unsound
    | suppressor => exact absurd rfl unsound
    | interceptor value => exact absurd rfl unsound
  obtain ⟨what, failed⟩ := failed
  rw [SystemPromptService.perform, failed]

/-- A run keeps the tables at what the ledger holds. -/
theorem Keeps.run (h : Keeps table s) :
    Keeps (Ledger.run (moves s.nextId ops) table) (ops.foldl SystemPromptService.perform s) := by
  induction ops generalizing table s with
  | nil => exact h
  | cons op ops ih =>
      rw [List.foldl_cons]
      cases op with
      | register value scope =>
          rw [moves]
          split
          · next sound =>
              have kept := ih (h.register value scope)
              rw [drawn_nextId] at kept
              rw [perform_sound sound]
              exact kept
          · next unsound =>
              rw [perform_unsound unsound]
              exact ih h
      | release key =>
          have kept := ih (h.release key)
          rw [release_nextId] at kept
          exact kept
      | configure setting =>
          have kept := ih (h.configure setting)
          rw [configure_nextId] at kept
          exact kept

theorem keeps_performed (ops : List Op) : Keeps (standing (moves 1 ops)) (performed ops) := by
  have kept : Keeps (Ledger.run (moves 1 ops) []) (performed ops) := Keeps.empty.run
  rw [Ledger.run_nil] at kept
  exact kept

/-- The settings of a registry alone. -/
def SystemPromptService.bare (s : SystemPromptService) : SystemPromptService where
  personaPrefix := s.personaPrefix
  personaSuffix := s.personaSuffix
  includeHarnessIdentity := s.includeHarnessIdentity
  includeRuntimeContext := s.includeRuntimeContext
  toolOrder := s.toolOrder

/-- A registry to which only the settings of a run were made. -/
def configured (ops : List Op) : SystemPromptService := (settings ops).foldl SystemPromptService.configure {}

theorem bare_run : (ops.foldl SystemPromptService.perform s).bare = (settings ops).foldl SystemPromptService.configure s.bare := by
  induction ops generalizing s with
  | nil => rfl
  | cons op ops ih =>
      rw [List.foldl_cons, ih]
      cases op with
      | register value scope =>
          have same : (s.perform (.register value scope)).bare = s.bare := by
            by_cases sound : value.sound = true
            · rw [perform_sound sound]
              cases value <;> rfl
            · rw [perform_unsound sound]
          rw [same]
          rfl
      | release key =>
          have same : (s.perform (.release key)).bare = s.bare := by
            obtain ⟨kind, id⟩ := key
            cases kind <;> rfl
          rw [same]
          rfl
      | configure setting =>
          have same : (s.perform (.configure setting)).bare = s.bare.configure setting := by cases setting <;> rfl
          rw [same]
          rfl

theorem ids_ascend (h : Keeps table s) : s.interceptors.Pairwise fun a b => a.id < b.id := by
  rw [h.interceptors, owned, List.pairwise_filterMap]
  refine h.ascending.imp fun {e e'} less a ha b hb => ?_
  unfold Entry.owned at ha hb
  obtain ⟨x, -, rfl⟩ := Option.map_eq_some_iff.mp ha
  obtain ⟨y, -, rfl⟩ := Option.map_eq_some_iff.mp hb
  exact less

theorem bare_performed (ops : List Op) : (performed ops).bare = configured ops := bare_run

/-- What an asker is given depends on the settings and on what stands of each kind that the asker sees: contributions that
were taken back or that are for another scope leave no trace, nor do the ids of the registrations. -/
theorem assembles_standing (tuned : configured ops = configured ops')
    (same : ∀ kind, offered kind context ops = offered kind context ops') :
    (performed ops).assemble context = (performed ops').assemble context := by
  have kept := keeps_performed ops
  have kept' := keeps_performed ops'
  have bare : (performed ops).bare = (performed ops').bare := by rw [bare_performed, bare_performed, tuned]
  have sees {α : Type} {pick : Contribution → Option α} {kind : Kind} (picks : Picks pick kind) :
      seen context (owned pick (standing (moves 1 ops))) = seen context (owned pick (standing (moves 1 ops'))) := by
    have given := same kind
    unfold offered at given
    rw [seen_owned picks kept.keyed, seen_owned picks kept'.keyed, given]
  refine Alike.assemble ?_
  exact {
    personaPrefix := congrArg (·.personaPrefix) bare
    personaSuffix := congrArg (·.personaSuffix) bare
    includeHarnessIdentity := congrArg (·.includeHarnessIdentity) bare
    includeRuntimeContext := congrArg (·.includeRuntimeContext) bare
    toolOrder := congrArg (·.toolOrder) bare
    sections := kept.sections ▸ kept'.sections ▸ sees asSection_picks
    contexts := kept.contexts ▸ kept'.contexts ▸ sees asContext_picks
    vars := kept.vars ▸ kept'.vars ▸ sees asVariable_picks
    toolProviders := kept.toolProviders ▸ kept'.toolProviders ▸ sees asTools_picks
    suppressors := kept.suppressors ▸ kept'.suppressors ▸ sees asSuppressor_picks
    interceptors := kept.interceptors ▸ kept'.interceptors ▸ sees asInterceptor_picks
    ids := ids_ascend kept
    ids' := ids_ascend kept' }

/-- A section for everyone, one for another scope, and one that was taken back. -/
theorem assembles_standing_released :
    (performed [.register (.promptSection { name := "task", text := bytes "Help." }) none,
        .register (.promptSection { name := "task", text := bytes "Review." }) (some "b"),
        .register (.promptSection { name := "draft", text := bytes "Wait." }) none,
        .release (.promptSection, 3)]).assemble { scope := some "a" } =
      (performed [.register (.promptSection { name := "task", text := bytes "Help." }) none]).assemble
        { scope := some "a" } := by
  refine assembles_standing rfl fun kind => ?_
  cases kind <;> rfl

end
end Araya.SystemPrompt
