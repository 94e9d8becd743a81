import Araya.SystemPrompt.Interpolation
import Araya.Tools.Registry
import Mathlib.Data.List.Sort

/-!
The registry of prompt contributions. Plugins register sections, contexts, variables, tools, suppressors and interceptors,
for everyone or for one scope, and take them back; an assembly merges what the asker sees by name, a scoped contribution
over a global one and a later over an earlier one.
-/

namespace Araya.SystemPrompt
open Llm (Bytes)
open Utf8 (bytes)

/-- What an assembly may depend on. -/
structure AssembleContext where
  scope : Option String := none
  provider : String := ""
  model : String := ""
  cwd : String := ""

/-- The schema of a tool; the one left behind by a move is empty. -/
structure ToolSchema where
  name : String := ""
  description : String := ""
  parameters : Json := .null

structure PromptAssembly where
  sections : List AssembledSection := []
  contexts : List AssembledContext := []
  tools : List ToolSchema := []
  vars : SortedMap String (Option Bytes) := ∅

structure PromptSection where
  name : String
  order : Int := 0
  text : Bytes := []
  render : Option (AssembleContext → Except Bytes Bytes) := none
  interpolate : Bool := true
  complete : Bool := false

structure PromptContext where
  name : String
  order : Int := 0
  text : Bytes := []
  render : Option (AssembleContext → Except Bytes Bytes) := none

abbrev VariableProvider := AssembleContext → Except Bytes (Option Bytes)

abbrev ToolProvider := AssembleContext → Except Bytes (List ToolSchema)

abbrev AssembleInterceptor := PromptAssembly → AssembleContext → Except Bytes PromptAssembly

/-- A contribution with the id of its registration. -/
structure Owned (α : Type*) where
  id : Nat
  scope : Option String
  value : α

structure Variable where
  name : String
  provider : VariableProvider

structure Interceptor where
  order : Int
  fn : AssembleInterceptor

structure SystemPromptService where
  nextId : Nat := 1
  personaPrefix : Bytes := []
  personaSuffix : Bytes := []
  includeHarnessIdentity : Bool := true
  includeRuntimeContext : Bool := true
  toolOrder : Option (List String) := none
  sections : List (Owned PromptSection) := []
  contexts : List (Owned PromptContext) := []
  vars : List (Owned Variable) := []
  toolProviders : List (Owned ToolProvider) := []
  suppressors : List (Owned Unit) := []
  interceptors : List (Owned Interceptor) := []

/-! Ordering the tools -/

def reservedTool : String := "<unlisted-tools>"

def toolBefore (a b : ToolSchema) : Prop := a.name ≤ b.name

instance : DecidableRel toolBefore := fun a b => inferInstanceAs (Decidable (a.name ≤ b.name))

/-- The loop over the listed names; the rest is moved to where the reserved name stands first. -/
def placeTools (tools : List ToolSchema) (rest : List ToolSchema) : List String → List ToolSchema
  | [] => []
  | name :: names =>
    if name = reservedTool then rest ++ placeTools tools (rest.map fun _ => {}) names
    else (tools.find? fun tool => tool.name == name).toList ++ placeTools tools rest names

def unlisted (tools : List ToolSchema) (names : List String) : List ToolSchema :=
  (tools.filter fun tool => !names.contains tool.name).insertionSort toolBefore

/-- The list that is searched, out of which the unlisted tools were moved. -/
def kept (tools : List ToolSchema) (names : List String) : List ToolSchema :=
  tools.map fun tool => if names.contains tool.name then tool else {}

def orderTools (tools : List ToolSchema) (order : Option (List String)) (known : List String) :
    Except Bytes (List ToolSchema) :=
  if tools.any fun tool => tool.name == reservedTool then
    .error (bytes ("system-prompt: tool provider returned the reserved name '" ++ reservedTool ++ "'"))
  else
    match order with
    | none => .ok (tools.insertionSort toolBefore)
    | some names =>
      match names.find? fun name => name != reservedTool && !known.contains name with
      | some name => .error (bytes ("system-prompt: tool order lists unregistered tool '" ++ name ++ "'"))
      | none =>
        .ok (placeTools (kept tools names) (unlisted tools names) names)

/-! Merging -/

/-- The contribution is for everyone, or for the scope of the asker. -/
def Owned.matches {α : Type*} (context : AssembleContext) (entry : Owned α) : Bool :=
  entry.scope.all fun scope => context.scope == some scope

section
variable {α : Type*} (name : α → String) (context : AssembleContext)

/-- The globals in their order, and over them what the scope of the asker has. -/
def merge (builtins : SortedMap String α) (entries : List (Owned α)) : SortedMap String α :=
  let globals := entries.foldl (fun merged entry =>
    if entry.scope.isNone then merged.insert (name entry.value) entry.value else merged) builtins
  entries.foldl (fun merged entry =>
    if entry.scope.isSome && entry.matches context then merged.insert (name entry.value) entry.value else merged) globals

end

section
variable {α : Type*} (order : α → Int) (name : α → String)

/-- Contributions are assembled in ascending order, and by name where the order is the same. -/
def Before (a b : α) : Prop := order a < order b ∨ order a = order b ∧ name a ≤ name b

instance : DecidableRel (Before order name) := fun _ _ => inferInstanceAs (Decidable (_ ∨ _))

end

namespace SystemPromptService
variable (s : SystemPromptService) (context : AssembleContext)

def identity : PromptSection where
  name := "harness:identity"
  order := -1000
  text := bytes "You are an AI agent powered by DeepSeek Harness."

def prefixSection : PromptSection where
  name := "deployment:persona-prefix"
  text := s.personaPrefix

def suffixSection : PromptSection where
  name := "deployment:persona-suffix"
  order := 10200
  text := s.personaSuffix

def builtins : SortedMap String PromptSection :=
  let merged := if s.includeHarnessIdentity then (∅ : SortedMap String PromptSection).insert identity.name identity else ∅
  (merged.insert s.prefixSection.name s.prefixSection).insert s.suffixSection.name s.suffixSection

def orderedSections : List PromptSection :=
  ((merge PromptSection.name context s.builtins s.sections).toList.map (·.2)).insertionSort
    (Before PromptSection.order PromptSection.name)

def orderedContexts : List PromptContext :=
  ((merge PromptContext.name context ∅ s.contexts).toList.map (·.2)).insertionSort
    (Before PromptContext.order PromptContext.name)

/-- One loop over the variables; every provider of it is asked. -/
def askVariables (which : Owned Variable → Bool) (values : SortedMap String (Option Bytes)) :
    Except Bytes (SortedMap String (Option Bytes)) :=
  (s.vars.filter which).foldlM (fun values entry => do
    let value ← entry.value.provider context
    return values.insert entry.value.name value) values

def resolveVariables : Except Bytes (SortedMap String (Option Bytes)) := do
  let globals ← s.askVariables context (fun entry => entry.scope.isNone) ∅
  s.askVariables context (fun entry => entry.scope.isSome && entry.matches context) globals

def suppressed : Bool := !s.includeRuntimeContext || s.suppressors.any (Owned.matches context)

end SystemPromptService

def PromptSection.assembled (context : AssembleContext) (part : PromptSection) : Except Bytes AssembledSection := do
  let text ← match part.render with
    | some render => render context
    | none => pure part.text
  return { name := bytes part.name, text, interpolate := part.interpolate }

def PromptContext.assembled (context : AssembleContext) (part : PromptContext) : Except Bytes AssembledContext := do
  let text ← match part.render with
    | some render => render context
    | none => pure part.text
  return { name := bytes part.name, text }

namespace SystemPromptService
variable (s : SystemPromptService) (context : AssembleContext)

/-- The interceptors run in ascending order, and in the order of their registrations where it is the same. -/
def InterceptBefore (a b : Owned Interceptor) : Prop :=
  a.value.order < b.value.order ∨ a.value.order = b.value.order ∧ a.id ≤ b.id

instance : DecidableRel InterceptBefore := fun _ _ => inferInstanceAs (Decidable (_ ∨ _))

def assembleContexts : Except Bytes (List AssembledContext) :=
  if s.suppressed context then .ok [] else (s.orderedContexts context).mapM (PromptContext.assembled context)

def collectTools : Except Bytes (List ToolSchema) := do
  let schemas ← (s.toolProviders.filter (Owned.matches context)).mapM fun entry => entry.value context
  return schemas.flatten

def intercepted (assembly : PromptAssembly) : Except Bytes PromptAssembly :=
  ((s.interceptors.filter (Owned.matches context)).insertionSort InterceptBefore).foldlM
    (fun assembly entry => entry.value.fn assembly context) assembly

def assemble : Except Bytes PromptAssembly := do
  let vars ← s.resolveVariables context
  let ordered := s.orderedSections context
  let sections ← ordered.mapM (PromptSection.assembled context)
  let complete := (ordered.zip sections).filter (·.1.complete)
  if 1 < complete.length then
    throw (bytes "system-prompt: multiple complete prompt sections are active")
  let contexts ← s.assembleContexts context
  let collected ← s.collectTools context
  let tools ← orderTools collected s.toolOrder (collected.map (·.name))
  let assembly ← s.intercepted context { sections, contexts, tools, vars }
  match complete.getLast? with
  | none => return assembly
  | some entry => return { assembly with sections := [entry.2] }

end SystemPromptService

/-! What a merge holds -/

section
variable {α : Type*} {name : α → String} {context : AssembleContext} {l : List (Owned α)} {builtins : SortedMap String α}
  {n : String} {x : α}

/-- The last entry of the kind under the name. -/
def newest (name : α → String) (p : Owned α → Bool) (l : List (Owned α)) (n : String) : Option α :=
  (l.reverse.find? fun entry => p entry && name entry.value == n).map (·.value)

theorem find?_latest (p : Owned α → Bool) (m : SortedMap String α) :
    (l.foldl (fun merged entry => if p entry then merged.insert (name entry.value) entry.value else merged) m).find? n =
      (newest name p l n).or (m.find? n) := by
  unfold newest
  induction l generalizing m with
  | nil => rfl
  | cons entry l ih =>
      rw [List.foldl_cons, ih, List.reverse_cons, List.find?_append]
      cases found : l.reverse.find? fun entry => p entry && name entry.value == n with
      | some later => rfl
      | none =>
          simp only [Option.map_none, Option.none_or, List.find?_cons, List.find?_nil]
          by_cases kind : p entry = true
          · rw [if_pos kind, SortedMap.find?_insert, kind]
            by_cases here : n = name entry.value
            · simp [here]
            · rw [if_neg here, Bool.true_and, beq_false_of_ne (Ne.symm here)]
              rfl
          · simp [kind]

/-- What an asker finds under a name: its scope's newest contribution, else the newest global one, else what is built in. -/
def winner (name : α → String) (context : AssembleContext) (builtins : SortedMap String α) (l : List (Owned α)) (n : String) :
    Option α :=
  ((newest name (fun entry => entry.scope.isSome && entry.matches context) l n).or
    (newest name (fun entry => entry.scope.isNone) l n)).or (builtins.find? n)

theorem find?_merge : (merge name context builtins l).find? n = winner name context builtins l n := by
  unfold merge winner
  rw [find?_latest fun entry => entry.scope.isSome && entry.matches context, find?_latest fun entry => entry.scope.isNone,
    Option.or_assoc]

theorem newest_named {p : Owned α → Bool} (h : newest name p l n = some x) : name x = n := by
  obtain ⟨entry, found, rfl⟩ := Option.map_eq_some_iff.mp h
  have which := List.find?_some found
  simp only [Bool.and_eq_true, beq_iff_eq] at which
  exact which.2

/-- A contribution is found under its own name. -/
theorem winner_named (keyed : ∀ n x, builtins.find? n = some x → name x = n)
    (h : winner name context builtins l n = some x) : name x = n := by
  unfold winner at h
  obtain first | ⟨-, built⟩ := Option.or_eq_some_iff.mp h
  · obtain own | ⟨-, global⟩ := Option.or_eq_some_iff.mp first
    · exact newest_named own
    · exact newest_named global
  · exact keyed n x built

variable {order : α → Int}

theorem mem_merged (keyed : ∀ n x, builtins.find? n = some x → name x = n) :
    x ∈ (merge name context builtins l).toList.map (·.2) ↔ winner name context builtins l (name x) = some x := by
  have found (n : String) : (n, x) ∈ (merge name context builtins l).toList ↔ winner name context builtins l n = some x := by
    rw [← find?_merge]
    exact SortedMap.mem_toList
  simp only [List.mem_map, Prod.exists, exists_eq_right, found]
  constructor
  · rintro ⟨n, won⟩
    rw [winner_named keyed won]
    exact won
  · exact fun won => ⟨_, won⟩

theorem merged_names (keyed : ∀ n x, builtins.find? n = some x → name x = n) :
    ((merge name context builtins l).toList.map (·.2)).Pairwise fun a b => name a ≠ name b := by
  refine List.pairwise_map.mpr ((merge name context builtins l).sorted.imp_of_mem fun {e e'} he he' below => ?_)
  have own {e : String × α} (he : e ∈ (merge name context builtins l).toList) : name e.2 = e.1 :=
    winner_named keyed (find?_merge.symm.trans (SortedMap.mem_toList.mp he))
  rw [own he, own he']
  exact ne_of_lt below

theorem before_total (a b : α) : Before order name a b ∨ Before order name b a := by
  unfold Before
  rcases lt_trichotomy (order a) (order b) with less | same | more
  · exact .inl (.inl less)
  · exact (le_total (name a) (name b)).imp (fun le => .inr ⟨same, le⟩) fun le => .inr ⟨same.symm, le⟩
  · exact .inr (.inl more)

theorem before_trans {a b c : α} (h : Before order name a b) (h' : Before order name b c) : Before order name a c := by
  unfold Before at h h' ⊢
  rcases h with less | ⟨same, le⟩ <;> rcases h' with less' | ⟨same', le'⟩
  · exact .inl (less.trans less')
  · exact .inl (same' ▸ less)
  · exact .inl (same ▸ less')
  · exact .inr ⟨same.trans same', le.trans le'⟩

instance : Std.Total (Before order name) := ⟨before_total⟩

instance : IsTrans α (Before order name) := ⟨fun _ _ _ => before_trans⟩

/-- Each name stands once in what is assembled, in ascending order. -/
theorem assembled_ordered (keyed : ∀ n x, builtins.find? n = some x → name x = n) :
    (((merge name context builtins l).toList.map (·.2)).insertionSort (Before order name)).Pairwise fun a b =>
      order a < order b ∨ order a = order b ∧ name a < name b := by
  have apart : ((merge name context builtins l).toList.map (·.2)).Pairwise fun a b => name a ≠ name b := merged_names keyed
  have names := (List.perm_insertionSort (Before order name) _).symm.pairwise apart fun h => h.symm
  refine (List.pairwise_insertionSort (Before order name) _).imp₂ (fun a b before other => ?_) names
  exact before.imp_right fun ⟨same, le⟩ => ⟨same, lt_of_le_of_ne le other⟩

end

/-! The sections of a prompt -/

section
variable {s : SystemPromptService} {context : AssembleContext} {a : PromptAssembly} {p : PromptSection}

theorem bind_ok {α β : Type} {x : Except Bytes α} {f : α → Except Bytes β} {b : β} (h : (x >>= f) = .ok b) :
    ∃ a, x = .ok a ∧ f a = .ok b := by
  cases x with
  | error what => cases h
  | ok a => exact ⟨a, rfl, h⟩

theorem mapM_ok {α β : Type} {f : α → Except Bytes β} {l : List α} {bs : List β} (h : l.mapM f = .ok bs) :
    List.Forall₂ (fun a b => f a = .ok b) l bs := by
  induction l generalizing bs with
  | nil =>
      cases h
      exact .nil
  | cons a l ih =>
      rw [List.mapM_cons] at h
      obtain ⟨b, hb, h⟩ := bind_ok h
      obtain ⟨bs', hbs, h⟩ := bind_ok h
      cases h
      exact .cons hb (ih hbs)

theorem zip_of_mem {α β : Type} {r : α → β → Prop} {l : List α} {bs : List β} (h : List.Forall₂ r l bs) {a : α}
    (member : a ∈ l) : ∃ b, (a, b) ∈ l.zip bs ∧ r a b := by
  induction h with
  | nil => cases member
  | @cons a' b' l bs here _ ih =>
      rw [List.zip_cons_cons]
      obtain rfl | later := List.mem_cons.mp member
      · exact ⟨b', List.mem_cons_self, here⟩
      · obtain ⟨b, there, rel⟩ := ih later
        exact ⟨b, List.mem_cons_of_mem _ there, rel⟩

theorem builtins_keyed (s : SystemPromptService) (n : String) (x : PromptSection) (h : s.builtins.find? n = some x) :
    x.name = n := by
  unfold SystemPromptService.builtins at h
  dsimp only at h
  rw [SortedMap.find?_insert, SortedMap.find?_insert] at h
  split at h
  · next same =>
      cases h
      exact same.symm
  · split at h
    · next same =>
        cases h
        exact same.symm
    · split at h
      · rw [SortedMap.find?_insert] at h
        split at h
        · next same =>
            cases h
            exact same.symm
        · simp at h
      · simp at h

/-- The sections of an assembly before the interceptors ran. -/
def SystemPromptService.Rendered (s : SystemPromptService) (context : AssembleContext) (sections : List AssembledSection) :
    Prop :=
  List.Forall₂ (fun p r => p.assembled context = .ok r) (s.orderedSections context) sections

/-- What an assembly that succeeds has gone through. -/
theorem assemble_cases (h : s.assemble context = .ok a) : ∃ sections assembly complete,
    s.Rendered context sections ∧ complete = ((s.orderedSections context).zip sections).filter (·.1.complete) ∧
      complete.length ≤ 1 ∧ (∃ before : PromptAssembly, before.sections = sections ∧
        s.intercepted context before = .ok assembly) ∧
      a = match complete.getLast? with
        | none => assembly
        | some entry => { assembly with sections := [entry.2] } := by
  unfold SystemPromptService.assemble at h
  obtain ⟨vars, -, h⟩ := bind_ok h
  obtain ⟨sections, rendered, h⟩ := bind_ok h
  dsimp only at h
  split at h
  · cases h
  · next few =>
      obtain ⟨-, -, h⟩ := bind_ok h
      obtain ⟨contexts, -, h⟩ := bind_ok h
      obtain ⟨collected, -, h⟩ := bind_ok h
      obtain ⟨tools, -, h⟩ := bind_ok h
      obtain ⟨assembly, ran, h⟩ := bind_ok h
      refine ⟨sections, assembly, _, mapM_ok rendered, rfl, Nat.not_lt.mp few, ⟨_, rfl, ran⟩, ?_⟩
      split at h
      · cases h
        rfl
      · cases h
        rfl

/-- An assembly holds, in ascending order and each name once, the newest contribution that its asker sees under a name; a
complete section is the only one of its kind and all that is left of them, whatever the interceptors made of the rest. -/
theorem sections_exact (h : s.assemble context = .ok a) :
    (∀ p, p ∈ s.orderedSections context ↔ winner PromptSection.name context s.builtins s.sections p.name = some p) ∧
      (s.orderedSections context).Pairwise (fun p q => p.order < q.order ∨ p.order = q.order ∧ p.name < q.name) ∧
      ((∀ p ∈ s.orderedSections context, p.complete = false) →
        ∃ before, s.Rendered context before.sections ∧ s.intercepted context before = .ok a) ∧
      ∀ p ∈ s.orderedSections context, p.complete = true → (∀ q ∈ s.orderedSections context, q.complete = true → q = p) ∧
        ∃ r, p.assembled context = .ok r ∧ a.sections = [r] := by
  obtain ⟨sections, assembly, complete, rendered, which, few, ⟨before, same, ran⟩, left⟩ := assemble_cases h
  refine ⟨fun p => ?_, assembled_ordered (builtins_keyed s), fun none => ?_, fun p hp only => ?_⟩
  · rw [SystemPromptService.orderedSections, List.mem_insertionSort, mem_merged (builtins_keyed s)]
  · have empty : complete = [] := by
      rw [which]
      refine List.filter_eq_nil_iff.mpr fun e he => ?_
      rw [none e.1 (List.of_mem_zip he).1]
      exact Bool.false_ne_true
    rw [empty] at left
    rw [left]
    exact ⟨before, same ▸ rendered, ran⟩
  · have found {q : PromptSection} (hq : q ∈ s.orderedSections context) (done : q.complete = true) :
        ∃ r, (q, r) ∈ complete ∧ q.assembled context = .ok r := by
      obtain ⟨r, there, rel⟩ := zip_of_mem rendered hq
      exact ⟨r, which ▸ List.mem_filter.mpr ⟨there, done⟩, rel⟩
    obtain ⟨r, there, rel⟩ := found hp only
    obtain ⟨e, sole⟩ := List.length_eq_one_iff.mp (Nat.le_antisymm few (List.length_pos_of_mem there))
    rw [sole] at there left
    cases List.mem_singleton.mp there
    refine ⟨fun q hq done => ?_, r, rel, by rw [left]; rfl⟩
    obtain ⟨r', there', -⟩ := found hq done
    rw [sole] at there'
    cases List.mem_singleton.mp there'
    rfl

end

/-- A section for everyone, and one that a scope puts over it as its whole prompt. -/
def taken : SystemPromptService where
  nextId := 3
  sections := [⟨1, none, { name := "task", text := bytes "Help." }⟩,
    ⟨2, some "a", { name := "task", order := 7, text := bytes "Review.", complete := true }⟩]

theorem sections_exact_scoped : ∃ a r, taken.assemble { scope := some "a" } = .ok a ∧ a.sections = [r] ∧
    r.text = bytes "Review." := by
  have h : taken.assemble { scope := some "a" } = .ok
    { sections := [{ name := bytes "task", text := bytes "Review.", interpolate := true }] } := rfl
  obtain ⟨kept, -, -, only⟩ := sections_exact h
  have member : { name := "task", order := 7, text := bytes "Review.", complete := true } ∈
      taken.orderedSections { scope := some "a" } := (kept _).mpr rfl
  obtain ⟨-, r, made, left⟩ := only _ member rfl
  cases made
  exact ⟨_, _, h, left, rfl⟩

/-! The order of the tools -/

section
variable {tools rest result : List ToolSchema} {names listed : List String} {order : Option (List String)}

/-- The tool of a name. -/
def named (tools : List ToolSchema) (name : String) : List ToolSchema := (tools.find? fun tool => tool.name == name).toList

theorem toolBefore_total (a b : ToolSchema) : toolBefore a b ∨ toolBefore b a := le_total a.name b.name

instance : Std.Total toolBefore := ⟨toolBefore_total⟩

instance : IsTrans ToolSchema toolBefore := ⟨fun _ _ _ => le_trans⟩

theorem named_kept (full : ∀ tool ∈ tools, tool.name ≠ "") {name : String} (here : name ∈ names)
    (found : ∃ tool ∈ tools, tool.name = name) : named (kept tools names) name = named tools name := by
  have filled : "" ≠ name := by
    obtain ⟨tool, member, rfl⟩ := found
    exact (full tool member).symm
  clear full found
  unfold named kept
  congr 1
  induction tools with
  | nil => rfl
  | cons tool tools ih =>
      rw [List.map_cons, List.find?_cons, List.find?_cons, ih]
      by_cases listed : tool.name ∈ names
      · rw [if_pos (List.contains_iff_mem.mpr listed)]
      · have other : tool.name ≠ name := fun same => listed (same ▸ here)
        rw [if_neg (mt List.contains_iff_mem.mp listed), beq_false_of_ne other, beq_false_of_ne filled]

theorem placeTools_plain (none : reservedTool ∉ listed) : placeTools tools rest listed = listed.flatMap (named tools) := by
  induction listed with
  | nil => rfl
  | cons name listed ih =>
      rw [List.mem_cons, not_or] at none
      rw [placeTools, if_neg (Ne.symm none.1), ih none.2]
      rfl

/-- What stands for a listed name: the rest for the reserved one, else the tool of the name. -/
def stands (tools rest : List ToolSchema) (name : String) : List ToolSchema :=
  if name = reservedTool then rest else named tools name

theorem flatMap_stands (none : reservedTool ∉ listed) : listed.flatMap (stands tools rest) = listed.flatMap (named tools) := by
  refine List.flatMap_congr fun name member => if_neg ?_
  rintro rfl
  exact none member

theorem placeTools_flatMap (once : listed.Nodup) : placeTools tools rest listed = listed.flatMap (stands tools rest) := by
  induction listed with
  | nil => rfl
  | cons name listed ih =>
      have ⟨fresh, once⟩ := List.nodup_cons.mp once
      rw [List.flatMap_cons, stands, placeTools]
      split
      · next here => rw [placeTools_plain (here ▸ fresh), flatMap_stands (here ▸ fresh)]
      · rw [ih once]
        rfl

theorem mem_unlisted {tool : ToolSchema} : tool ∈ unlisted tools names ↔ tool ∈ tools ∧ tool.name ∉ names := by
  unfold unlisted
  simp

theorem named_eq (distinct : (tools.map (·.name)).Nodup) {tool : ToolSchema} (member : tool ∈ tools) :
    named tools tool.name = [tool] := by
  unfold named
  cases found : tools.find? fun other => other.name == tool.name with
  | none =>
      have other := List.find?_eq_none.mp found tool member
      simp at other
  | some other =>
      have same : other.name = tool.name := by simpa using List.find?_some found
      rw [List.inj_on_of_nodup_map distinct (List.mem_of_find?_eq_some found) member same]
      rfl

theorem unlisted_ordered (distinct : (tools.map (·.name)).Nodup) :
    (unlisted tools names).Pairwise fun a b => a.name < b.name := by
  have apart : tools.Pairwise fun a b => a.name ≠ b.name := List.pairwise_map.mp distinct
  have kinds := (List.perm_insertionSort toolBefore _).symm.pairwise
    (apart.filter fun tool => !names.contains tool.name) fun h => h.symm
  exact (List.pairwise_insertionSort toolBefore _).imp₂ (fun _ _ le other => lt_of_le_of_ne le other) kinds

/-- No tool has the reserved name, and every other name that is listed is the name of a tool. -/
def Orderly (tools : List ToolSchema) (names : List String) : Prop :=
  (∀ tool ∈ tools, tool.name ≠ reservedTool) ∧ ∀ name ∈ names, name ≠ reservedTool → ∃ tool ∈ tools, tool.name = name

/-- Without an order the tools are sorted, as under an order that only has the reserved name. -/
theorem orderTools_default (known : List String) :
    orderTools tools none known = orderTools tools (some [reservedTool]) known := by
  unfold orderTools
  split
  · rfl
  · next plain =>
      have all : unlisted tools [reservedTool] = tools.insertionSort toolBefore := by
        unfold unlisted
        congr 1
        refine List.filter_eq_self.mpr fun tool member => ?_
        have other : tool.name ≠ reservedTool := fun same => plain (List.any_eq_true.mpr ⟨tool, member, by simp [same]⟩)
        simp [other]
      simp [placeTools, all]

theorem orderTools_cases (tools : List ToolSchema) (names : List String) : (Orderly tools names ∧ orderTools tools (some names) (tools.map (·.name)) =
      .ok (placeTools (kept tools names) (unlisted tools names) names)) ∨
    ¬ Orderly tools names ∧ ∃ what, orderTools tools (some names) (tools.map (·.name)) = .error what := by
  unfold orderTools Orderly
  split
  · next taken =>
      obtain ⟨tool, member, same⟩ := List.any_eq_true.mp taken
      exact .inr ⟨fun plain => plain.1 tool member (by simpa using same), _, rfl⟩
  · next plain =>
      dsimp only
      split
      · next name found =>
          have missing : name ≠ reservedTool ∧ ∀ tool ∈ tools, tool.name ≠ name := by simpa using List.find?_some found
          refine .inr ⟨fun orderly => ?_, _, rfl⟩
          obtain ⟨tool, member, same⟩ := orderly.2 name (List.mem_of_find?_eq_some found) missing.1
          exact missing.2 tool member same
      · next none =>
          refine .inl ⟨⟨fun tool member same => plain (List.any_eq_true.mpr ⟨tool, member, by simp [same]⟩), ?_⟩, rfl⟩
          intro name member other
          have known := List.find?_eq_none.mp none name member
          simpa [other] using known

theorem placed (full : ∀ tool ∈ tools, tool.name ≠ "") (once : names.Nodup)
    (orderly : Orderly tools names) : placeTools (kept tools names) (unlisted tools names) names =
      names.flatMap (stands tools (unlisted tools names)) := by
  rw [placeTools_flatMap once]
  refine List.flatMap_congr fun name member => ?_
  unfold stands
  split
  · rfl
  · next other => exact named_kept full member (orderly.2 name member other)

/-- The names of what stands for a listed name. -/
theorem stands_names (distinct : (tools.map (·.name)).Nodup) (orderly : Orderly tools names) {name : String}
    (member : name ∈ names) : (stands tools rest name).map (·.name) =
      if name = reservedTool then rest.map (·.name) else [name] := by
  unfold stands
  split
  · rfl
  · next other =>
      obtain ⟨tool, here, rfl⟩ := orderly.2 name member other
      rw [named_eq distinct here]
      rfl

theorem mem_stands (distinct : (tools.map (·.name)).Nodup) (orderly : Orderly tools names) {tool : ToolSchema} :
    (∃ name ∈ names, tool ∈ stands tools (unlisted tools names) name) ↔
      tool ∈ tools ∧ (tool.name ∈ names ∨ reservedTool ∈ names) := by
  constructor
  · rintro ⟨name, member, here⟩
    unfold stands at here
    split at here
    · next same => exact ⟨(mem_unlisted.mp here).1, .inr (same ▸ member)⟩
    · next other =>
        obtain ⟨own, there, rfl⟩ := orderly.2 name member other
        rw [named_eq distinct there, List.mem_singleton] at here
        exact here ▸ ⟨there, .inl member⟩
  · rintro ⟨there, covered⟩
    by_cases listed : tool.name ∈ names
    · refine ⟨tool.name, listed, ?_⟩
      rw [stands, if_neg (orderly.1 tool there), named_eq distinct there]
      exact List.mem_singleton_self tool
    · refine ⟨reservedTool, covered.resolve_left listed, ?_⟩
      rw [stands, if_pos rfl]
      exact mem_unlisted.mpr ⟨there, listed⟩

theorem placed_once (distinct : (tools.map (·.name)).Nodup) (once : names.Nodup) :
    (names.flatMap fun name =>
      if name = reservedTool then (unlisted tools names).map (·.name) else [name]).Nodup := by
  have unplaced {name : String} (member : name ∈ names) : name ∉ (unlisted tools names).map (·.name) := by
    intro here
    obtain ⟨tool, there, rfl⟩ := List.mem_map.mp here
    exact (mem_unlisted.mp there).2 member
  refine List.nodup_flatMap.mpr ⟨fun name _ => ?_, once.imp_of_mem fun {name other} here there differ => ?_⟩
  · split
    · exact List.pairwise_map.mpr ((unlisted_ordered distinct).imp fun less => ne_of_lt less)
    · exact List.nodup_singleton name
  · unfold Function.onFun
    dsimp only
    split
    · next reserved =>
        rw [if_neg fun same => differ (reserved.trans same.symm), List.disjoint_singleton]
        exact unplaced there
    · split
      · exact List.singleton_disjoint.mpr (unplaced here)
      · exact List.disjoint_singleton.mpr fun same => differ (List.mem_singleton.mp same).symm

/-- The tools of an assembly stand in the listed order, and those that are not listed, by name, where the reserved name
stands; an order that lacks it leaves them out. It is refused exactly when a tool has the reserved name or the order lists a
tool that nobody offers. -/
theorem order_tools_exact (distinct : (tools.map (·.name)).Nodup) (full : ∀ tool ∈ tools, tool.name ≠ "")
    (once : (order.getD [reservedTool]).Nodup) :
    ((∃ what, orderTools tools order (tools.map (·.name)) = .error what) ↔
      ¬ Orderly tools (order.getD [reservedTool])) ∧
    ∀ result, orderTools tools order (tools.map (·.name)) = .ok result →
      (result.map (·.name) = (order.getD [reservedTool]).flatMap fun name =>
        if name = reservedTool then (unlisted tools (order.getD [reservedTool])).map (·.name) else [name]) ∧
      (unlisted tools (order.getD [reservedTool])).Pairwise (fun a b => a.name < b.name) ∧
      (result.map (·.name)).Nodup ∧
      ∀ tool, tool ∈ result ↔ tool ∈ tools ∧
        (tool.name ∈ order.getD [reservedTool] ∨ reservedTool ∈ order.getD [reservedTool]) := by
  have plain : orderTools tools order (tools.map (·.name)) =
      orderTools tools (some (order.getD [reservedTool])) (tools.map (·.name)) := by
    cases order with
    | none => exact orderTools_default _
    | some names => rfl
  rw [plain]
  generalize order.getD [reservedTool] = names at once ⊢
  obtain ⟨orderly, went⟩ | ⟨wild, what, failed⟩ := orderTools_cases tools names
  · rw [went, placed full once orderly]
    refine ⟨⟨?_, fun wild => absurd orderly wild⟩, fun result done => ?_⟩
    · rintro ⟨_, failed⟩
      cases failed
    cases done
    have shown : (names.flatMap (stands tools (unlisted tools names))).map (·.name) = names.flatMap fun name =>
        if name = reservedTool then (unlisted tools names).map (·.name) else [name] := by
      rw [List.map_flatMap]
      exact List.flatMap_congr fun name member => stands_names distinct orderly member
    refine ⟨shown, unlisted_ordered distinct, ?_, fun tool => List.mem_flatMap.trans (mem_stands distinct orderly)⟩
    rw [shown]
    exact placed_once distinct once
  · rw [failed]
    exact ⟨⟨fun _ => wild, fun _ => ⟨what, rfl⟩⟩, fun result done => by cases done⟩

theorem order_tools_exact_marked : ∀ result, orderTools [{ name := "read" }, { name := "edit" }, { name := "bash" }]
    (some ["read", "<unlisted-tools>"]) ["read", "edit", "bash"] = .ok result →
      result.map (·.name) = ["read", "bash", "edit"] := by
  intro result h
  have placed := @order_tools_exact [{ name := "read" }, { name := "edit" }, { name := "bash" }]
    (some ["read", "<unlisted-tools>"]) (by decide) (by decide) (by decide)
  exact (placed.2 result h).1

end
end Araya.SystemPrompt
