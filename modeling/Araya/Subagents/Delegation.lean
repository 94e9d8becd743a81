import Araya.Session.Validate
import Araya.Tools.Registry
import Araya.Util.Machine
import Mathlib.Data.List.Nodup

/-!
The creation of subagents. A child is a session of its own, and the filter of its request
becomes a restriction of its scope; what its parent may not use is no part of the request.
-/

namespace Araya.Subagents
open Tools
open Sessions (ensure need except_bind of_need)

universe u

structure Capabilities where
  agentOptions : Bool := true
  outputSchema : Bool := true

structure StartRequest where
  parent : String
  provider : Option String := none
  model : Option String := none
  reasoningEffort : Option String := none
  maxDepth : Option Nat := none
  outputSchema : Option Json := none
  toolFilter : Option ToolRestriction := none

/-- A session of the store with the route of its last request header; `filter` is the one
it was spawned with. -/
structure SessionRecord where
  id : String
  parent : Option String := none
  delegationDepth : Nat := 0
  entered : Bool := true
  provider : Option String := none
  model : Option String := none
  filter : Option ToolRestriction := none

structure ChildState where
  id : String := ""
  parent : String
  backend : String
  routeProvider : String
  model : String
  reasoningEffort : String
  composition : Option Nat := none

/-- The children are those whose composition is in place. -/
structure SubagentsService (ρ : Type u) where
  tools : ToolsService ρ := {}
  sessions : List SessionRecord := []
  providers : List (String × Capabilities) := []
  maxDepth : Nat := 1
  children : List ChildState := []

inductive Op (ρ : Type u) where
  | enter (id : String)
  | route (id : String) (provider model : Option String)
  | dispose (id : String)
  | register (definition : ToolDefinition) (handler : ToolContext → ρ) (scope : Option String)
  | releaseTool (id : Nat)
  | guard (check : ToolContext → Option String) (scope : Option String)
  | releaseGuard (id : Nat)
  | spawn (backend : String) (req : StartRequest) (id : String)
  | release (child : String)

namespace SubagentsService
variable {ρ : Type u} (s : SubagentsService ρ)

def get (id : String) : Option SessionRecord := s.sessions.find? fun r => r.id == id && r.entered

/-- `inherit_route`, the field of the last header. -/
def inheritRoute (id : String) (field : SessionRecord → Option String) : Option String := (s.get id).bind field

/-- The checks before the child exists. -/
def prepare (backend : String) (req : StartRequest) : Except String (ChildState × Nat) := do
  let caps ← need (s.providers.lookup backend) ("subagents: unknown provider '" ++ backend ++ "'")
  let parent ← need (s.get req.parent) ("subagents: unknown parent session '" ++ req.parent ++ "'")
  ensure (caps.agentOptions || (req.provider.isNone && req.model.isNone && req.reasoningEffort.isNone))
    ("subagents: provider '" ++ backend ++ "' does not support route overrides")
  ensure (caps.outputSchema || req.outputSchema.isNone)
    ("subagents: provider '" ++ backend ++ "' does not support structured output")
  let depth := parent.delegationDepth + 1
  let cap := req.maxDepth.elim s.maxDepth (min · s.maxDepth)
  ensure (depth ≤ cap)
    ("subagents: delegation depth limit reached (depth " ++ toString depth ++ " > " ++ toString cap ++ ")")
  let routeProvider := req.provider.getD ((s.inheritRoute req.parent (·.provider)).getD "")
  let model := req.model.getD ((s.inheritRoute req.parent (·.model)).getD "")
  ensure (routeProvider != "" && model != "")
    "subagents: child route requires a provider and model (none given and none inherited)"
  .ok ({ parent := req.parent, backend, routeProvider, model, reasoningEffort := req.reasoningEffort.getD "" }, depth)

/-- `create_child`: the child is entered, and then its composition is installed. -/
def createChild (backend : String) (req : StartRequest) (id : String) : SubagentsService ρ × Except String ChildState :=
  match s.prepare backend req with
  | .error what => (s, .error what)
  | .ok (state, depth) =>
    let entered := { s with sessions := s.sessions ++
      [{ id, parent := some req.parent, delegationDepth := depth, filter := req.toolFilter }] }
    match req.toolFilter with
    | none => (entered, .ok { state with id })
    | some filter =>
      match s.tools.restrict filter (some id) with
      | .error what => (entered, .error what)
      | .ok (tools, restriction) => ({ entered with tools }, .ok { state with id, composition := some restriction })

/-- `run` and `start_continuable`, up to the first turn of the child. -/
def spawn (backend : String) (req : StartRequest) (id : String) : SubagentsService ρ :=
  match s.createChild backend req id with
  | (s, .error _) => s
  | (s, .ok child) => { s with children := s.children ++ [child] }

/-- The composition of a child is released, when its run ends or it is disposed. -/
def release (id : String) : SubagentsService ρ :=
  match s.children.find? (·.id == id) with
  | none => s
  | some child => { s with
      tools := child.composition.elim s.tools s.tools.releaseRestriction
      children := s.children.filter (·.id != id) }

def minted (id : String) : Bool := id != "" && s.sessions.all (·.id != id)

def next : Op ρ → Option (SubagentsService ρ)
  | .enter id => if s.minted id then some { s with sessions := s.sessions ++ [{ id }] } else none
  | .route id provider model => some { s with
      sessions := s.sessions.map fun r => if r.id = id then { r with provider, model } else r }
  | .dispose id => some { s with
      sessions := s.sessions.map fun r => if r.id = id then { r with entered := false } else r }
  | .register definition handler scope =>
    match s.tools.registerTool definition handler scope with
    | .error _ => some s
    | .ok (tools, _) => some { s with tools }
  | .releaseTool id => some { s with tools := s.tools.releaseTool id }
  | .guard check scope => some { s with tools := s.tools.guard check scope }
  | .releaseGuard id => some { s with tools := s.tools.releaseGuard id }
  | .spawn backend req id => if s.minted id then some (s.spawn backend req id) else none
  | .release child => some (s.release child)

/-- The session `id` was spawned by `ancestor`, or by one below it. -/
inductive Below : String → String → Prop
  | parent {r : SessionRecord} {ancestor : String} : r ∈ s.sessions → r.parent = some ancestor → Below r.id ancestor
  | further {r : SessionRecord} {middle ancestor : String} : r ∈ s.sessions → r.parent = some middle →
      Below middle ancestor → Below r.id ancestor

end SubagentsService

/-- What one filter admits, the other does. -/
def Narrower (filter wider : Option ToolRestriction) : Prop :=
  ∀ name, filter.all (·.admits name) = true → wider.all (·.admits name) = true

namespace SubagentsService
variable {ρ : Type u} (s : SubagentsService ρ)

/-- A spawn asks for no more than its parent was given, and no tool of a scope has the name
of a global. -/
def Narrows : Op ρ → Prop
  | .spawn _ req _ => ∀ p ∈ s.sessions, p.id = req.parent → Narrower req.toolFilter p.filter
  | .register definition _ scope => ∀ e ∈ s.tools.tools, e.definition.name = definition.name →
      (e.scope = none ↔ scope = none)
  | _ => True

/-- Each restriction is the filter of its session, each child has its own, and filters narrow
from parent to child. -/
structure Sound : Prop where
  distinct : (s.sessions.map (·.id)).Nodup
  lineage : ∀ r ∈ s.sessions, ∀ id ∈ r.parent, ∃ p ∈ s.sessions, p.id = id ∧ Narrower r.filter p.filter
  restricted : ∀ x ∈ s.tools.restrictions, ∃ r ∈ s.sessions, x.scope = some r.id ∧ r.filter = some x.filter
  drawn : ∀ x ∈ s.tools.restrictions, x.id < s.tools.nextRestrictionId
  composed : ∀ c ∈ s.children, ∀ id ∈ c.composition, id < s.tools.nextRestrictionId ∧
    ∀ x ∈ s.tools.restrictions, x.id = id → x.scope = some c.id
  installed : ∀ c ∈ s.children, ∃ r ∈ s.sessions, r.id = c.id ∧ ∀ filter ∈ r.filter,
    ∃ x ∈ s.tools.restrictions, x.scope = some c.id ∧ x.filter = filter
  unshadowed : ∀ e ∈ s.tools.tools, ∀ e' ∈ s.tools.tools, e.scope = none → e'.scope ≠ none →
    e.definition.name ≠ e'.definition.name

end SubagentsService

def delegations (ρ : Type u) : System (SubagentsService ρ) (Op ρ) where
  start s := s.tools.restrictions = [] ∧ s.tools.tools = [] ∧ s.sessions = [] ∧ s.children = []
  step s op s' := s.next op = some s'

namespace SubagentsService
variable {ρ : Type u} {s s' : SubagentsService ρ}

theorem Sound.record_eq (sound : s.Sound) {r r' : SessionRecord} (hr : r ∈ s.sessions) (hr' : r' ∈ s.sessions)
    (same : r.id = r'.id) : r = r' :=
  List.inj_on_of_nodup_map sound.distinct hr hr' same

theorem Sound.below (sound : s.Sound) {id ancestor : String} (below : s.Below id ancestor) :
    ∃ r ∈ s.sessions, ∃ p ∈ s.sessions, r.id = id ∧ p.id = ancestor ∧ Narrower r.filter p.filter := by
  induction below with
  | parent hr hp =>
      obtain ⟨p, hp, named, narrow⟩ := sound.lineage _ hr _ hp
      exact ⟨_, hr, p, hp, rfl, named, narrow⟩
  | further hr hp _ ih =>
      obtain ⟨m, hm, named, narrow⟩ := sound.lineage _ hr _ hp
      obtain ⟨m', hm', p, hp, named', above, wider⟩ := ih
      cases sound.record_eq hm hm' (named.trans named'.symm)
      exact ⟨_, hr, p, hp, rfl, above, fun name h => wider name (narrow name h)⟩

/-- A child in place is offered what its ancestors are. -/
theorem Sound.offers (sound : s.Sound) {c : ChildState} (hc : c ∈ s.children) {ancestor : String}
    (below : s.Below c.id ancestor) {e : ToolEntry ρ} (offered : s.tools.Offers c.id e) :
    s.tools.Offers ancestor e := by
  obtain ⟨tool, global, admitted, _⟩ := ToolsService.offers_iff.mp offered
  obtain ⟨r, hr, p, hp, named, above, narrow⟩ := sound.below below
  have given : r.filter.all (·.admits e.definition.name) = true := by
    obtain ⟨r', hr', same, installed⟩ := sound.installed c hc
    cases sound.record_eq hr hr' (named.trans same.symm)
    cases hf : r.filter with
    | none => rfl
    | some filter =>
        obtain ⟨x, hx, own, rfl⟩ := installed filter hf
        have passed := List.all_eq_true.mp admitted x hx
        simpa [own] using passed
  refine ToolsService.offers_iff.mpr ⟨tool, global, List.all_eq_true.mpr fun x hx => ?_, ?_⟩
  · obtain ⟨q, hq, own, filter⟩ := sound.restricted x hx
    by_cases same : q.id = ancestor
    · cases sound.record_eq hq hp (same.trans above.symm)
      have wide := narrow _ given
      rw [filter, Option.all_some] at wide
      simp [wide]
    · simp [own, same]
  · rintro ⟨e', tool', _, own, clash⟩
    exact sound.unshadowed e tool e' tool' global (by simp [own]) clash.symm

/-! Steps -/

/-- Other tools and guards, the same restrictions. -/
theorem Sound.retooled (sound : s.Sound) {tools : ToolsService ρ} (restrictions : tools.restrictions = s.tools.restrictions)
    (next : tools.nextRestrictionId = s.tools.nextRestrictionId)
    (unshadowed : ∀ e ∈ tools.tools, ∀ e' ∈ tools.tools, e.scope = none → e'.scope ≠ none →
      e.definition.name ≠ e'.definition.name) : ({ s with tools } : SubagentsService ρ).Sound where
  distinct := sound.distinct
  lineage := sound.lineage
  restricted := by rw [restrictions]; exact sound.restricted
  drawn := by rw [restrictions, next]; exact sound.drawn
  composed := by rw [restrictions, next]; exact sound.composed
  installed := by rw [restrictions]; exact sound.installed
  unshadowed := unshadowed

/-- Sessions change their headers and leave the store. -/
theorem Sound.recorded (sound : s.Sound) {f : SessionRecord → SessionRecord} (id : ∀ r, (f r).id = r.id)
    (parent : ∀ r, (f r).parent = r.parent) (filter : ∀ r, (f r).filter = r.filter) :
    ({ s with sessions := s.sessions.map f } : SubagentsService ρ).Sound where
  distinct := by
    have same : (s.sessions.map f).map (·.id) = s.sessions.map (·.id) := by
      rw [List.map_map]
      exact List.map_congr_left fun r _ => id r
    exact same ▸ sound.distinct
  lineage := by
    intro r' hr' name hn
    obtain ⟨r, hr, rfl⟩ := List.mem_map.mp hr'
    rw [parent] at hn
    obtain ⟨p, hp, named, narrow⟩ := sound.lineage r hr name hn
    exact ⟨f p, List.mem_map_of_mem hp, (id p).trans named, by rw [filter, filter]; exact narrow⟩
  restricted := by
    intro x hx
    obtain ⟨r, hr, own, given⟩ := sound.restricted x hx
    exact ⟨f r, List.mem_map_of_mem hr, by rw [id]; exact own, by rw [filter]; exact given⟩
  drawn := sound.drawn
  composed := sound.composed
  installed := by
    intro c hc
    obtain ⟨r, hr, named, given⟩ := sound.installed c hc
    exact ⟨f r, List.mem_map_of_mem hr, (id r).trans named, by rw [filter]; exact given⟩
  unshadowed := sound.unshadowed

/-- A new session, below one that was given no less. -/
theorem Sound.entered (sound : s.Sound) {r : SessionRecord} (minted : s.minted r.id = true)
    (lineage : ∀ id ∈ r.parent, ∃ p ∈ s.sessions, p.id = id ∧ Narrower r.filter p.filter) :
    ({ s with sessions := s.sessions ++ [r] } : SubagentsService ρ).Sound where
  distinct := by
    rw [List.map_append, List.map_singleton]
    refine List.nodup_append.mpr ⟨sound.distinct, List.nodup_singleton _, ?_⟩
    intro id old id' new same
    obtain ⟨r', hr', rfl⟩ := List.mem_map.mp old
    cases List.mem_singleton.mp new
    obtain ⟨_, fresh⟩ := Bool.and_eq_true_iff.mp minted
    have differ := List.all_eq_true.mp fresh r' hr'
    simp [same] at differ
  lineage := by
    intro r' hr' id hid
    have before : ∃ p ∈ s.sessions, p.id = id ∧ Narrower r'.filter p.filter := by
      rcases List.mem_append.mp hr' with old | new
      · exact sound.lineage r' old id hid
      · cases List.mem_singleton.mp new
        exact lineage id hid
    obtain ⟨p, hp, found⟩ := before
    exact ⟨p, List.mem_append_left _ hp, found⟩
  restricted := by
    intro x hx
    obtain ⟨r', hr', found⟩ := sound.restricted x hx
    exact ⟨r', List.mem_append_left _ hr', found⟩
  drawn := sound.drawn
  composed := sound.composed
  installed := by
    intro c hc
    obtain ⟨r', hr', found⟩ := sound.installed c hc
    exact ⟨r', List.mem_append_left _ hr', found⟩
  unshadowed := sound.unshadowed

/-- A child whose filter, when it has one, is the restriction of its scope. -/
theorem Sound.child (sound : s.Sound) {c : ChildState} {r : SessionRecord} (hr : r ∈ s.sessions) (named : r.id = c.id)
    (composed : ∀ id ∈ c.composition, id < s.tools.nextRestrictionId ∧
      ∀ x ∈ s.tools.restrictions, x.id = id → x.scope = some c.id)
    (installed : ∀ filter ∈ r.filter, ∃ x ∈ s.tools.restrictions, x.scope = some c.id ∧ x.filter = filter) :
    ({ s with children := s.children ++ [c] } : SubagentsService ρ).Sound where
  distinct := sound.distinct
  lineage := sound.lineage
  restricted := sound.restricted
  drawn := sound.drawn
  composed := by
    intro c' hc'
    rcases List.mem_append.mp hc' with old | new
    · exact sound.composed c' old
    · cases List.mem_singleton.mp new
      exact composed
  installed := by
    intro c' hc'
    rcases List.mem_append.mp hc' with old | new
    · exact sound.installed c' old
    · cases List.mem_singleton.mp new
      exact ⟨r, hr, named, installed⟩
  unshadowed := sound.unshadowed

/-- The filter of a session becomes a restriction of its scope. -/
theorem Sound.restrict (sound : s.Sound) {r : SessionRecord} (hr : r ∈ s.sessions) {filter : ToolRestriction}
    (given : r.filter = some filter) {tools : ToolsService ρ} {id : Nat}
    (h : s.tools.restrict filter (some r.id) = .ok (tools, id)) : ({ s with tools } : SubagentsService ρ).Sound := by
  obtain ⟨rfl, next, same, restrictions⟩ := ToolsService.restrict_cases h
  refine ⟨sound.distinct, sound.lineage, ?_, ?_, ?_, ?_, ?_⟩
  · intro x hx
    simp only [restrictions] at hx
    rcases List.mem_append.mp hx with old | new
    · exact sound.restricted x old
    · cases List.mem_singleton.mp new
      exact ⟨r, hr, rfl, given⟩
  · intro x hx
    simp only [restrictions, next] at hx ⊢
    rcases List.mem_append.mp hx with old | new
    · exact Nat.lt_succ_of_lt (sound.drawn x old)
    · cases List.mem_singleton.mp new
      exact Nat.lt_succ_self _
  · intro c hc id hid
    obtain ⟨drawn, own⟩ := sound.composed c hc id hid
    simp only [restrictions, next]
    refine ⟨Nat.lt_succ_of_lt drawn, fun x hx named => ?_⟩
    rcases List.mem_append.mp hx with old | new
    · exact own x old named
    · cases List.mem_singleton.mp new
      exact absurd named.symm (Nat.ne_of_lt drawn)
  · intro c hc
    obtain ⟨r', hr', named, installed⟩ := sound.installed c hc
    refine ⟨r', hr', named, fun f hf => ?_⟩
    obtain ⟨x, hx, found⟩ := installed f hf
    exact ⟨x, by simp only [restrictions]; exact List.mem_append_left _ hx, found⟩
  · simp only [same]
    exact sound.unshadowed

theorem get_mem {id : String} {r : SessionRecord} (h : s.get id = some r) : r ∈ s.sessions ∧ r.id = id := by
  have found := List.find?_some h
  exact ⟨List.mem_of_find?_eq_some h, by simpa using (Bool.and_eq_true_iff.mp found).1⟩

theorem prepare_parent {backend : String} {req : StartRequest} {prepared : ChildState × Nat}
    (h : s.prepare backend req = .ok prepared) : ∃ p ∈ s.sessions, p.id = req.parent := by
  obtain ⟨_, _, h⟩ := except_bind h
  obtain ⟨p, found, _⟩ := except_bind h
  exact ⟨p, get_mem (of_need found)⟩

theorem prepare_composition {backend : String} {req : StartRequest} {prepared : ChildState × Nat}
    (h : s.prepare backend req = .ok prepared) : prepared.1.composition = none := by
  obtain ⟨_, _, h⟩ := except_bind h
  obtain ⟨_, _, h⟩ := except_bind h
  obtain ⟨_, _, h⟩ := except_bind h
  obtain ⟨_, _, h⟩ := except_bind h
  obtain ⟨_, _, h⟩ := except_bind h
  obtain ⟨_, _, h⟩ := except_bind h
  cases h
  rfl

theorem Sound.spawn (sound : s.Sound) {backend : String} {req : StartRequest} {id : String}
    (minted : s.minted id = true) (narrows : s.Narrows (.spawn backend req id)) : (s.spawn backend req id).Sound := by
  cases prepared : s.prepare backend req with
  | error what => simpa only [SubagentsService.spawn, createChild, prepared] using sound
  | ok found =>
      obtain ⟨state, depth⟩ := found
      have uncomposed : state.composition = none := prepare_composition prepared
      obtain ⟨p, hp, named⟩ := prepare_parent prepared
      let r : SessionRecord := { id, parent := some req.parent, delegationDepth := depth, filter := req.toolFilter }
      have entered : ({ s with sessions := s.sessions ++ [r] } : SubagentsService ρ).Sound := by
        refine sound.entered minted fun name hn => ?_
        cases hn
        exact ⟨p, hp, named, narrows p hp named⟩
      have hr : r ∈ s.sessions ++ [r] := List.mem_append_right _ List.mem_cons_self
      cases hf : r.filter with
      | none =>
          have asked : req.toolFilter = none := hf
          have spawned : s.spawn backend req id =
              { s with sessions := s.sessions ++ [r], children := s.children ++ [{ state with id }] } := by
            simp only [SubagentsService.spawn, createChild, prepared, asked, r]
          rw [spawned]
          refine entered.child (c := { state with id }) hr rfl (fun k hk => ?_) fun filter given => ?_
          · rw [Option.mem_def, uncomposed] at hk
            cases hk
          · rw [Option.mem_def, hf] at given
            cases given
      | some filter =>
          have asked : req.toolFilter = some filter := hf
          cases installs : s.tools.restrict filter (some id) with
          | error what =>
              have spawned : s.spawn backend req id = { s with sessions := s.sessions ++ [r] } := by
                simp only [SubagentsService.spawn, createChild, prepared, asked, installs, r]
              exact spawned ▸ entered
          | ok restricted =>
              obtain ⟨tools, k⟩ := restricted
              have spawned : s.spawn backend req id = { s with
                  tools
                  sessions := s.sessions ++ [r]
                  children := s.children ++ [{ state with id, composition := some k }] } := by
                simp only [SubagentsService.spawn, createChild, prepared, asked, installs, r]
              rw [spawned]
              have sound' := entered.restrict hr hf installs
              obtain ⟨rfl, next, _, restrictions⟩ := ToolsService.restrict_cases installs
              refine sound'.child (c := { state with id, composition := _ }) hr rfl
                (fun k hk => ?_) fun given hg => ?_
              · cases hk
                refine ⟨?_, fun x hx named => ?_⟩
                · simp only [next]
                  exact Nat.lt_succ_self _
                · simp only [restrictions] at hx
                  rcases List.mem_append.mp hx with old | new
                  · exact absurd named (Nat.ne_of_lt (entered.drawn x old))
                  · cases List.mem_singleton.mp new
                    rfl
              · rw [Option.mem_def, hf] at hg
                cases hg
                have last : ⟨s.tools.nextRestrictionId, some id, filter⟩ ∈ tools.restrictions := by
                  rw [restrictions]
                  exact List.mem_append_right _ List.mem_cons_self
                exact ⟨_, last, rfl, rfl⟩

theorem Sound.release (sound : s.Sound) (id : String) : (s.release id).Sound := by
  unfold SubagentsService.release
  split
  · exact sound
  · next child found =>
      have hc := List.mem_of_find?_eq_some found
      have named : child.id = id := by simpa using List.find?_some found
      generalize ht : child.composition.elim s.tools s.tools.releaseRestriction = tools
      have kept : ∀ x ∈ tools.restrictions, x ∈ s.tools.restrictions := by
        rw [← ht]
        cases child.composition with
        | none => exact fun x hx => hx
        | some k => exact fun x hx => List.mem_of_mem_filter hx
      have others : ∀ x ∈ s.tools.restrictions, x.scope ≠ some id → x ∈ tools.restrictions := by
        rw [← ht]
        cases hk : child.composition with
        | none => exact fun x hx _ => hx
        | some k =>
            intro x hx other
            refine List.mem_filter.mpr ⟨hx, ?_⟩
            have own := (sound.composed child hc k hk).2 x hx
            rw [named] at own
            simpa using fun same => other (own same)
      have same : tools.tools = s.tools.tools ∧ tools.nextRestrictionId = s.tools.nextRestrictionId := by
        rw [← ht]
        cases child.composition <;> exact ⟨rfl, rfl⟩
      refine ⟨sound.distinct, sound.lineage, fun x hx => sound.restricted x (kept x hx), fun x hx => ?_, fun c hc k hk => ?_,
        fun c hc => ?_, ?_⟩
      · rw [same.2]
        exact sound.drawn x (kept x hx)
      · obtain ⟨drawn, own⟩ := sound.composed c (List.mem_of_mem_filter hc) k hk
        rw [same.2]
        exact ⟨drawn, fun x hx => own x (kept x hx)⟩
      · obtain ⟨hc, other⟩ := List.mem_filter.mp hc
        obtain ⟨r, hr, name, installed⟩ := sound.installed c hc
        refine ⟨r, hr, name, fun filter given => ?_⟩
        obtain ⟨x, hx, own, rfl⟩ := installed filter given
        refine ⟨x, others x hx ?_, own, rfl⟩
        rw [own]
        simpa using other
      · rw [same.1]
        exact sound.unshadowed

/-- A step keeps the invariant. -/
theorem Sound.next (sound : s.Sound) {op : Op ρ} (h : s.next op = some s') (narrows : s.Narrows op) : s'.Sound := by
  cases op with
  | enter id =>
      simp only [SubagentsService.next] at h
      split at h
      · next minted =>
          cases h
          exact sound.entered minted fun _ hn => by cases hn
      · cases h
  | route id provider model =>
      cases h
      refine sound.recorded (fun r => ?_) (fun r => ?_) fun r => ?_ <;> split <;> rfl
  | dispose id =>
      cases h
      refine sound.recorded (fun r => ?_) (fun r => ?_) fun r => ?_ <;> split <;> rfl
  | register definition handler scope =>
      simp only [SubagentsService.next] at h
      split at h
      · cases h
        exact sound
      · next tools id registered =>
          cases h
          obtain ⟨_, _, appended, restrictions, next⟩ := ToolsService.registerTool_cases registered
          refine sound.retooled restrictions next fun e he e' he' global own clash => ?_
          rw [appended] at he he'
          rcases List.mem_append.mp he with old | new
          · rcases List.mem_append.mp he' with old' | new'
            · exact sound.unshadowed e old e' old' global own clash
            · cases List.mem_singleton.mp new'
              exact own ((narrows e old clash).mp global)
          · rcases List.mem_append.mp he' with old' | new'
            · cases List.mem_singleton.mp new
              exact own ((narrows e' old' clash.symm).mpr global)
            · cases List.mem_singleton.mp new
              cases List.mem_singleton.mp new'
              exact own global
  | releaseTool id =>
      cases h
      exact sound.retooled rfl rfl fun e he e' he' =>
        sound.unshadowed e (List.mem_of_mem_filter he) e' (List.mem_of_mem_filter he')
  | guard check scope => cases h; exact sound.retooled rfl rfl sound.unshadowed
  | releaseGuard id => cases h; exact sound.retooled rfl rfl sound.unshadowed
  | spawn backend req id =>
      simp only [SubagentsService.next] at h
      split at h
      · next minted =>
          cases h
          exact sound.spawn minted narrows
      · cases h
  | release child => cases h; exact sound.release child

end SubagentsService

/-- While each spawn asks for no more than its parent was given, and no scope has a tool of
a global's name, a subagent whose composition is in place is offered only what each of its
ancestors is. -/
theorem delegation_narrows {ρ : Type u} {s : SubagentsService ρ}
    (reached : (delegations ρ).Reached (fun s op => s.Narrows op) s) {c : ChildState} (hc : c ∈ s.children)
    {ancestor : String} (below : s.Below c.id ancestor) {e : ToolEntry ρ} (offered : s.tools.Offers c.id e) :
    s.tools.Offers ancestor e := by
  have sound : s.Sound := by
    refine reached.invariant (I := SubagentsService.Sound) ?_ ?_
    · rintro s ⟨restrictions, tools, sessions, children⟩
      constructor <;> simp [restrictions, tools, sessions, children]
    · rintro s op s' _ sound h narrows
      exact sound.next h narrows
  exact sound.offers hc below offered

def empty : SubagentsService Unit := { tools := .fresh, providers := [("spawn", {})], maxDepth := 4 }

def tool (name : String) : Op Unit := .register { name } (fun _ => ()) none

def child (parent id : String) (allow : Option (List String)) : Op Unit :=
  .spawn "spawn" { parent, provider := some "mock", model := some "m", toolFilter := allow.map fun names => { allow := names } } id

/-- A root with two globals, a child that may only read, and a child of it. -/
def chain (allow : Option (List String)) : List (Op Unit) :=
  [tool "read", tool "write", .enter "root", child "root" "a" (some ["read"]), child "a" "b" allow]

/-- Both filters list what they admit. -/
def narrower? (filter wider : Option ToolRestriction) : Bool :=
  wider.all fun w => w.deny.isNone && w.allow.all fun names =>
    filter.any fun f => f.allow.any fun few => few.all names.contains

def narrows? (s : SubagentsService Unit) : Op Unit → Bool
  | .spawn _ req _ => s.sessions.all fun p => p.id != req.parent || narrower? req.toolFilter p.filter
  | .register definition _ scope => s.tools.tools.all fun e =>
      e.definition.name != definition.name || e.scope.isNone == scope.isNone
  | _ => true

theorem narrower_of_check {filter wider : Option ToolRestriction} (h : narrower? filter wider = true) :
    Narrower filter wider := by
  intro name admitted
  cases wider with
  | none => rfl
  | some w =>
      obtain ⟨deny, allow⟩ := Bool.and_eq_true_iff.mp h
      cases ha : w.allow with
      | none => simp [ToolRestriction.admits, ha, Option.isNone_iff_eq_none.mp deny]
      | some names =>
          rw [ha] at allow
          obtain ⟨f, rfl, listed⟩ := (Option.any_eq_true _ _).mp allow
          obtain ⟨few, hf, sub⟩ := (Option.any_eq_true _ _).mp listed
          have kept : name ∈ few := by
            have passed := (Bool.and_eq_true_iff.mp admitted).1
            simpa [hf] using passed
          have inside := List.all_eq_true.mp sub name kept
          simp only [Option.all_some, ToolRestriction.admits, ha, Option.isNone_iff_eq_none.mp deny, inside]
          rfl

theorem narrows_of_check {s : SubagentsService Unit} {op : Op Unit} (h : narrows? s op = true) : s.Narrows op := by
  cases op with
  | spawn backend req id =>
      intro p hp same
      have checked := List.all_eq_true.mp h p hp
      exact narrower_of_check (by simpa [same] using checked)
  | register definition handler scope =>
      intro e he same
      have checked := List.all_eq_true.mp h e he
      have alike : e.scope.isNone = scope.isNone := by simpa [same] using checked
      rw [← Option.isNone_iff_eq_none, ← Option.isNone_iff_eq_none, alike]
  | _ => trivial

/-- The child's child is offered what it and its parent were given. -/
theorem delegation_narrows_chain : ∃ s : SubagentsService Unit, s.Below "b" "a" ∧
    ∃ e, s.tools.Offers "b" e ∧ s.tools.Offers "a" e := by
  have played : (System.follow SubagentsService.next narrows? empty (chain (some ["read"]))).any (fun s =>
      s.children.any (·.id == "b") && s.sessions.any (fun r => r.id == "b" && r.parent == some "a") &&
        (s.tools.visible (some "b")).any (·.scope.isNone)) = true := by decide +kernel
  obtain ⟨s, hs, shape⟩ := (Option.any_eq_true _ _).mp played
  simp only [Bool.and_eq_true, List.any_eq_true, beq_iff_eq, Option.isNone_iff_eq_none] at shape
  obtain ⟨⟨⟨c, hc, id⟩, r, hr, named, parent⟩, e, seen, global⟩ := shape
  have below : s.Below c.id "a" := by
    rw [id, ← named]
    exact .parent hr parent
  have offered : s.tools.Offers c.id e := ⟨global, .inl (id ▸ seen)⟩
  have reached := System.follow_reached (S := delegations Unit) (P := fun s op => s.Narrows op) (fun _ _ _ h => h)
    (fun _ _ => narrows_of_check) hs (.start ⟨rfl, rfl, rfl, rfl⟩)
  exact ⟨s, id ▸ below, e, id ▸ offered, delegation_narrows reached hc below offered⟩

/-- A child that may only read spawns one without a filter, and that one is offered the rest. -/
theorem delegation_widens : ¬ ∀ s : SubagentsService Unit, (delegations Unit).Reached (fun _ _ => True) s →
    ∀ c ∈ s.children, ∀ ancestor, s.Below c.id ancestor → ∀ e, s.tools.Offers c.id e → s.tools.Offers ancestor e := by
  intro narrows
  have played : (System.follow SubagentsService.next (fun _ _ => true) empty (chain none)).any (fun s =>
      s.children.any (·.id == "b") && s.sessions.any (fun r => r.id == "b" && r.parent == some "a") &&
        (s.tools.visible (some "b")).any (fun e => e.scope.isNone && !s.tools.admits e.definition.name (some "a")))
      = true := by decide +kernel
  obtain ⟨s, hs, shape⟩ := (Option.any_eq_true _ _).mp played
  simp only [Bool.and_eq_true, Bool.not_eq_true', List.any_eq_true, beq_iff_eq, Option.isNone_iff_eq_none] at shape
  obtain ⟨⟨⟨c, hc, id⟩, r, hr, named, parent⟩, e, seen, global, refused⟩ := shape
  have below : s.Below c.id "a" := by
    rw [id, ← named]
    exact .parent hr parent
  have reached := System.follow_reached (S := delegations Unit) (P := fun _ _ => True) (fun _ _ _ h => h)
    (fun _ _ _ => trivial) hs (.start ⟨rfl, rfl, rfl, rfl⟩)
  have offered := narrows s reached c hc "a" below e ⟨global, .inl (id ▸ seen)⟩
  rw [(ToolsService.offers_iff.mp offered).2.2.1] at refused
  cases refused

end Araya.Subagents
