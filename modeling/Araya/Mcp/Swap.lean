import Araya.Tools.Registry
import Araya.Session.Validate

/-!
The tool generation of a server. A discovery lists the server's tools, and its listener replaces
the registrations of the generation before: they are released first and the new tools registered
one by one, so a name that is taken costs the old generation.
-/

namespace Araya.Mcp
open Tools (ToolsService ToolEntry ToolContext ToolDefinition)

universe u

structure McpTool where
  name : String
  description : String := ""
  inputSchema : Json := .obj [("type", .str "object")]

/-! Names -/

def invalidNameChar (c : UInt8) : Bool :=
  !((65 ≤ c && c ≤ 90) || (97 ≤ c && c ≤ 122) || (48 ≤ c && c ≤ 57) || c == 95 || c == 45)

/-- The bytes of a name, those outside the function-name contract replaced. -/
def normalized (joined : String) : String :=
  String.ofList (joined.toUTF8.toList.map fun c => if invalidNameChar c then '_' else Char.ofNat c.toNat)

def maxPublicNameLength : Nat := 64
def hashLength : Nat := 12

section
variable (sha256Hex : String → String)

def publicToolName (server rawName : String) : String :=
  let joined := "mcp__" ++ server ++ "__" ++ rawName
  if normalized joined = joined ∧ (normalized joined).length ≤ maxPublicNameLength then normalized joined
  else
    String.ofList ((normalized joined).toList.take (maxPublicNameLength - hashLength - 1)) ++ "_" ++
      String.ofList ((sha256Hex (server ++ String.singleton (Char.ofNat 0) ++ rawName)).toList.take hashLength)

theorem publicToolName_ne (server rawName : String) : publicToolName sha256Hex server rawName ≠ "" := by
  simp only [publicToolName]
  split
  · next same =>
      intro empty
      rw [same.1] at empty
      have long := congrArg String.length empty
      simp [String.length_append] at long
  · intro empty
    have long := congrArg String.length empty
    simp [String.length_append] at long

/-! Discovery -/

/-- One entry of a page of `tools/list`. -/
def parseTool (entry : Json) : Option McpTool :=
  entry.ifObject.bind fun tool =>
    let name := (Json.stringField tool "name").getD ""
    if name.isEmpty then none
    else some {
      name
      description := (Json.stringField tool "description").getD ""
      inputSchema := (Json.find? tool "inputSchema").getD (.obj [("type", .str "object")]) }

/-- The tools and the cursor of a page. -/
def parsePage (result : Json) : List McpTool × String :=
  match result.ifObject with
  | none => ([], "")
  | some o => (((Json.arrayField o "tools").getD []).filterMap parseTool, (Json.stringField o "nextCursor").getD "")

/-- The pages, one response each; a request may fail at any of them. -/
def discoverPages : List McpTool → List (Except String Json) → Except String (List McpTool)
  | _, [] => .error "mcp: the connection is lost"
  | _, .error what :: _ => .error what
  | tools, .ok result :: responses =>
    let (page, cursor) := parsePage result
    if cursor.isEmpty then .ok (tools ++ page) else discoverPages (tools ++ page) responses

/-- `discover`, up to its listener. -/
def discover (supportsTools : Bool) (responses : List (Except String Json)) : Except String (List McpTool) :=
  if supportsTools then discoverPages [] responses else .ok []

/-! The swap -/

variable {ρ : Type u} (callTool : String → ToolContext → ρ) (server : String)

def releaseAll (s : ToolsService ρ) (regs : List Nat) : ToolsService ρ := regs.foldl ToolsService.releaseTool s

def definitionOf (tool : McpTool) : ToolDefinition where
  name := publicToolName sha256Hex server tool.name
  description := tool.description
  parameters := tool.inputSchema

/-- A registry, the registrations of a server, and what was thrown. -/
structure Swapped (ρ : Type u) where
  service : ToolsService ρ
  regs : List Nat
  error : Option String := none

/-- The tools one by one; a conflict releases those of this generation. -/
def registerAll : List McpTool → ToolsService ρ → List Nat → Swapped ρ
  | [], service, pending => { service, regs := pending }
  | tool :: tools, service, pending =>
    match service.registerTool (definitionOf sha256Hex server tool) (callTool tool.name) none with
    | .ok (service, id) => registerAll tools service (pending ++ [id])
    | .error what => { service := releaseAll service pending, regs := [], error := some what }

def applyTools (service : ToolsService ρ) (regs : List Nat) (tools : List McpTool) : Swapped ρ :=
  registerAll sha256Hex callTool server tools (releaseAll service regs) []

/-- A discovery and its listener, for a connection that is up. -/
def resync (service : ToolsService ρ) (regs : List Nat) (supportsTools : Bool) (responses : List (Except String Json)) :
    Swapped ρ :=
  match discover supportsTools responses with
  | .error what => { service, regs, error := some what }
  | .ok tools => applyTools sha256Hex callTool server service regs tools

/-- The entries of a generation that starts at an id. -/
def generation : Nat → List McpTool → List (ToolEntry ρ)
  | _, [] => []
  | id, tool :: tools =>
    { id, scope := none, definition := definitionOf sha256Hex server tool, handler := callTool tool.name } ::
      generation (id + 1) tools

/-- The new generation in the place of the old one, or the old one as it was. -/
def Atomic (service : ToolsService ρ) (regs : List Nat) (listed : Except String (List McpTool)) (result : Swapped ρ) :
    Prop :=
  match result.error with
  | some _ => result.service.tools = service.tools
  | none => ∃ tools, listed = .ok tools ∧
      result.service.tools = service.tools.filter (!regs.contains ·.id) ++
        generation sha256Hex callTool server service.nextId tools ∧
      result.regs = (generation sha256Hex callTool server service.nextId tools).map (·.id)

/-- The public names are apart from each other and from the other globals. -/
def Admissible (service : ToolsService ρ) (regs : List Nat) (tools : List McpTool) : Prop :=
  (tools.map fun tool => publicToolName sha256Hex server tool.name).Nodup ∧
    ∀ e ∈ service.tools, e.id ∉ regs → e.scope = none →
      e.definition.name ∉ tools.map fun tool => publicToolName sha256Hex server tool.name

/-! Registrations -/

variable {sha256Hex callTool server} {s s' : ToolsService ρ}

theorem releaseAll_tools (s : ToolsService ρ) (regs : List Nat) :
    (releaseAll s regs).tools = s.tools.filter (!regs.contains ·.id) ∧ (releaseAll s regs).nextId = s.nextId := by
  induction regs generalizing s with
  | nil => exact ⟨(List.filter_eq_self.mpr fun _ _ => rfl).symm, rfl⟩
  | cons id regs ih =>
      obtain ⟨tools, next⟩ := ih (s.releaseTool id)
      refine ⟨?_, next⟩
      rw [releaseAll, List.foldl_cons]
      refine tools.trans ?_
      rw [ToolsService.releaseTool, List.filter_filter]
      refine List.filter_congr fun e _ => ?_
      rw [List.contains_cons, Bool.not_or, Bool.and_comm]
      rfl

/-- Registrations that succeed: the names are apart from each other and from the globals. -/
def Apart (sha256Hex : String → String) (server : String) (s : ToolsService ρ) (tools : List McpTool) : Prop :=
  (tools.map fun tool => publicToolName sha256Hex server tool.name).Nodup ∧
    ∀ e ∈ s.tools, e.scope = none → e.definition.name ∉ tools.map fun tool => publicToolName sha256Hex server tool.name

theorem clashes_iff {name : String} : s.clashes none name = true ↔ ∃ e ∈ s.tools, e.scope = none ∧ e.definition.name = name := by
  simp [ToolsService.clashes, List.any_eq_true]

theorem registerTool_clashes {tool : McpTool} (handler : ToolContext → ρ)
    (clash : s.clashes none (publicToolName sha256Hex server tool.name) = true) :
    ∃ what, s.registerTool (definitionOf sha256Hex server tool) handler none = .error what := by
  have named : (definitionOf sha256Hex server tool).name ≠ "" :=
    publicToolName_ne sha256Hex server tool.name
  unfold ToolsService.registerTool
  rw [if_neg named]
  exact ⟨_, dif_pos clash⟩

theorem registerTool_free {tool : McpTool} (handler : ToolContext → ρ)
    (free : s.clashes none (publicToolName sha256Hex server tool.name) = false) :
    ∃ s', s.registerTool (definitionOf sha256Hex server tool) handler none = .ok (s', s.nextId) := by
  have named : (definitionOf sha256Hex server tool).name ≠ "" :=
    publicToolName_ne sha256Hex server tool.name
  have apart : ¬ s.clashes none (publicToolName sha256Hex server tool.name) = true := by
    rw [free]
    exact Bool.false_ne_true
  unfold ToolsService.registerTool
  rw [if_neg named]
  exact ⟨_, dif_neg apart⟩

theorem apart_cons {tool : McpTool} {tools : List McpTool} {handler : ToolContext → ρ} {id : Nat}
    (free : s.clashes none (publicToolName sha256Hex server tool.name) = false)
    (grown : s'.tools = s.tools ++ [⟨id, none, definitionOf sha256Hex server tool, handler⟩]) :
    Apart sha256Hex server s (tool :: tools) ↔ Apart sha256Hex server s' tools := by
  have other : ∀ e ∈ s.tools, e.scope = none → e.definition.name ≠ publicToolName sha256Hex server tool.name := by
    intro e he global same
    have clash := clashes_iff.mpr ⟨e, he, global, same⟩
    rw [free] at clash
    cases clash
  simp only [Apart, List.map_cons, List.nodup_cons, List.mem_cons, not_or, grown, List.mem_append, List.not_mem_nil,
    or_false]
  constructor
  · rintro ⟨⟨fresh, nodup⟩, globals⟩
    refine ⟨nodup, fun e he global => ?_⟩
    rcases he with old | rfl
    · exact (globals e old global).2
    · exact fresh
  · rintro ⟨nodup, globals⟩
    refine ⟨⟨globals _ (.inr rfl) rfl, nodup⟩, fun e he global => ⟨other e he global, globals e (.inl he) global⟩⟩

variable (callTool) in
/-- A whole generation is registered. -/
theorem registerAll_apart {tools : List McpTool} (pending : List Nat) (apart : Apart sha256Hex server s tools) :
    (registerAll sha256Hex callTool server tools s pending).error = none ∧
      (registerAll sha256Hex callTool server tools s pending).service.tools =
        s.tools ++ generation sha256Hex callTool server s.nextId tools ∧
      (registerAll sha256Hex callTool server tools s pending).regs =
        pending ++ (generation sha256Hex callTool server s.nextId tools).map (·.id) := by
  induction tools generalizing s pending with
  | nil => exact ⟨rfl, (List.append_nil _).symm, (List.append_nil _).symm⟩
  | cons tool tools ih =>
      have free : s.clashes none (publicToolName sha256Hex server tool.name) = false := by
        refine Bool.not_eq_true _ ▸ fun clash => ?_
        obtain ⟨e, he, global, same⟩ := clashes_iff.mp clash
        exact apart.2 e he global (List.mem_cons.mpr (.inl same))
      obtain ⟨s', registered⟩ := registerTool_free (callTool tool.name) free
      obtain ⟨-, next, grown, -⟩ := ToolsService.registerTool_cases registered
      obtain ⟨error, service, regs⟩ := ih (pending ++ [s.nextId]) ((apart_cons free grown).mp apart)
      rw [registerAll, registered]
      refine ⟨error, service.trans ?_, regs.trans ?_⟩
      · rw [grown, next, List.append_assoc]
        rfl
      · rw [next, List.append_assoc]
        rfl

variable (callTool) in
/-- A conflict takes back what this generation has registered. -/
theorem registerAll_conflict {tools : List McpTool} (pending : List Nat) {base : List (ToolEntry ρ)}
    (split : s.tools.filter (!pending.contains ·.id) = base) (drawn : ∀ id ∈ pending, id < s.nextId)
    (conflict : ¬ Apart sha256Hex server s tools) (stays : ∀ e ∈ base, e.id < s.nextId) :
    (registerAll sha256Hex callTool server tools s pending).error.isSome = true ∧
      (registerAll sha256Hex callTool server tools s pending).service.tools = base := by
  induction tools generalizing s pending with
  | nil => exact absurd ⟨List.nodup_nil, fun _ _ _ h => by cases h⟩ conflict
  | cons tool tools ih =>
      rw [registerAll]
      cases clash : s.clashes none (publicToolName sha256Hex server tool.name) with
      | true =>
          obtain ⟨what, refused⟩ := registerTool_clashes (callTool tool.name) clash
          rw [refused]
          exact ⟨rfl, (releaseAll_tools s pending).1.trans split⟩
      | false =>
          obtain ⟨s', registered⟩ := registerTool_free (callTool tool.name) clash
          obtain ⟨-, next, grown, -⟩ := ToolsService.registerTool_cases registered
          rw [registered]
          refine ih (pending ++ [s.nextId]) ?_ ?_ (fun apart => conflict ((apart_cons clash grown).mpr apart)) ?_
          · rw [grown, List.filter_append, ← split]
            have own : (pending ++ [s.nextId]).contains s.nextId = true := by simp
            simp only [List.filter_cons, own, Bool.not_true, Bool.false_eq_true, if_false, List.filter_nil, List.append_nil]
            refine List.filter_congr fun e he => ?_
            have older := Nat.ne_of_lt (s.drawn e he)
            simp [older]
          · intro id hid
            rcases List.mem_append.mp hid with old | new
            · exact next ▸ Nat.lt_succ_of_lt (drawn id old)
            · cases List.mem_singleton.mp new
              exact next ▸ Nat.lt_succ_self _
          · exact fun e he => next ▸ Nat.lt_succ_of_lt (stays e he)

/-! The exchange -/

theorem apart_released {regs : List Nat} {tools : List McpTool} :
    Apart sha256Hex server (releaseAll s regs) tools ↔ Admissible sha256Hex server s regs tools := by
  unfold Apart Admissible
  rw [(releaseAll_tools s regs).1]
  refine and_congr_right fun _ => forall_congr' fun e => ?_
  simp only [List.mem_filter, Bool.not_eq_true', List.contains_eq_mem, decide_eq_false_iff_not, and_imp]

/-- A generation without entries leaves no gap. -/
theorem released_same {regs : List Nat} :
    s.tools.filter (!regs.contains ·.id) = s.tools ↔ ∀ e ∈ s.tools, e.id ∉ regs := by
  simp [List.filter_eq_self]

theorem applyTools_atomic (service : ToolsService ρ) (regs : List Nat) (tools : List McpTool) :
    Atomic sha256Hex callTool server service regs (.ok tools) (applyTools sha256Hex callTool server service regs tools) ↔
      Admissible sha256Hex server service regs tools ∨ ∀ e ∈ service.tools, e.id ∉ regs := by
  obtain ⟨released, next⟩ := releaseAll_tools service regs
  by_cases apart : Apart sha256Hex server (releaseAll service regs) tools
  · obtain ⟨error, swapped, registered⟩ := registerAll_apart callTool [] apart
    refine iff_of_true ?_ (.inl (apart_released.mp apart))
    unfold Atomic applyTools
    rw [error]
    refine ⟨tools, rfl, swapped.trans ?_, registered.trans ?_⟩
    · rw [released, next]
    · rw [next]
      rfl
  · obtain ⟨failed, restored⟩ := registerAll_conflict callTool []
      (List.filter_eq_self.mpr fun _ _ => rfl) (fun _ h => (by cases h)) apart (releaseAll service regs).drawn
    obtain ⟨what, error⟩ := Option.isSome_iff_exists.mp failed
    unfold Atomic applyTools
    rw [error]
    dsimp only
    rw [restored, released, released_same]
    exact ⟨.inr, fun h => h.resolve_left fun ok => apart (apart_released.mpr ok)⟩

/-- A re-sync is all or nothing when the tools it lists can all be registered, or when there was
nothing to lose. -/
theorem resync_atomic (sha256Hex : String → String) (callTool : String → ToolContext → ρ) (server : String)
    (service : ToolsService ρ) (regs : List Nat) (supportsTools : Bool) (responses : List (Except String Json)) :
    Atomic sha256Hex callTool server service regs (discover supportsTools responses)
        (resync sha256Hex callTool server service regs supportsTools responses) ↔
      ∀ tools, discover supportsTools responses = .ok tools →
        Admissible sha256Hex server service regs tools ∨ ∀ e ∈ service.tools, e.id ∉ regs := by
  unfold resync
  cases listed : discover supportsTools responses with
  | error what => exact iff_of_true rfl fun tools ok => by cases ok
  | ok tools =>
      refine (applyTools_atomic service regs tools).trans ⟨fun h tools' ok => ?_, fun h => h tools rfl⟩
      cases ok
      exact h

end

/-- A page of `tools/list` without a cursor. -/
def page (names : List String) : Json := .obj [("tools", .arr (names.map fun name => .obj [("name", .str name)]))]

/-- The listing of a server after its listing before. -/
def listedAgain (before after : List String) : Swapped Unit × Swapped Unit :=
  let first := resync id (fun _ _ => ()) "files" {} [] true [.ok (page before)]
  (first, resync id (fun _ _ => ()) "files" first.service first.regs true [.ok (page after)])

/-- A server that lists a name twice loses the tool it had. -/
theorem resync_loses :
    (listedAgain ["read"] ["read", "read"]).1.service.tools.map (·.definition.name) = ["mcp__files__read"] ∧
      (listedAgain ["read"] ["read", "read"]).2.error = some "tools: duplicate tool 'mcp__files__read'" ∧
      ¬ Atomic id (fun _ _ => ()) "files" (listedAgain ["read"] ["read", "read"]).1.service
        (listedAgain ["read"] ["read", "read"]).1.regs (discover true [.ok (page ["read", "read"])])
        (listedAgain ["read"] ["read", "read"]).2 := by
  have before : (listedAgain ["read"] ["read", "read"]).1.service.tools.map (·.definition.name) = ["mcp__files__read"] := by
    decide +kernel
  have after : (listedAgain ["read"] ["read", "read"]).2.service.tools.map (·.definition.name) = [] := by
    decide +kernel
  have error : (listedAgain ["read"] ["read", "read"]).2.error = some "tools: duplicate tool 'mcp__files__read'" := by
    decide +kernel
  refine ⟨before, error, fun atomic => ?_⟩
  unfold Atomic at atomic
  rw [error] at atomic
  have kept := congrArg (List.map (·.definition.name)) atomic
  rw [before, after] at kept
  cases kept

end Araya.Mcp
