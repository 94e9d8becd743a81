import Araya.Lsp.Routes

/-!
The servers of the stdio plugin: those of its configuration, and of the built-in ones what the configuration leaves room for.
-/

namespace Araya.Lsp.Routes

universe u
variable {ρ : Type u}

structure ServerConfig where
  id : String
  command : String
  args : List String := []
  extensionToLanguage : List (String × String)

def builtinServers : List ServerConfig :=
  [{ id := "clangd", command := "clangd", args := ["--background-index"], extensionToLanguage :=
      [(".c", "c"), (".h", "c"), (".cc", "cpp"), (".cpp", "cpp"), (".cxx", "cpp"), (".c++", "cpp"), (".hh", "cpp"),
        (".hpp", "cpp"), (".hxx", "cpp"), (".h++", "cpp"), (".m", "objective-c"), (".mm", "objective-cpp"),
        (".cu", "cuda"), (".cuh", "cuda")] },
    { id := "rust-analyzer", command := "rust-analyzer", extensionToLanguage := [(".rs", "rust")] },
    { id := "gopls", command := "gopls", extensionToLanguage := [(".go", "go")] },
    { id := "typescript-language-server", command := "typescript-language-server", args := ["--stdio"],
      extensionToLanguage := [(".ts", "typescript"), (".tsx", "typescriptreact"), (".js", "javascript"),
        (".jsx", "javascriptreact"), (".mjs", "javascript"), (".cjs", "javascript")] },
    { id := "pyright-langserver", command := "pyright-langserver", args := ["--stdio"],
      extensionToLanguage := [(".py", "python"), (".pyi", "python")] }]

/-- A configured server maps the extension, as it is written. -/
def claimed (servers : List ServerConfig) (ext : String) : Bool :=
  servers.any fun server => server.extensionToLanguage.any fun e => e.1 == ext

def defined (servers : List ServerConfig) (id : String) : Bool := servers.any fun server => server.id == id

/-- What is left of a built-in server. -/
def fallbackOf (servers : List ServerConfig) (fallback : ServerConfig) : Option ServerConfig :=
  if defined servers fallback.id then none
  else
    let remaining := fallback.extensionToLanguage.filter fun e => !claimed servers e.1
    if remaining.isEmpty then none else some { fallback with extensionToLanguage := remaining }

/-- The end of `parse_config`. -/
def withDefaults (servers : List ServerConfig) : List ServerConfig :=
  servers ++ builtinServers.filterMap (fallbackOf servers)

def mappingOf (extensions : List (String × String)) : SortedMap String String := extensions.foldl emplace ∅

section
variable (installed : String → Bool) (query : ServerConfig → LspProviderQuery → ρ)

def provider (server : ServerConfig) : LspProvider ρ := ⟨server.id, mappingOf server.extensionToLanguage, query server⟩

/-- The providers of the servers whose command is installed. -/
def providers (servers : List ServerConfig) : List (LspProvider ρ) :=
  (servers.filter fun server => installed server.command).map (provider query)

end

theorem builtin_sound : ∀ server ∈ builtinServers, trim server.id ≠ "" ∧ ∀ e ∈ server.extensionToLanguage,
    normalizeExtension e.1 = e.1 ∧ validExtension e.1 = true ∧ trim e.2 ≠ "" := by
  decide +kernel

theorem builtin_apart : builtinServers.Pairwise fun server server' => server.id ≠ server'.id ∧
    ∀ e ∈ server.extensionToLanguage, ∀ e' ∈ server'.extensionToLanguage, e.1 ≠ e'.1 := by
  decide +kernel

/-! The provider of a server -/

section
variable {query : ServerConfig → LspProviderQuery → ρ} {installed : String → Bool} {server server' fallback : ServerConfig}
  {servers : List ServerConfig}

theorem find?_emplaced (extensions : List (String × String)) (m : SortedMap String String) (ext : String) :
    (extensions.foldl emplace m).find? ext =
      (m.find? ext).or ((extensions.find? fun e => e.1 == ext).map (·.2)) := by
  induction extensions generalizing m with
  | nil => simp
  | cons e extensions ih =>
      rw [List.foldl_cons, ih, find?_emplace, List.find?_cons]
      by_cases here : ext = e.1
      · rw [if_pos here, here, beq_self_eq_true, Option.or_assoc]
        rfl
      · rw [if_neg here, beq_false_of_ne (Ne.symm here)]

theorem mem_mappingOf {extensions : List (String × String)} {e : String × String}
    (member : e ∈ (mappingOf extensions).toList) : e ∈ extensions := by
  have found := SortedMap.mem_toList.mp member
  rw [mappingOf, find?_emplaced, SortedMap.find?_empty, Option.none_or, Option.map_eq_some_iff] at found
  obtain ⟨own, first, value⟩ := found
  have key : own.1 = e.1 := by simpa using List.find?_some first
  have same : own = e := Prod.ext key value
  exact same ▸ List.mem_of_find?_eq_some first

theorem mappingOf_covers {extensions : List (String × String)} {e : String × String} (member : e ∈ extensions) :
    ∃ language, (e.1, language) ∈ (mappingOf extensions).toList := by
  have some : (extensions.find? fun own => own.1 == e.1).isSome := List.find?_isSome.mpr ⟨e, member, beq_self_eq_true _⟩
  obtain ⟨own, first⟩ := Option.isSome_iff_exists.mp some
  refine ⟨own.2, SortedMap.mem_toList.mpr ?_⟩
  rw [mappingOf, find?_emplaced, first]
  rfl

theorem apart_provider : Apart (provider query server) (provider query server') ↔ server.id ≠ server'.id ∧
    ∀ e ∈ server.extensionToLanguage, ∀ e' ∈ server'.extensionToLanguage,
      normalizeExtension e.1 ≠ normalizeExtension e'.1 := by
  refine and_congr_right fun _ => ⟨fun apart e member e' member' same => ?_, ?_⟩
  · obtain ⟨l, there⟩ := mappingOf_covers member
    obtain ⟨l', there'⟩ := mappingOf_covers member'
    exact apart _ l l' ⟨e.1, there, rfl⟩ ⟨e'.1, there', same.symm⟩
  · rintro differ ext l l' ⟨rawExt, there, here⟩ ⟨rawExt', there', here'⟩
    exact differ _ (mem_mappingOf there) _ (mem_mappingOf there') (here.trans here'.symm)

theorem fallbackOf_cases {rest : ServerConfig} (h : fallbackOf servers fallback = some rest) :
    defined servers fallback.id = false ∧ rest.id = fallback.id ∧ rest.command = fallback.command ∧
      rest.extensionToLanguage ≠ [] ∧
      ∀ e, e ∈ rest.extensionToLanguage ↔ e ∈ fallback.extensionToLanguage ∧ claimed servers e.1 = false := by
  unfold fallbackOf at h
  split at h
  · cases h
  · next free =>
      dsimp only at h
      split at h
      · cases h
      · next left =>
          cases h
          refine ⟨by simpa using free, rfl, rfl, mt List.isEmpty_iff.mpr left, fun e => ?_⟩
          rw [List.mem_filter, Bool.not_eq_true']

/-- What is left of a built-in server is well formed. -/
theorem fallback_wellFormed {rest : ServerConfig} (built : fallback ∈ builtinServers)
    (h : fallbackOf servers fallback = some rest) : (provider query rest).WellFormed := by
  obtain ⟨-, id, -, left, within⟩ := fallbackOf_cases h
  have ⟨named, sound⟩ := builtin_sound fallback built
  have own {e : String × String} (member : e ∈ (mappingOf rest.extensionToLanguage).toList) :=
    sound e ((within e).mp (mem_mappingOf member)).1
  refine ⟨?_, fun none => ?_, fun e member => ?_, ?_⟩
  · rw [provider, id]
    exact named
  · obtain ⟨e, member⟩ := List.exists_mem_of_ne_nil _ left
    obtain ⟨l, there⟩ := mappingOf_covers member
    rw [provider] at none
    rw [none] at there
    cases there
  · have ⟨normal, valid, language⟩ := own member
    rw [normal]
    exact ⟨valid, language⟩
  · refine (mappingOf rest.extensionToLanguage).sorted.imp_of_mem fun {e e'} member member' less => ?_
    rw [(own member).1, (own member').1]
    exact ne_of_lt less

/-- No configured server writes an extension of a default in another form than the normal one while the normal form is left to
the default. -/
def Clear (installed : String → Bool) (servers : List ServerConfig) : Prop :=
  ∀ server ∈ servers, installed server.command = true → ∀ fallback ∈ builtinServers, installed fallback.command = true →
    defined servers fallback.id = false → ∀ e ∈ server.extensionToLanguage, ∀ e' ∈ fallback.extensionToLanguage,
      normalizeExtension e.1 = e'.1 → claimed servers e'.1 = true

theorem mem_providers {p : LspProvider ρ} : p ∈ providers installed query servers ↔
    ∃ server ∈ servers, installed server.command = true ∧ provider query server = p := by
  unfold providers
  simp only [List.mem_map, List.mem_filter, and_assoc]

theorem defaults_wellFormed {p : LspProvider ρ}
    (member : p ∈ providers installed query (builtinServers.filterMap (fallbackOf servers))) : p.WellFormed := by
  obtain ⟨rest, there, -, rfl⟩ := mem_providers.mp member
  obtain ⟨fallback, built, left⟩ := List.mem_filterMap.mp there
  exact fallback_wellFormed built left

theorem defaults_apart :
    (providers installed query (builtinServers.filterMap (fallbackOf servers))).Pairwise Apart := by
  unfold providers
  refine List.pairwise_map.mpr (List.Pairwise.filter _ (List.pairwise_filterMap.mpr ?_))
  refine builtin_apart.imp_of_mem fun {fallback fallback'} built built' differ rest left rest' left' => ?_
  obtain ⟨-, id, -, -, within⟩ := fallbackOf_cases left
  obtain ⟨-, id', -, -, within'⟩ := fallbackOf_cases left'
  rw [apart_provider, id, id']
  refine ⟨differ.1, fun e member e' member' => ?_⟩
  have own := ((within e).mp member).1
  have own' := ((within' e').mp member').1
  rw [((builtin_sound fallback built).2 e own).1, ((builtin_sound fallback' built').2 e' own').1]
  exact differ.2 e own e' own'

/-- The configured servers stay apart from the defaults exactly when they are clear of them. -/
theorem configured_apart : (∀ p ∈ providers installed query servers,
    ∀ p' ∈ providers installed query (builtinServers.filterMap (fallbackOf servers)), Apart p p') ↔
      Clear installed servers := by
  constructor
  · intro apart server member runs fallback built runs' free e own e' own' same
    by_contra unclaimed
    have remaining : e' ∈ fallback.extensionToLanguage.filter fun e => !claimed servers e.1 :=
      List.mem_filter.mpr ⟨own', by simpa using unclaimed⟩
    have left : fallbackOf servers fallback =
        some { fallback with extensionToLanguage := fallback.extensionToLanguage.filter fun e => !claimed servers e.1 } := by
      unfold fallbackOf
      rw [if_neg (by simp [free]), if_neg (mt List.isEmpty_iff.mp (List.ne_nil_of_mem remaining))]
    have clash := apart _ (mem_providers.mpr ⟨server, member, runs, rfl⟩) _
      (mem_providers.mpr ⟨_, List.mem_filterMap.mpr ⟨fallback, built, left⟩, runs', rfl⟩)
    refine (apart_provider.mp clash).2 e own e' remaining ?_
    rw [same, ((builtin_sound fallback built).2 e' own').1]
  · rintro clear p member p' member'
    obtain ⟨server, there, runs, rfl⟩ := mem_providers.mp member
    obtain ⟨rest, there', runs', rfl⟩ := mem_providers.mp member'
    obtain ⟨fallback, built, left⟩ := List.mem_filterMap.mp there'
    obtain ⟨free, id, command, -, within⟩ := fallbackOf_cases left
    refine apart_provider.mpr ⟨fun same => ?_, fun e own e' own' same => ?_⟩
    · have taken : defined servers fallback.id = true := List.any_eq_true.mpr ⟨server, there, by simp [same, id]⟩
      rw [free] at taken
      cases taken
    · have ⟨own', unclaimed⟩ := (within e').mp own'
      rw [((builtin_sound fallback built).2 e' own').1] at same
      have taken := clear server there runs fallback built (command ▸ runs') free e own e' own' same
      rw [unclaimed] at taken
      cases taken

theorem admitsAll_withDefaults : AdmitsAll [] (providers installed query (withDefaults servers)) ↔
    AdmitsAll [] (providers installed query servers) ∧ Clear installed servers := by
  have split : providers installed query (withDefaults servers) = providers installed query servers ++
      providers installed query (builtinServers.filterMap (fallbackOf servers)) := by
    unfold providers withDefaults
    rw [List.filter_append, List.map_append]
  have admits (p : LspProvider ρ) : Admits [] p ↔ p.WellFormed := by simp [Admits]
  unfold AdmitsAll
  simp only [admits]
  rw [split, List.forall_mem_append, List.pairwise_append, configured_apart]
  constructor
  · rintro ⟨⟨sound, -⟩, apart, -, clear⟩
    exact ⟨⟨sound, apart⟩, clear⟩
  · rintro ⟨⟨sound, apart⟩, clear⟩
    exact ⟨⟨sound, fun p member => defaults_wellFormed member⟩, apart, defaults_apart, clear⟩

/-- On a registry of its own the plugin loads with its defaults exactly when its configured servers can be registered together
and are clear of the defaults; an extension in another case or without its dot, which a default keeps, takes the whole plugin
down. -/
theorem defaults_register (installed : String → Bool) (query : ServerConfig → LspProviderQuery → ρ)
    (servers : List ServerConfig) :
    (∃ registry registrations, ({} : LspRegistry ρ).registerAll [] (providers installed query (withDefaults servers)) =
      (registry, .ok registrations)) ↔
    AdmitsAll [] (providers installed query servers) ∧ Clear installed servers := by
  rw [← admitsAll_withDefaults]
  have start : Holds ({} : Seam ρ) ([] ++ []) := Holds.start
  obtain ⟨admits, s', registrations, more, went, -⟩ | ⟨refused, what, went⟩ :=
    Holds.start.registerAll [] (providers installed query (withDefaults servers)) start (by simp) rfl
  · exact ⟨fun _ => admits, fun _ => ⟨s'.registry, registrations, went⟩⟩
  · refine ⟨?_, fun admits => absurd admits refused⟩
    rintro ⟨registry, registrations, done⟩
    have same := done.symm.trans went
    simp at same

end
end Araya.Lsp.Routes
