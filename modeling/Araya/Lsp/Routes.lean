import Araya.Lsp.Translate
import Araya.Util.Sorted
import Araya.Util.Strings
import Mathlib.Data.List.DropRight
import Mathlib.Data.List.Nodup
import Mathlib.Data.List.Pairwise

/-!
The registry of language servers. A provider reserves its id and the extensions that it maps, all or none, until its
registration is released; a query goes to the provider of the extension of its file.
-/

namespace Araya.Lsp.Routes

universe u
variable {ρ : Type u}

def lower (text : String) : String := String.ofList (text.toList.map Char.toLower)

def isSeparator (c : Char) : Bool := c == '/' || c == '\\'

/-- A dot and then one or more characters that are neither dots nor separators. -/
def validExtension (ext : String) : Bool :=
  match ext.toList with
  | '.' :: c :: rest => (c :: rest).all fun c => c != '.' && !isSeparator c
  | _ => false

def normalizeExtension (ext : String) : String :=
  let lowered := lower ext
  if lowered = "" ∨ lowered.toList.head? = some '.' then lowered else "." ++ lowered

/-- Neither a base name without a dot nor one with its only dot in front has an extension. -/
def finalExtension (path : String) : String :=
  let base := path.toList.rtakeWhile fun c => !isSeparator c
  let ext := base.rtakeWhile (· != '.')
  if base.length ≤ ext.length + 1 then "" else lower (String.ofList ('.' :: ext))

inductive LspOperation where
  | goToDefinition
  | findReferences
  | goToImplementation
  | hover

structure LspQueryRequest where
  operation : LspOperation := .goToDefinition
  filePath : String
  position : LspPosition := {}
  workspaceRoot : String := ""

structure LspProviderQuery where
  request : LspQueryRequest
  languageId : String

/-- A query returns the task of a result. -/
structure LspProvider (ρ : Type u) where
  id : String
  extensionToLanguage : SortedMap String String
  query : LspProviderQuery → ρ

structure Route (ρ : Type u) where
  provider : LspProvider ρ
  languageId : String

structure LspRegistry (ρ : Type u) where
  providerIds : SortedSet String := ∅
  routes : SortedMap String (Route ρ) := ∅

/-- What a registration gives back. -/
structure Cleanup where
  id : String
  extensions : List String

def invalidProvider : String := "LSP_INVALID_PROVIDER"

def conflict : String := "LSP_CONFLICT"

def unavailable : String := "LSP_UNAVAILABLE"

/-- `std::map::emplace`, which keeps what is there. -/
def emplace {β : Type*} (m : SortedMap String β) (e : String × β) : SortedMap String β :=
  if m.contains e.1 then m else m.insert e.1 e.2

namespace LspProvider
variable (p : LspProvider ρ)

def pendingFrom : List (String × String) → SortedMap String (Route ρ) → Except LspError (SortedMap String (Route ρ))
  | [], pending => .ok pending
  | (rawExt, languageId) :: rest, pending =>
    let ext := normalizeExtension rawExt
    if validExtension ext = false then
      .error ⟨"LSP provider \"" ++ p.id ++ "\" maps an invalid extension \"" ++ rawExt ++ "\"", invalidProvider⟩
    else if trim languageId = "" then
      .error ⟨"LSP provider \"" ++ p.id ++ "\" maps extension \"" ++ ext ++ "\" to an empty language id", invalidProvider⟩
    else if pending.contains ext then
      .error ⟨"LSP provider \"" ++ p.id ++ "\" maps extension \"" ++ ext ++ "\" more than once", invalidProvider⟩
    else pendingFrom rest (pending.insert ext ⟨p, languageId⟩)

/-- The routes that the mapping of a provider asks for. -/
def pending : Except LspError (SortedMap String (Route ρ)) := p.pendingFrom p.extensionToLanguage.toList ∅

end LspProvider

namespace LspRegistry
variable (s : LspRegistry ρ)

/-- The effect of a registration. -/
def reserve (id : String) (pending : SortedMap String (Route ρ)) : LspRegistry ρ where
  providerIds := s.providerIds.insert id
  routes := pending.toList.foldl emplace s.routes

def registerProvider (p : LspProvider ρ) : Except LspError (LspRegistry ρ × Cleanup) :=
  if trim p.id = "" then .error ⟨"an LSP provider id must be a non-empty string", invalidProvider⟩
  else if p.id ∈ s.providerIds then
    .error ⟨"an LSP provider with id \"" ++ p.id ++ "\" is already registered", conflict⟩
  else if p.extensionToLanguage.toList.isEmpty then
    .error ⟨"LSP provider \"" ++ p.id ++ "\" registers no file extensions", invalidProvider⟩
  else
    match p.pending with
    | .error what => .error what
    | .ok pending =>
      match pending.toList.find? fun e => s.routes.contains e.1 with
      | some e => .error ⟨"extension \"" ++ e.1 ++ "\" is already handled by another LSP provider", conflict⟩
      | none => .ok (s.reserve p.id pending, ⟨p.id, pending.toList.map (·.1)⟩)

/-- The cleanup of a registration. -/
def release (c : Cleanup) : LspRegistry ρ where
  providerIds := s.providerIds.erase c.id
  routes := c.extensions.foldl SortedMap.erase s.routes

def query (request : LspQueryRequest) : Except LspError ρ :=
  match s.routes.find? (finalExtension request.filePath) with
  | none => .error ⟨"no LSP provider handles \"" ++ request.filePath ++ "\"", unavailable⟩
  | some route => .ok (route.provider.query ⟨request, route.languageId⟩)

end LspRegistry

/-! The registry over time -/

/-- The registry with the registrations that were not released. -/
structure Seam (ρ : Type u) where
  registry : LspRegistry ρ := {}
  next : Nat := 0
  held : List (Nat × Cleanup) := []

inductive Op (ρ : Type u) where
  | register (p : LspProvider ρ)
  | release (n : Nat)

/-- A registration is released at most once, by its holder or with its plugin. -/
def Seam.step (s : Seam ρ) : Op ρ → Seam ρ
  | .register p =>
    match s.registry.registerProvider p with
    | .error _ => { s with next := s.next + 1 }
    | .ok (registry, c) => { registry, next := s.next + 1, held := s.held ++ [(s.next, c)] }
  | .release n =>
    match s.held.find? fun e => e.1 == n with
    | none => s
    | some e => { s with registry := s.registry.release e.2, held := s.held.filter fun e => e.1 != n }

def Seam.run (s : Seam ρ) (ops : List (Op ρ)) : Seam ρ := ops.foldl Seam.step s

/-! What it is for -/

/-- The provider maps the extension, in its normal form, to the language. -/
def LspProvider.Handles (p : LspProvider ρ) (ext languageId : String) : Prop :=
  ∃ rawExt, (rawExt, languageId) ∈ p.extensionToLanguage.toList ∧ normalizeExtension rawExt = ext

/-- A provider with a name that maps well-formed extensions, each once, to languages. -/
structure LspProvider.WellFormed (p : LspProvider ρ) : Prop where
  id : trim p.id ≠ ""
  mapped : p.extensionToLanguage.toList ≠ []
  valid : ∀ e ∈ p.extensionToLanguage.toList, validExtension (normalizeExtension e.1) = true ∧ trim e.2 ≠ ""
  once : p.extensionToLanguage.toList.Pairwise fun e e' => normalizeExtension e.1 ≠ normalizeExtension e'.1

/-- Two providers that can be registered side by side. -/
def Apart (p q : LspProvider ρ) : Prop :=
  p.id ≠ q.id ∧ ∀ ext l l', p.Handles ext l → ¬ q.Handles ext l'

/-- The providers that are registered, under the numbers of their registrations. -/
abbrev Roster (ρ : Type u) := List (Nat × LspProvider ρ)

/-- A provider is taken on if it is well formed and apart from all that are registered. -/
def Admits (live : Roster ρ) (p : LspProvider ρ) : Prop := p.WellFormed ∧ ∀ e ∈ live, Apart e.2 p

open Classical in
/-- The roster after an operation, which is the next one of its number. -/
noncomputable def Roster.step (live : Roster ρ) (n : Nat) : Op ρ → Roster ρ
  | .register p => if Admits live p then live ++ [(n, p)] else live
  | .release n => live.filter fun e => e.1 != n

def Op.next (n : Nat) : Op ρ → Nat
  | .register _ => n + 1
  | .release _ => n

noncomputable def Roster.run (live : Roster ρ) (n : Nat) : List (Op ρ) → Roster ρ
  | [] => live
  | op :: ops => Roster.run (live.step n op) (op.next n) ops

/-! The loop over a mapping -/

section
variable {p : LspProvider ρ} {l : List (String × String)} {pending m : SortedMap String (Route ρ)} {what : LspError}

/-- The entries that the loop takes. -/
structure Takes (l : List (String × String)) (pending : SortedMap String (Route ρ)) : Prop where
  valid : ∀ e ∈ l, validExtension (normalizeExtension e.1) = true ∧ trim e.2 ≠ ""
  once : l.Pairwise fun e e' => normalizeExtension e.1 ≠ normalizeExtension e'.1
  fresh : ∀ e ∈ l, pending.find? (normalizeExtension e.1) = none

theorem takes_nil : Takes [] pending where
  valid := fun e member => by cases member
  once := .nil
  fresh := fun e member => by cases member

theorem takes_cons {rawExt languageId : String} : Takes ((rawExt, languageId) :: l) pending ↔
    validExtension (normalizeExtension rawExt) = true ∧ trim languageId ≠ "" ∧
      pending.find? (normalizeExtension rawExt) = none ∧
        Takes l (pending.insert (normalizeExtension rawExt) ⟨p, languageId⟩) := by
  constructor
  · intro takes
    have ⟨apart, once⟩ := List.pairwise_cons.mp takes.once
    have ⟨valid, named⟩ := takes.valid (rawExt, languageId) List.mem_cons_self
    refine ⟨valid, named, takes.fresh (rawExt, languageId) List.mem_cons_self, ?_⟩
    refine ⟨fun e member => takes.valid e (.tail _ member), once, ?_⟩
    intro e member
    rw [SortedMap.find?_insert, if_neg (apart e member).symm]
    exact takes.fresh e (.tail _ member)
  · rintro ⟨valid, named, fresh, takes⟩
    have other (e : String × String) (member : e ∈ l) : normalizeExtension e.1 ≠ normalizeExtension rawExt := by
      intro same
      have none := takes.fresh e member
      rw [SortedMap.find?_insert, if_pos same] at none
      cases none
    refine ⟨fun e member => ?_, List.pairwise_cons.mpr ⟨fun e member => (other e member).symm, takes.once⟩, fun e member => ?_⟩
    · obtain rfl | later := List.mem_cons.mp member
      · exact ⟨valid, named⟩
      · exact takes.valid e later
    · obtain rfl | later := List.mem_cons.mp member
      · exact fresh
      · have none := takes.fresh e later
        rw [SortedMap.find?_insert, if_neg (other e later)] at none
        exact none

/-- The loop fails with an entry that it does not take, and else holds what it started with and the mapping. -/
theorem pendingFrom_cases (p : LspProvider ρ) (l : List (String × String)) (pending : SortedMap String (Route ρ)) :
    (Takes l pending ∧ ∃ m, p.pendingFrom l pending = .ok m ∧ ∀ ext r, m.find? ext = some r ↔
      pending.find? ext = some r ∨ ∃ e ∈ l, normalizeExtension e.1 = ext ∧ r = ⟨p, e.2⟩) ∨
    ¬ Takes l pending ∧ ∃ what, p.pendingFrom l pending = .error what ∧ what.code = invalidProvider := by
  induction l generalizing pending with
  | nil =>
      refine .inl ⟨takes_nil, pending, rfl, fun ext r => ?_⟩
      simp
  | cons e l ih =>
      obtain ⟨rawExt, languageId⟩ := e
      rw [LspProvider.pendingFrom, takes_cons (p := p)]
      split
      · next invalid => exact .inr ⟨fun takes => absurd takes.1 (by simp [invalid]), _, rfl, rfl⟩
      · next valid =>
          split
          · next blank => exact .inr ⟨fun takes => takes.2.1 blank, _, rfl, rfl⟩
          · next named =>
              split
              · next taken =>
                  refine .inr ⟨fun takes => ?_, _, rfl, rfl⟩
                  have none := takes.2.2.1
                  unfold SortedMap.contains at taken
                  rw [none] at taken
                  cases taken
              · next free =>
                  have fresh : pending.find? (normalizeExtension rawExt) = none := by
                    unfold SortedMap.contains at free
                    simpa using free
                  obtain ⟨takes, m, done, holds⟩ | ⟨refuses, what, failed, code⟩ :=
                    ih (pending.insert (normalizeExtension rawExt) ⟨p, languageId⟩)
                  · refine .inl ⟨⟨by simpa using valid, named, fresh, takes⟩, m, done, fun ext r => ?_⟩
                    rw [holds, SortedMap.find?_insert, List.exists_mem_cons_iff]
                    by_cases here : ext = normalizeExtension rawExt
                    · rw [if_pos here, here, fresh]
                      simp only [true_and, Option.some.injEq, reduceCtorEq, false_or]
                      exact or_congr_left eq_comm
                    · rw [if_neg here]
                      simp only [Ne.symm here, false_and, false_or]
                  · exact .inr ⟨fun takes => refuses takes.2.2.2, what, failed, code⟩

theorem pending_cases (named : trim p.id ≠ "") (mapped : p.extensionToLanguage.toList ≠ []) :
    (p.WellFormed ∧ ∃ m, p.pending = .ok m ∧ ∀ ext r, m.find? ext = some r ↔
      ∃ languageId, p.Handles ext languageId ∧ r = ⟨p, languageId⟩) ∨
    ¬ p.WellFormed ∧ ∃ what, p.pending = .error what ∧ what.code = invalidProvider := by
  obtain ⟨takes, m, done, holds⟩ | ⟨refuses, what, failed, code⟩ := pendingFrom_cases p p.extensionToLanguage.toList ∅
  · refine .inl ⟨⟨named, mapped, takes.valid, takes.once⟩, m, done, fun ext r => ?_⟩
    rw [holds, SortedMap.find?_empty]
    constructor
    · rintro (none | ⟨e, member, here, rfl⟩)
      · cases none
      · exact ⟨e.2, ⟨e.1, member, here⟩, rfl⟩
    · rintro ⟨languageId, ⟨rawExt, member, here⟩, rfl⟩
      exact .inr ⟨(rawExt, languageId), member, here, rfl⟩
  · exact .inr ⟨fun sound => refuses ⟨sound.valid, sound.once, fun _ _ => rfl⟩, what, failed, code⟩

/-- A provider maps an extension to one language. -/
theorem LspProvider.WellFormed.handles_once (h : p.WellFormed) {ext l l' : String} (hl : p.Handles ext l)
    (hl' : p.Handles ext l') : l = l' := by
  obtain ⟨rawExt, member, rfl⟩ := hl
  obtain ⟨rawExt', member', same⟩ := hl'
  have keys : (p.extensionToLanguage.toList.map fun e => normalizeExtension e.1).Nodup := List.pairwise_map.mpr h.once
  exact congrArg (·.2) (List.inj_on_of_nodup_map keys member member' same.symm)

end

/-! The registry holds the roster -/

section
variable {s : Seam ρ} {live : Roster ρ} {p : LspProvider ρ} {m : SortedMap String (Route ρ)} {n : Nat} {ops : List (Op ρ)}

/-- What the registry holds are the routes of the providers that are registered, each told apart from all the others. -/
structure Holds (s : Seam ρ) (live : Roster ρ) : Prop where
  ids : ∀ id, id ∈ s.registry.providerIds ↔ ∃ e ∈ live, e.2.id = id
  routes : ∀ ext r, s.registry.routes.find? ext = some r ↔
    ∃ e ∈ live, ∃ languageId, e.2.Handles ext languageId ∧ r = ⟨e.2, languageId⟩
  held : ∀ h ∈ s.held, ∃ e ∈ live, e.1 = h.1 ∧ e.2.id = h.2.id ∧
    ∀ ext, ext ∈ h.2.extensions ↔ ∃ languageId, e.2.Handles ext languageId
  covered : ∀ e ∈ live, ∃ h ∈ s.held, h.1 = e.1
  sound : ∀ e ∈ live, e.2.WellFormed
  apart : live.Pairwise fun e e' => Apart e.2 e'.2
  drawn : ∀ e ∈ live, e.1 < s.next
  numbered : live.Pairwise fun e e' => e.1 ≠ e'.1

theorem Holds.start : Holds ({} : Seam ρ) [] where
  ids := by simp
  routes := by simp
  held := fun h member => by cases member
  covered := fun e member => by cases member
  sound := fun e member => by cases member
  apart := .nil
  drawn := fun e member => by cases member
  numbered := .nil

theorem find?_emplace {β : Type*} (m : SortedMap String β) (e : String × β) (ext : String) :
    (emplace m e).find? ext = if ext = e.1 then (m.find? ext).or (some e.2) else m.find? ext := by
  unfold emplace SortedMap.contains
  by_cases here : ext = e.1
  · rw [if_pos here, ← here]
    cases found : m.find? ext with
    | none => simp
    | some r => simp [found]
  · rw [if_neg here]
    split
    · rfl
    · rw [SortedMap.find?_insert, if_neg here]

theorem find?_reserve (registry : LspRegistry ρ) (id ext : String) :
    (registry.reserve id m).routes.find? ext = (registry.routes.find? ext).or (m.find? ext) := by
  unfold LspRegistry.reserve
  dsimp only
  rw [SortedMap.foldl_view SortedMap.find? emplace (fun _ r found => found.or (some r)) find?_emplace]
  cases m.find? ext <;> simp

theorem find?_release (extensions : List String) (routes : SortedMap String (Route ρ)) (ext : String) :
    (extensions.foldl SortedMap.erase routes).find? ext = if ext ∈ extensions then none else routes.find? ext := by
  induction extensions generalizing routes with
  | nil => simp
  | cons own extensions ih =>
      rw [List.foldl_cons, ih, SortedMap.find?_erase]
      by_cases later : ext ∈ extensions
      · rw [if_pos later, if_pos (List.mem_cons_of_mem _ later)]
      · by_cases here : ext = own <;> simp [later, here]

/-- A registration succeeds when the provider is admitted, and else says whether it clashes or is not well formed. -/
theorem Holds.register_cases (h : Holds s live) (p : LspProvider ρ) :
    (Admits live p ∧ ∃ m, s.registry.registerProvider p = .ok (s.registry.reserve p.id m, ⟨p.id, m.toList.map (·.1)⟩) ∧
      ∀ ext r, m.find? ext = some r ↔ ∃ languageId, p.Handles ext languageId ∧ r = ⟨p, languageId⟩) ∨
    ¬ Admits live p ∧ ∃ what, s.registry.registerProvider p = .error what ∧ (p.WellFormed → what.code = conflict) ∧
      (¬ p.WellFormed → (∀ e ∈ live, e.2.id ≠ p.id) → what.code = invalidProvider) := by
  unfold LspRegistry.registerProvider
  split
  · next blank => exact .inr ⟨fun admits => admits.1.id blank, _, rfl, fun sound => absurd blank sound.id, fun _ _ => rfl⟩
  · next named =>
      split
      · next taken =>
          obtain ⟨e, member, same⟩ := (h.ids p.id).mp taken
          exact .inr ⟨fun admits => (admits.2 e member).1 same, _, rfl, fun _ => rfl, fun _ free => absurd same (free e member)⟩
      · next free =>
          split
          · next empty =>
              have none := List.isEmpty_iff.mp empty
              exact .inr ⟨fun admits => admits.1.mapped none, _, rfl, fun sound => absurd none sound.mapped, fun _ _ => rfl⟩
          · next mapped =>
              obtain ⟨sound, m, done, holds⟩ | ⟨unsound, what, failed, code⟩ :=
                pending_cases named (mt List.isEmpty_iff.mpr mapped)
              · rw [done]
                dsimp only
                split
                · next e found =>
                    have taken := List.find?_some found
                    obtain ⟨languageId, own, -⟩ := (holds e.1 e.2).mp (SortedMap.mem_toList.mp (List.mem_of_find?_eq_some found))
                    obtain ⟨r, there⟩ := SortedMap.contains_iff.mp taken
                    obtain ⟨e', member, languageId', other, -⟩ := (h.routes _ r).mp there
                    exact .inr ⟨fun admits => (admits.2 e' member).2 _ _ _ other own, _, rfl, fun _ => rfl,
                      fun unsound => absurd sound unsound⟩
                · next none =>
                    refine .inl ⟨⟨sound, fun e member => ⟨fun same => free ((h.ids p.id).mpr ⟨e, member, same⟩), ?_⟩⟩, m, rfl, holds⟩
                    intro ext l l' other own
                    have untaken := List.find?_eq_none.mp none (ext, ⟨p, l'⟩)
                      (SortedMap.mem_toList.mpr ((holds _ _).mpr ⟨l', own, rfl⟩))
                    exact untaken (SortedMap.contains_iff.mpr ⟨_, (h.routes ext _).mpr ⟨e, member, l, other, rfl⟩⟩)
              · rw [failed]
                exact .inr ⟨fun admits => unsound admits.1, what, rfl, fun sound => absurd sound unsound, fun _ _ => code⟩

theorem Holds.register (h : Holds s live) (admits : Admits live p) (holds : ∀ ext r, m.find? ext = some r ↔
    ∃ languageId, p.Handles ext languageId ∧ r = ⟨p, languageId⟩) :
    Holds { registry := s.registry.reserve p.id m, next := s.next + 1,
            held := s.held ++ [(s.next, ⟨p.id, m.toList.map (·.1)⟩)] } (live ++ [(s.next, p)]) where
  ids := by
    intro id
    rw [LspRegistry.reserve, SortedSet.mem_insert, h.ids]
    simp only [List.mem_append, List.mem_singleton, or_and_right, exists_or, exists_eq_left, or_comm, eq_comm]
  routes := by
    intro ext r
    rw [find?_reserve, Option.or_eq_some_iff, holds, h.routes]
    simp only [List.mem_append, List.mem_singleton, or_and_right, exists_or, exists_eq_left]
    refine or_congr_right ⟨fun own => own.2, fun own => ⟨?_, own⟩⟩
    obtain ⟨languageId, own, -⟩ := own
    refine Option.eq_none_iff_forall_not_mem.mpr fun other found => ?_
    obtain ⟨e, member, languageId', theirs, -⟩ := (h.routes ext other).mp found
    exact (admits.2 e member).2 _ _ _ theirs own
  held := by
    intro c member
    obtain old | new := List.mem_append.mp member
    · obtain ⟨e, there, same⟩ := h.held c old
      exact ⟨e, List.mem_append_left _ there, same⟩
    · cases List.mem_singleton.mp new
      refine ⟨(s.next, p), List.mem_append_right _ (List.mem_singleton_self _), rfl, rfl, fun ext => ?_⟩
      constructor
      · intro listed
        obtain ⟨e, there, rfl⟩ := List.mem_map.mp listed
        obtain ⟨languageId, own, -⟩ := (holds e.1 e.2).mp (SortedMap.mem_toList.mp there)
        exact ⟨languageId, own⟩
      · rintro ⟨languageId, own⟩
        exact List.mem_map.mpr ⟨_, SortedMap.mem_toList.mpr ((holds ext _).mpr ⟨languageId, own, rfl⟩), rfl⟩
  covered := by
    intro e member
    obtain old | new := List.mem_append.mp member
    · obtain ⟨c, there, same⟩ := h.covered e old
      exact ⟨c, List.mem_append_left _ there, same⟩
    · cases List.mem_singleton.mp new
      exact ⟨_, List.mem_append_right _ (List.mem_singleton_self _), rfl⟩
  sound := by
    intro e member
    obtain old | new := List.mem_append.mp member
    · exact h.sound e old
    · cases List.mem_singleton.mp new
      exact admits.1
  apart := by
    refine List.pairwise_append.mpr ⟨h.apart, List.pairwise_singleton _ _, fun e old new member => ?_⟩
    cases List.mem_singleton.mp member
    exact admits.2 e old
  drawn := by
    intro e member
    obtain old | new := List.mem_append.mp member
    · exact Nat.lt_succ_of_lt (h.drawn e old)
    · cases List.mem_singleton.mp new
      exact Nat.lt_succ_self _
  numbered := by
    refine List.pairwise_append.mpr ⟨h.numbered, List.pairwise_singleton _ _, fun e old new member => ?_⟩
    cases List.mem_singleton.mp member
    exact Nat.ne_of_lt (h.drawn e old)

/-- Two providers of the roster are the same or apart. -/
theorem Holds.same_or_apart (h : Holds s live) {e e' : Nat × LspProvider ρ} (member : e ∈ live) (member' : e' ∈ live) :
    e = e' ∨ e.1 ≠ e'.1 ∧ Apart e.2 e'.2 := by
  have symm : Std.Symm fun e e' : Nat × LspProvider ρ => e.1 ≠ e'.1 ∧ Apart e.2 e'.2 :=
    ⟨fun _ _ apart => ⟨apart.1.symm, apart.2.1.symm, fun ext l l' own other => apart.2.2 ext l' l other own⟩⟩
  exact or_iff_not_imp_left.mpr ((h.numbered.and h.apart).forall member member')

theorem Holds.release (h : Holds s live) {c : Nat × Cleanup} (held : c ∈ s.held) :
    Holds { s with registry := s.registry.release c.2, held := s.held.filter fun e => e.1 != c.1 }
      (live.filter fun e => e.1 != c.1) := by
  obtain ⟨own, there, same, id, extensions⟩ := h.held c held
  have left {e : Nat × LspProvider ρ} : e ∈ live.filter (fun e => e.1 != c.1) ↔ e ∈ live ∧ Apart e.2 own.2 := by
    rw [List.mem_filter]
    refine and_congr_right fun member => ?_
    rw [bne_iff_ne, ← same]
    obtain rfl | ⟨other, apart⟩ := h.same_or_apart member there
    · exact ⟨fun differ => absurd rfl differ, fun apart => absurd rfl apart.1⟩
    · exact ⟨fun _ => apart, fun _ => other⟩
  exact {
    ids := by
      intro name
      rw [LspRegistry.release, SortedSet.mem_erase, h.ids, ← id]
      constructor
      · rintro ⟨differ, e, member, rfl⟩
        obtain rfl | ⟨other, apart⟩ := h.same_or_apart member there
        · exact absurd rfl differ
        · exact ⟨e, left.mpr ⟨member, apart⟩, rfl⟩
      · rintro ⟨e, member, rfl⟩
        have ⟨member, apart⟩ := left.mp member
        exact ⟨apart.1, e, member, rfl⟩
    routes := by
      intro ext r
      rw [LspRegistry.release, find?_release]
      constructor
      · intro there'
        split at there'
        · cases there'
        · next free =>
            obtain ⟨e, member, languageId, handles, rfl⟩ := (h.routes ext r).mp there'
            obtain rfl | ⟨other, apart⟩ := h.same_or_apart member there
            · exact absurd ((extensions ext).mpr ⟨languageId, handles⟩) free
            · exact ⟨e, left.mpr ⟨member, apart⟩, languageId, handles, rfl⟩
      · rintro ⟨e, member, languageId, handles, rfl⟩
        have ⟨member, apart⟩ := left.mp member
        have free : ext ∉ c.2.extensions := by
          intro taken
          obtain ⟨languageId', theirs⟩ := (extensions ext).mp taken
          exact apart.2 ext _ _ handles theirs
        rw [if_neg free]
        exact (h.routes ext _).mpr ⟨e, member, languageId, handles, rfl⟩
    held := by
      intro c' member
      have ⟨old, differ⟩ := List.mem_filter.mp member
      obtain ⟨e, member, number, rest⟩ := h.held c' old
      exact ⟨e, List.mem_filter.mpr ⟨member, number ▸ differ⟩, number, rest⟩
    covered := by
      intro e member
      have ⟨old, differ⟩ := List.mem_filter.mp member
      obtain ⟨c', member, number⟩ := h.covered e old
      exact ⟨c', List.mem_filter.mpr ⟨member, number ▸ differ⟩, number⟩
    sound := fun e member => h.sound e (List.mem_of_mem_filter member)
    apart := h.apart.filter _
    drawn := fun e member => h.drawn e (List.mem_of_mem_filter member)
    numbered := h.numbered.filter _ }

theorem Holds.step (h : Holds s live) (op : Op ρ) :
    Holds (s.step op) (live.step s.next op) ∧ (s.step op).next = op.next s.next := by
  cases op with
  | register p =>
      rw [Seam.step, Roster.step]
      obtain ⟨admits, m, done, holds⟩ | ⟨refused, what, failed, -⟩ := h.register_cases p
      · rw [done, if_pos admits]
        exact ⟨h.register admits holds, rfl⟩
      · rw [failed, if_neg refused]
        exact ⟨{ h with drawn := fun e member => Nat.lt_succ_of_lt (h.drawn e member) }, rfl⟩
  | release n =>
      rw [Seam.step, Roster.step]
      cases found : s.held.find? fun e => e.1 == n with
      | some c =>
          have number : c.1 = n := by simpa using List.find?_some found
          exact number ▸ ⟨h.release (List.mem_of_find?_eq_some found), rfl⟩
      | none =>
          have same : (live.filter fun e => e.1 != n) = live := by
            refine List.filter_eq_self.mpr fun e member => ?_
            obtain ⟨c, there, number⟩ := h.covered e member
            have other := List.find?_eq_none.mp found c there
            rw [number] at other
            simpa using other
          rw [same]
          exact ⟨h, rfl⟩

theorem Holds.run (h : Holds s live) : Holds (s.run ops) (live.run s.next ops) := by
  unfold Seam.run
  induction ops generalizing s live with
  | nil => exact h
  | cons op ops ih =>
      have ⟨after, next⟩ := h.step op
      rw [List.foldl_cons, Roster.run, ← next]
      exact ih after

/-- After any run a query reaches the registered provider of the extension of its file, with its language, and is refused
where there is none; a provider is taken on exactly when it is well formed and shares neither its name nor an extension with
one that is registered. What was released can be taken by others. -/
theorem routed_exact (ops : List (Op ρ)) :
    (∀ request r, (({} : Seam ρ).run ops).registry.query request = .ok r ↔ ∃ e ∈ Roster.run [] 0 ops, ∃ languageId,
      e.2.Handles (finalExtension request.filePath) languageId ∧ r = e.2.query ⟨request, languageId⟩) ∧
    (∀ request what, (({} : Seam ρ).run ops).registry.query request = .error what → what.code = unavailable) ∧
    ((Roster.run [] 0 ops).Pairwise fun e e' => Apart e.2 e'.2) ∧
    ∀ p, ((∃ s', (({} : Seam ρ).run ops).registry.registerProvider p = .ok s') ↔ Admits (Roster.run [] 0 ops) p) ∧
      ∀ what, (({} : Seam ρ).run ops).registry.registerProvider p = .error what →
        (p.WellFormed → what.code = conflict) ∧
        (¬ p.WellFormed → (∀ e ∈ Roster.run [] 0 ops, e.2.id ≠ p.id) → what.code = invalidProvider) := by
  have h : Holds (({} : Seam ρ).run ops) (Roster.run [] 0 ops) := Holds.start.run
  refine ⟨fun request r => ?_, fun request what => ?_, h.apart, fun p => ?_⟩
  · unfold LspRegistry.query
    constructor
    · intro went
      split at went
      · cases went
      · next route found =>
          cases went
          obtain ⟨e, member, languageId, handles, rfl⟩ := (h.routes _ _).mp found
          exact ⟨e, member, languageId, handles, rfl⟩
    · rintro ⟨e, member, languageId, handles, rfl⟩
      rw [(h.routes _ _).mpr ⟨e, member, languageId, handles, rfl⟩]
  · unfold LspRegistry.query
    intro went
    split at went
    · cases went
      rfl
    · cases went
  · obtain ⟨admits, m, done, -⟩ | ⟨refused, what, failed, codes⟩ := h.register_cases p
    · rw [done]
      exact ⟨⟨fun _ => admits, fun _ => ⟨_, rfl⟩⟩, fun what failed => by cases failed⟩
    · rw [failed]
      refine ⟨⟨?_, fun admits => absurd admits refused⟩, fun other same => ?_⟩
      · rintro ⟨_, done⟩
        cases done
      · cases same
        exact codes

/-! All servers of a configuration, or none -/

/-- The loop of the plugin over its providers, which releases what it has registered when one is refused. -/
def LspRegistry.registerAll (s : LspRegistry ρ) (registrations : List Cleanup) :
    List (LspProvider ρ) → LspRegistry ρ × Except LspError (List Cleanup)
  | [] => (s, .ok registrations)
  | p :: providers =>
    match s.registerProvider p with
    | .error what => (registrations.foldl LspRegistry.release s, .error what)
    | .ok (s', c) => registerAll s' (registrations ++ [c]) providers

/-- The registry is told by the providers that are registered. -/
theorem Holds.registry_eq {s' : Seam ρ} {live' : Roster ρ} (h : Holds s live) (h' : Holds s' live')
    (same : ∀ e, e ∈ live ↔ e ∈ live') : s.registry = s'.registry := by
  have ids : s.registry.providerIds = s'.registry.providerIds := by
    refine SortedSet.ext_mem fun id => ?_
    rw [h.ids, h'.ids]
    simp only [same]
  have routes : s.registry.routes = s'.registry.routes := by
    refine SortedMap.ext_find? fun ext => Option.ext fun r => ?_
    rw [h.routes, h'.routes]
    simp only [same]
  calc s.registry = ⟨s.registry.providerIds, s.registry.routes⟩ := rfl
    _ = s'.registry := by rw [ids, routes]

/-- Releasing registrations of different numbers leaves the others. -/
theorem Holds.rollback (h : Holds s live) {done : List (Nat × Cleanup)} (held : ∀ c ∈ done, c ∈ s.held)
    (numbers : (done.map (·.1)).Nodup) : ∃ s' : Seam ρ,
      s'.registry = (done.map (·.2)).foldl LspRegistry.release s.registry ∧
        Holds s' (live.filter fun e => !(done.map (·.1)).contains e.1) := by
  induction done generalizing s live with
  | nil =>
      refine ⟨s, rfl, ?_⟩
      simpa using h
  | cons c done ih =>
      have ⟨fresh, numbers⟩ := List.nodup_cons.mp numbers
      have left : ∀ c' ∈ done, c' ∈ s.held.filter fun e => e.1 != c.1 := by
        intro c' member
        refine List.mem_filter.mpr ⟨held c' (.tail _ member), bne_iff_ne.mpr fun equal => ?_⟩
        exact fresh (List.mem_map.mpr ⟨c', member, equal⟩)
      obtain ⟨s', same, after⟩ := ih (h.release (held c List.mem_cons_self)) left numbers
      refine ⟨s', same, ?_⟩
      rw [List.filter_filter] at after
      have both : (fun e : Nat × LspProvider ρ => !(done.map (·.1)).contains e.1 && e.1 != c.1) =
          fun e => !((c :: done).map (·.1)).contains e.1 := by
        funext e
        rw [List.map_cons, List.contains_cons, Bool.not_or, Bool.and_comm]
        rfl
      rw [both] at after
      exact after

/-- All that a list of providers must be to be taken on together. -/
def AdmitsAll (live : Roster ρ) (providers : List (LspProvider ρ)) : Prop :=
  (∀ p ∈ providers, Admits live p) ∧ providers.Pairwise Apart

theorem admitsAll_cons {providers : List (LspProvider ρ)} :
    AdmitsAll live (p :: providers) ↔ Admits live p ∧ AdmitsAll (live ++ [(n, p)]) providers := by
  unfold AdmitsAll Admits
  simp only [List.forall_mem_cons, List.pairwise_cons, List.forall_mem_append, forall_and]
  tauto

/-- The loop goes on from the providers that it has taken on, and ends with all of them or with none. -/
theorem Holds.registerAll {fresh : Roster ρ} {base : Seam ρ} (done : List (Nat × Cleanup)) (providers : List (LspProvider ρ))
    (started : Holds base live) (h : Holds s (live ++ fresh)) (held : ∀ c ∈ done, c ∈ s.held)
    (numbers : done.map (·.1) = fresh.map (·.1)) :
    (AdmitsAll (live ++ fresh) providers ∧ ∃ s' : Seam ρ, ∃ registrations more,
      s.registry.registerAll (done.map (·.2)) providers = (s'.registry, .ok registrations) ∧
        Holds s' (live ++ fresh ++ more) ∧ more.map (·.2) = providers) ∨
    ¬ AdmitsAll (live ++ fresh) providers ∧ ∃ what,
      s.registry.registerAll (done.map (·.2)) providers = (base.registry, .error what) := by
  induction providers generalizing s fresh done with
  | nil =>
      have none : AdmitsAll (live ++ fresh) [] := ⟨by simp, List.Pairwise.nil⟩
      refine .inl ⟨none, s, done.map (·.2), [], rfl, ?_, rfl⟩
      rw [List.append_nil]
      exact h
  | cons p providers ih =>
      rw [LspRegistry.registerAll, admitsAll_cons (n := s.next)]
      obtain ⟨admits, m, went, holds⟩ | ⟨refused, what, failed, -⟩ := h.register_cases p
      · rw [went]
        have h' := h.register admits holds
        rw [List.append_assoc] at h'
        have held' : ∀ c ∈ done ++ [(s.next, (⟨p.id, m.toList.map (·.1)⟩ : Cleanup))],
            c ∈ s.held ++ [(s.next, (⟨p.id, m.toList.map (·.1)⟩ : Cleanup))] := by
          intro c member
          exact List.mem_append.mpr ((List.mem_append.mp member).imp_left (held c))
        have numbers' : (done ++ [(s.next, (⟨p.id, m.toList.map (·.1)⟩ : Cleanup))]).map (·.1) =
            (fresh ++ [(s.next, p)]).map (·.1) := by
          rw [List.map_append, List.map_append, numbers]
          rfl
        have rest := ih _ h' held' numbers'
        rw [List.map_append, ← List.append_assoc] at rest
        obtain ⟨all, s', registrations, more, went, after, same⟩ | ⟨refused, what, went⟩ := rest
        · refine .inl ⟨⟨admits, all⟩, s', registrations, (s.next, p) :: more, went, ?_, ?_⟩
          · rw [List.append_cons]
            exact after
          · rw [List.map_cons, same]
        · exact .inr ⟨fun all => refused all.2, what, went⟩
      · rw [failed]
        refine .inr ⟨fun all => refused all.1, what, ?_⟩
        obtain ⟨-, apart, between⟩ := List.pairwise_append.mp h.numbered
        have once : (done.map (·.1)).Nodup := numbers ▸ List.pairwise_map.mpr apart
        obtain ⟨s', same, after⟩ := h.rollback held once
        have back : s'.registry = base.registry := by
          refine after.registry_eq started fun e => ?_
          rw [numbers, List.mem_filter, List.mem_append, Bool.not_eq_true', List.contains_eq_mem, decide_eq_false_iff_not]
          constructor
          · rintro ⟨old | new, other⟩
            · exact old
            · exact absurd (List.mem_map_of_mem new) other
          · intro old
            refine ⟨.inl old, fun taken => ?_⟩
            obtain ⟨e', new, equal⟩ := List.mem_map.mp taken
            exact between e old e' new equal.symm
        rw [← same, back]

/-- The servers of a configuration are taken on together: all of them when each is admitted and no two of them clash, and
else the registry is what it was before the first. -/
theorem registers_all_or_none (ops : List (Op ρ)) (providers : List (LspProvider ρ)) :
    (AdmitsAll (Roster.run [] 0 ops) providers ∧ ∃ s' : Seam ρ, ∃ registrations more,
      (({} : Seam ρ).run ops).registry.registerAll [] providers = (s'.registry, .ok registrations) ∧
        Holds s' (Roster.run [] 0 ops ++ more) ∧ more.map (·.2) = providers) ∨
    ¬ AdmitsAll (Roster.run [] 0 ops) providers ∧ ∃ what,
      (({} : Seam ρ).run ops).registry.registerAll [] providers = ((({} : Seam ρ).run ops).registry, .error what) := by
  have h : Holds (({} : Seam ρ).run ops) (Roster.run [] 0 ops) := Holds.start.run
  have none : Holds (({} : Seam ρ).run ops) (Roster.run [] 0 ops ++ []) := by
    rw [List.append_nil]
    exact h
  have loop := h.registerAll [] providers none (by simp) rfl
  rw [List.append_nil] at loop
  exact loop

end
end Araya.Lsp.Routes
