import Araya.Util.Json
import Mathlib.Data.List.Forall2

/-!
The results of a language server in the provider's own terms. Whatever is not of the expected shape is refused; a number
that is too large for a position is not, and comes out reduced.
-/

namespace Araya.Lsp

structure LspPosition where
  line : UInt32 := 0
  character : UInt32 := 0

structure LspRange where
  start : LspPosition := {}
  stop : LspPosition := {}

structure LspLocation where
  uri : String
  range : LspRange

structure LspHover where
  contents : String
  range : Option LspRange := none

structure LspError where
  message : String
  code : String

def malformedResponse : String := "LSP_MALFORMED_RESPONSE"

def malformed {α : Type} (message : String) : Except LspError α := .error { message, code := malformedResponse }

/-- `nonneg_int`, with the cast of a number to 32 bits. -/
def nonnegInt : Json → Option UInt32
  | .int n => if 0 ≤ n then some (UInt32.ofNat n.toNat) else none
  | .uint n => some (UInt32.ofNat n)
  | _ => none

def parsePosition (value : Json) : Option LspPosition := do
  let object ← value.ifObject
  let line ← Json.find? object "line"
  let character ← Json.find? object "character"
  return { line := ← nonnegInt line, character := ← nonnegInt character }

def parseRange (value : Json) : Option LspRange := do
  let object ← value.ifObject
  let start ← Json.find? object "start"
  let stop ← Json.find? object "end"
  return { start := ← parsePosition start, stop := ← parsePosition stop }

/-! Hover contents -/

def renderMarkedString (value : Json) : Except LspError String :=
  match value with
  | .str text => .ok text
  | value =>
    match value.ifObject.bind (Json.stringField · "language"), value.ifObject.bind (Json.stringField · "value") with
    | some language, some text => .ok ("```" ++ language ++ "\n" ++ text ++ "\n```")
    | _, _ => malformed "LSP hover contents contained a malformed MarkedString"

/-- The loop over an array, with an empty line between the entries. -/
def renderEntries (first : Bool) (joined : String) : List Json → Except LspError String
  | [] => .ok joined
  | entry :: entries => do
    let joined := if first then joined else joined ++ "\n\n"
    let text ← renderMarkedString entry
    renderEntries false (joined ++ text) entries

def renderHoverContents (contents : Json) : Except LspError String :=
  match contents with
  | .str text => .ok text
  | .arr entries => renderEntries true "" entries
  | .obj object =>
    if Json.stringField object "kind" = some "markdown" ∨ Json.stringField object "kind" = some "plaintext" then
      match Json.stringField object "value" with
      | none => malformed "LSP hover MarkupContent value was not a string"
      | some text => .ok text
    else renderMarkedString contents
  | _ => malformed "LSP hover contents were not MarkupContent, MarkedString, or an array"

/-! The results -/

/-- The end of both branches of `normalize_locations`. -/
def rangedLocation (uri : String) (value : Json) (message : String) : Except LspError LspLocation :=
  match parseRange value with
  | none => malformed message
  | some range => .ok { uri, range }

def normalizeLocation (element : Json) : Except LspError LspLocation :=
  match element.ifObject with
  | none => malformed "LSP navigation result contained a non-object entry"
  | some object =>
    match Json.stringField object "targetUri", Json.find? object "targetSelectionRange" with
    | some uri, some selection => rangedLocation uri selection "LSP LocationLink had a malformed selection range"
    | _, _ =>
      match Json.stringField object "uri", Json.find? object "range" with
      | some uri, some value => rangedLocation uri value "LSP Location had a malformed range"
      | _, _ => malformed "LSP navigation result contained neither a Location nor a LocationLink"

def normalizeAll : List Json → Except LspError (List LspLocation)
  | [] => .ok []
  | element :: elements => do
    let location ← normalizeLocation element
    let locations ← normalizeAll elements
    return location :: locations

/-- The elements of a navigation result. -/
def elementsOf : Json → List Json
  | .null => []
  | .arr entries => entries
  | payload => [payload]

def normalizeLocations (payload : Json) : Except LspError (List LspLocation) := normalizeAll (elementsOf payload)

def normalizeHover (payload : Json) : Except LspError (Option LspHover) :=
  match payload with
  | .null => .ok none
  | .obj object =>
    match Json.find? object "contents" with
    | none => malformed "LSP hover result had no contents"
    | some contents => do
      let rendered ← renderHoverContents contents
      if rendered.isEmpty then return none
      match Json.find? object "range" with
      | none => return some { contents := rendered }
      | some value =>
        match parseRange value with
        | none => malformed "LSP hover result contained a malformed range"
        | some range => return some { contents := rendered, range := some range }
  | _ => malformed "LSP hover result was not an object"

/-! What a payload says -/

/-- The four numbers of a range as they are spelled. -/
structure RangeNumbers where
  startLine : Nat
  startCharacter : Nat
  stopLine : Nat
  stopCharacter : Nat
  deriving DecidableEq

/-- The numbers are positions. -/
structure RangeNumbers.Small (n : RangeNumbers) : Prop where
  startLine : n.startLine < 2 ^ 32
  startCharacter : n.startCharacter < 2 ^ 32
  stopLine : n.stopLine < 2 ^ 32
  stopCharacter : n.stopCharacter < 2 ^ 32

def RangeNumbers.reduced (n : RangeNumbers) : LspRange where
  start := { line := UInt32.ofNat n.startLine, character := UInt32.ofNat n.startCharacter }
  stop := { line := UInt32.ofNat n.stopLine, character := UInt32.ofNat n.stopCharacter }

def LspRange.numbers (r : LspRange) : RangeNumbers where
  startLine := r.start.line.toNat
  startCharacter := r.start.character.toNat
  stopLine := r.stop.line.toNat
  stopCharacter := r.stop.character.toNat

def SpellsPosition (value : Json) (line character : Nat) : Prop :=
  ∃ o, value.ifObject = some o ∧ Json.optUintField o "line" = some line ∧ Json.optUintField o "character" = some character

/-- The value is a range with these numbers. -/
def Spells (value : Json) (n : RangeNumbers) : Prop :=
  ∃ o start stop, value.ifObject = some o ∧ Json.find? o "start" = some start ∧ Json.find? o "end" = some stop ∧
    SpellsPosition start n.startLine n.startCharacter ∧ SpellsPosition stop n.stopLine n.stopCharacter

/-- The members that name a location: those of a link when both are there, else those of a plain location. -/
def Names (object : Json.Members) (uri : String) (range : Json) : Prop :=
  Json.stringField object "targetUri" = some uri ∧ Json.find? object "targetSelectionRange" = some range ∨
    (Json.stringField object "targetUri" = none ∨ Json.find? object "targetSelectionRange" = none) ∧
      Json.stringField object "uri" = some uri ∧ Json.find? object "range" = some range

/-- An element is a location with these numbers. -/
def Reads (element : Json) (uri : String) (n : RangeNumbers) : Prop :=
  ∃ object range, element.ifObject = some object ∧ Names object uri range ∧ Spells range n

inductive IsMarked : Json → String → Prop where
  | text {text : String} : IsMarked (.str text) text
  | code {o : Json.Members} {language text : String} (tongue : Json.stringField o "language" = some language)
      (value : Json.stringField o "value" = some text) : IsMarked (.obj o) ("```" ++ language ++ "\n" ++ text ++ "\n```")

def IsMarkup (o : Json.Members) : Prop :=
  Json.stringField o "kind" = some "markdown" ∨ Json.stringField o "kind" = some "plaintext"

/-- The text of hover contents; entries of an array stand one line apart. -/
inductive Renders : Json → String → Prop where
  | text {text : String} : Renders (.str text) text
  | entries {entries : List Json} {texts : List String} (each : List.Forall₂ IsMarked entries texts) :
      Renders (.arr entries) (String.intercalate "\n\n" texts)
  | markup {o : Json.Members} {text : String} (kind : IsMarkup o) (value : Json.stringField o "value" = some text) :
      Renders (.obj o) text
  | marked {o : Json.Members} {text : String} (other : ¬ IsMarkup o) (marked : IsMarked (.obj o) text) : Renders (.obj o) text

/-- Only the error of a malformed response. -/
def Refuses {α : Type} (x : Except LspError α) : Prop := ∃ e, x = .error e ∧ e.code = malformedResponse

/-! Ranges -/

section
variable {value element : Json} {n n' : RangeNumbers} {uri uri' : String}

theorem nonnegInt_eq (value : Json) : nonnegInt value = (Json.optUint value).map UInt32.ofNat := by
  cases value with
  | int k =>
      unfold nonnegInt Json.optUint
      dsimp only
      split <;> rfl
  | _ => rfl

theorem parsePosition_iff {p : LspPosition} : parsePosition value = some p ↔
    ∃ line character, SpellsPosition value line character ∧ p = { line := UInt32.ofNat line, character := UInt32.ofNat character } := by
  unfold parsePosition SpellsPosition Json.optUintField
  simp only [bind, Option.bind_eq_some_iff, nonnegInt_eq, Option.map_eq_some_iff, pure, Option.some.injEq]
  constructor
  · rintro ⟨o, object, l, hl, c, hc, _, ⟨line, spelledLine, rfl⟩, _, ⟨character, spelled, rfl⟩, rfl⟩
    exact ⟨line, character, ⟨o, object, ⟨l, hl, spelledLine⟩, c, hc, spelled⟩, rfl⟩
  · rintro ⟨line, character, ⟨o, object, ⟨l, hl, spelledLine⟩, c, hc, spelled⟩, rfl⟩
    exact ⟨o, object, l, hl, c, hc, _, ⟨line, spelledLine, rfl⟩, _, ⟨character, spelled, rfl⟩, rfl⟩

theorem parseRange_iff {r : LspRange} : parseRange value = some r ↔ ∃ n, Spells value n ∧ r = n.reduced := by
  unfold parseRange Spells
  simp only [bind, Option.bind_eq_some_iff, parsePosition_iff, pure, Option.some.injEq]
  constructor
  · rintro ⟨o, object, start, hs, stop, ht, _, ⟨l, c, first, rfl⟩, _, ⟨l', c', last, rfl⟩, rfl⟩
    exact ⟨⟨l, c, l', c'⟩, ⟨o, start, stop, object, hs, ht, first, last⟩, rfl⟩
  · rintro ⟨n, ⟨o, start, stop, object, hs, ht, first, last⟩, rfl⟩
    exact ⟨o, object, start, hs, stop, ht, _, ⟨_, _, first, rfl⟩, _, ⟨_, _, last, rfl⟩, rfl⟩

theorem parseRange_none (missing : parseRange value = none) (n : RangeNumbers) : ¬ Spells value n := fun spelled => by
  rw [parseRange_iff.mpr ⟨n, spelled, rfl⟩] at missing
  cases missing

theorem SpellsPosition.unique {line character line' character' : Nat} (h : SpellsPosition value line character)
    (h' : SpellsPosition value line' character') : line = line' ∧ character = character' := by
  obtain ⟨o, object, spelledLine, spelled⟩ := h
  obtain ⟨o', object', spelledLine', spelled'⟩ := h'
  cases object.symm.trans object'
  exact ⟨Option.some.inj (spelledLine.symm.trans spelledLine'), Option.some.inj (spelled.symm.trans spelled')⟩

theorem Spells.unique (h : Spells value n) (h' : Spells value n') : n = n' := by
  obtain ⟨o, start, stop, object, hs, ht, first, last⟩ := h
  obtain ⟨o', start', stop', object', hs', ht', first', last'⟩ := h'
  cases object.symm.trans object'
  cases hs.symm.trans hs'
  cases ht.symm.trans ht'
  obtain ⟨startLine, startCharacter⟩ := first.unique first'
  obtain ⟨stopLine, stopCharacter⟩ := last.unique last'
  cases n
  cases n'
  simp_all

theorem reduced_numbers_iff : n.reduced.numbers = n ↔ n.Small := by
  have exact_iff (k : Nat) : (UInt32.ofNat k).toNat = k ↔ k < 2 ^ 32 := by
    rw [UInt32.toNat_ofNat']
    omega
  unfold RangeNumbers.reduced LspRange.numbers
  rw [RangeNumbers.mk.injEq, exact_iff, exact_iff, exact_iff, exact_iff]
  constructor
  · rintro ⟨a, b, c, d⟩
    exact ⟨a, b, c, d⟩
  · rintro ⟨a, b, c, d⟩
    exact ⟨a, b, c, d⟩

/-! Locations -/

theorem Names.unique {object : Json.Members} {range range' : Json} (h : Names object uri range) (h' : Names object uri' range') :
    uri = uri' ∧ range = range' := by
  rcases h with ⟨target, selection⟩ | ⟨bare, own, here⟩
  · rcases h' with ⟨target', selection'⟩ | ⟨bare', -⟩
    · exact ⟨Option.some.inj (target.symm.trans target'), Option.some.inj (selection.symm.trans selection')⟩
    · rw [target, selection] at bare'
      rcases bare' with none | none <;> cases none
  · rcases h' with ⟨target', selection'⟩ | ⟨-, own', here'⟩
    · rw [target', selection'] at bare
      rcases bare with none | none <;> cases none
    · exact ⟨Option.some.inj (own.symm.trans own'), Option.some.inj (here.symm.trans here')⟩

theorem Reads.unique (h : Reads element uri n) (h' : Reads element uri' n') : uri = uri' ∧ n = n' := by
  obtain ⟨object, range, found, named, spelled⟩ := h
  obtain ⟨object', range', found', named', spelled'⟩ := h'
  cases found.symm.trans found'
  obtain ⟨rfl, rfl⟩ := named.unique named'
  exact ⟨rfl, spelled.unique spelled'⟩

/-- A range that is named settles the element. -/
theorem range_cases {object : Json.Members} {range : Json} (found : element.ifObject = some object) (named : Names object uri range)
    {m : String} (result : normalizeLocation element = rangedLocation uri range m) :
    Refuses (normalizeLocation element) ∧ (∀ uri n, ¬ Reads element uri n) ∨
      ∃ uri n, Reads element uri n ∧ normalizeLocation element = .ok { uri, range := n.reduced } := by
  unfold rangedLocation at result
  cases parsed : parseRange range with
  | none =>
      rw [parsed] at result
      refine .inl ⟨⟨{ message := m, code := malformedResponse }, result, rfl⟩, ?_⟩
      rintro uri' n ⟨object', range', found', named', spelled⟩
      cases found.symm.trans found'
      obtain ⟨rfl, rfl⟩ := named.unique named'
      exact parseRange_none parsed n spelled
  | some r =>
      rw [parsed] at result
      obtain ⟨n, spelled, rfl⟩ := parseRange_iff.mp parsed
      exact .inr ⟨uri, n, ⟨object, range, found, named, spelled⟩, result⟩

/-- An element is refused, or it is a location and its numbers are reduced. -/
theorem normalizeLocation_cases (element : Json) : Refuses (normalizeLocation element) ∧ (∀ uri n, ¬ Reads element uri n) ∨
    ∃ uri n, Reads element uri n ∧ normalizeLocation element = .ok { uri, range := n.reduced } := by
  cases found : element.ifObject with
  | none =>
      refine .inl ⟨⟨{ message := "LSP navigation result contained a non-object entry", code := malformedResponse }, ?_, rfl⟩, ?_⟩
      · unfold normalizeLocation
        rw [found]
        rfl
      · rintro uri n ⟨object, range, found', -⟩
        cases found.symm.trans found'
  | some object =>
      have shape : (∃ uri range m, Names object uri range ∧ normalizeLocation element = rangedLocation uri range m) ∨
          (∃ m, normalizeLocation element = malformed m) ∧ ∀ uri range, ¬ Names object uri range := by
        unfold normalizeLocation
        rw [found]
        dsimp only
        split
        · next uri selection target here => exact .inl ⟨uri, selection, _, .inl ⟨target, here⟩, rfl⟩
        · next link =>
            have bare : Json.stringField object "targetUri" = none ∨ Json.find? object "targetSelectionRange" = none := by
              cases target : Json.stringField object "targetUri" with
              | none => exact .inl rfl
              | some uri =>
                  cases here : Json.find? object "targetSelectionRange" with
                  | none => exact .inr rfl
                  | some selection => exact (link uri selection target here).elim
            split
            · next uri value own here => exact .inl ⟨uri, value, _, .inr ⟨bare, own, here⟩, rfl⟩
            · next plain =>
                refine .inr ⟨⟨_, rfl⟩, ?_⟩
                rintro uri range (⟨target, here⟩ | ⟨-, own, here⟩)
                · exact link uri range target here
                · exact plain uri range own here
      rcases shape with ⟨uri, range, m, named, result⟩ | ⟨⟨m, refused⟩, unnamed⟩
      · exact range_cases found named result
      · refine .inl ⟨⟨{ message := m, code := malformedResponse }, refused, rfl⟩, ?_⟩
        rintro uri n ⟨object', range, found', named, -⟩
        cases found.symm.trans found'
        exact unnamed uri range named

/-- A location that is what the element says. -/
def Located (element : Json) (l : LspLocation) : Prop := Reads element l.uri l.range.numbers

/-- A list of elements is refused for one of them, or all of them are locations with their numbers reduced. -/
theorem normalizeAll_cases (elements : List Json) :
    Refuses (normalizeAll elements) ∧ (∃ element ∈ elements, ∀ uri n, ¬ Reads element uri n) ∨
      ∃ locations, normalizeAll elements = .ok locations ∧ (∀ element ∈ elements, ∃ uri n, Reads element uri n) ∧
        (List.Forall₂ Located elements locations ↔ ∀ element ∈ elements, ∀ uri n, Reads element uri n → n.Small) := by
  induction elements with
  | nil =>
      refine .inr ⟨[], rfl, fun element member => absurd member List.not_mem_nil, ?_⟩
      exact iff_of_true .nil fun element member => absurd member List.not_mem_nil
  | cons element elements ih =>
      unfold normalizeAll
      rcases normalizeLocation_cases element with ⟨⟨e, refused, code⟩, unread⟩ | ⟨uri, n, read, done⟩
      · rw [refused]
        exact .inl ⟨⟨e, rfl, code⟩, element, List.mem_cons_self, unread⟩
      · rw [done]
        rcases ih with ⟨⟨e, refused, code⟩, other, later, unread⟩ | ⟨locations, rest, reads, exactly⟩
        · rw [refused]
          exact .inl ⟨⟨e, rfl, code⟩, other, List.mem_cons_of_mem _ later, unread⟩
        · rw [rest]
          refine .inr ⟨_, rfl, List.forall_mem_cons.mpr ⟨⟨uri, n, read⟩, reads⟩, ?_⟩
          rw [List.forall₂_cons, exactly, List.forall_mem_cons]
          refine and_congr_left' ⟨fun located uri' n' read' => ?_, fun small => ?_⟩
          · obtain ⟨-, same⟩ := read.unique read'
            obtain ⟨-, reduced⟩ := read'.unique located
            exact reduced_numbers_iff.mp (same ▸ reduced.symm)
          · have same := reduced_numbers_iff.mpr (small uri n read)
            unfold Located
            rw [same]
            exact read

/-- A navigation result is refused as malformed, or one location comes of each element, with its uri and its numbers. -/
def LocationsExact (payload : Json) : Prop := Refuses (normalizeLocations payload) ∨
  ∃ locations, normalizeLocations payload = .ok locations ∧ List.Forall₂ Located (elementsOf payload) locations

/-- Where every element is a location, every number is a position. -/
def LocationsFit (payload : Json) : Prop := (∀ element ∈ elementsOf payload, ∃ uri n, Reads element uri n) →
  ∀ element ∈ elementsOf payload, ∀ uri n, Reads element uri n → n.Small

theorem locations_exact_iff (payload : Json) : LocationsExact payload ↔ LocationsFit payload := by
  rcases normalizeAll_cases (elementsOf payload) with ⟨refused, other, member, unread⟩ | ⟨locations, done, reads, exactly⟩
  · refine iff_of_true (.inl refused) fun reads => ?_
    obtain ⟨uri, n, read⟩ := reads other member
    exact absurd read (unread uri n)
  · constructor
    · rintro (⟨e, refused, -⟩ | ⟨locations', done', located⟩) -
      · cases done.symm.trans refused
      · cases done.symm.trans done'
        exact exactly.mp located
    · intro fit
      exact .inr ⟨locations, done, exactly.mpr (fit reads)⟩

/-! Hover contents -/

section
variable {text joined : String} {entries : List Json} {contents : Json} {e : LspError}

theorem malformed_code {α : Type} {m : String} (h : (malformed m : Except LspError α) = .error e) : e.code = malformedResponse := by
  cases h
  rfl

theorem renderMarkedString_iff : renderMarkedString value = .ok text ↔ IsMarked value text := by
  constructor
  · intro rendered
    unfold renderMarkedString at rendered
    split at rendered
    · cases rendered
      exact .text
    · split at rendered
      · next language text' tongue body =>
          obtain ⟨o, object, tongue⟩ := Option.bind_eq_some_iff.mp tongue
          rw [object] at body
          cases rendered
          cases value with
          | obj o' =>
              cases object
              exact .code tongue body
          | _ => cases object
      · cases rendered
  · rintro (_ | ⟨tongue, body⟩)
    · rfl
    · unfold renderMarkedString
      dsimp only
      rw [Json.ifObject_obj, Option.bind_some, Option.bind_some, tongue, body]

theorem renderMarkedString_code (refused : renderMarkedString value = .error e) : e.code = malformedResponse := by
  unfold renderMarkedString at refused
  split at refused
  · cases refused
  · split at refused
    · cases refused
    · exact malformed_code refused

theorem renderEntries_iff : renderEntries false joined entries = .ok text ↔
    ∃ texts, List.Forall₂ IsMarked entries texts ∧ text = String.intercalate "\n\n" (joined :: texts) := by
  induction entries generalizing joined with
  | nil =>
      constructor
      · intro done
        cases done
        exact ⟨[], .nil, rfl⟩
      · rintro ⟨texts, each, rfl⟩
        cases each
        rfl
  | cons entry entries ih =>
      unfold renderEntries
      constructor
      · intro rendered
        cases marked : renderMarkedString entry with
        | error e =>
            rw [marked] at rendered
            cases rendered
        | ok own =>
            rw [marked] at rendered
            obtain ⟨texts, each, rfl⟩ := ih.mp rendered
            exact ⟨own :: texts, .cons (renderMarkedString_iff.mp marked) each, rfl⟩
      · rintro ⟨texts, each, rfl⟩
        cases each with
        | cons marked each =>
            rw [renderMarkedString_iff.mpr marked]
            exact ih.mpr ⟨_, each, rfl⟩

theorem renderEntries_code {first : Bool} (refused : renderEntries first joined entries = .error e) : e.code = malformedResponse := by
  induction entries generalizing first joined with
  | nil => cases refused
  | cons entry entries ih =>
      unfold renderEntries at refused
      cases marked : renderMarkedString entry with
      | error e' =>
          rw [marked] at refused
          cases refused
          exact renderMarkedString_code marked
      | ok own =>
          rw [marked] at refused
          exact ih refused

theorem renderArray_iff : renderEntries true "" entries = .ok text ↔
    ∃ texts, List.Forall₂ IsMarked entries texts ∧ text = String.intercalate "\n\n" texts := by
  cases entries with
  | nil =>
      constructor
      · intro done
        cases done
        exact ⟨[], .nil, rfl⟩
      · rintro ⟨texts, each, rfl⟩
        cases each
        rfl
  | cons entry entries =>
      unfold renderEntries
      rw [if_pos rfl]
      constructor
      · intro rendered
        cases marked : renderMarkedString entry with
        | error e =>
            rw [marked] at rendered
            cases rendered
        | ok own =>
            rw [marked] at rendered
            obtain ⟨texts, each, rfl⟩ := renderEntries_iff.mp rendered
            refine ⟨own :: texts, .cons (renderMarkedString_iff.mp marked) each, ?_⟩
            rw [String.empty_append]
      · rintro ⟨texts, each, rfl⟩
        cases each with
        | cons marked each =>
            rw [renderMarkedString_iff.mpr marked]
            refine renderEntries_iff.mpr ⟨_, each, ?_⟩
            rw [String.empty_append]

theorem renderHoverContents_iff : renderHoverContents contents = .ok text ↔ Renders contents text := by
  constructor
  · intro rendered
    cases contents with
    | str own =>
        cases rendered
        exact .text
    | arr entries =>
        obtain ⟨texts, each, rfl⟩ := renderArray_iff.mp rendered
        exact .entries each
    | obj o =>
        unfold renderHoverContents at rendered
        dsimp only at rendered
        split at rendered
        · next kind =>
            split at rendered
            · cases rendered
            · next own value =>
                cases rendered
                exact .markup kind value
        · next other => exact .marked other (renderMarkedString_iff.mp rendered)
    | _ => cases rendered
  · rintro (_ | each | ⟨kind, value⟩ | ⟨other, marked⟩)
    · rfl
    · exact renderArray_iff.mpr ⟨_, each, rfl⟩
    · unfold renderHoverContents
      dsimp only
      rw [if_pos (show _ ∨ _ from kind), value]
    · unfold renderHoverContents
      dsimp only
      rw [if_neg (show ¬ (_ ∨ _) from other)]
      exact renderMarkedString_iff.mpr marked

theorem renderHoverContents_code (refused : renderHoverContents contents = .error e) : e.code = malformedResponse := by
  cases contents with
  | str own => cases refused
  | arr entries => exact renderEntries_code refused
  | obj o =>
      unfold renderHoverContents at refused
      dsimp only at refused
      split at refused
      · split at refused
        · exact malformed_code refused
        · cases refused
      · exact renderMarkedString_code refused
  | _ => exact malformed_code refused

end

/-- The range of a hover is the one that the payload spells, or there is none. -/
def RangeExact (o : Json.Members) (range : Option LspRange) : Prop :=
  Json.find? o "range" = none ∧ range = none ∨
    ∃ value r, Json.find? o "range" = some value ∧ range = some r ∧ Spells value r.numbers

/-- A hover result is refused as malformed, or is nothing for a null payload or empty contents, or has the text of the
contents with the range of the payload. -/
def HoverExact (payload : Json) : Prop := Refuses (normalizeHover payload) ∨
  normalizeHover payload = .ok none ∧
    (payload = .null ∨ ∃ o contents, payload = .obj o ∧ Json.find? o "contents" = some contents ∧ Renders contents "") ∨
  ∃ o contents hover, payload = .obj o ∧ Json.find? o "contents" = some contents ∧ normalizeHover payload = .ok (some hover) ∧
    Renders contents hover.contents ∧ hover.contents ≠ "" ∧ RangeExact o hover.range

/-- Where there is a text, every number of the range is a position. -/
def HoverFits (payload : Json) : Prop := ∀ o contents text value n, payload = .obj o → Json.find? o "contents" = some contents →
  Renders contents text → text ≠ "" → Json.find? o "range" = some value → Spells value n → n.Small

theorem Renders.unique {contents : Json} {text text' : String} (h : Renders contents text) (h' : Renders contents text') : text = text' :=
  Except.ok.inj ((renderHoverContents_iff.mpr h).symm.trans (renderHoverContents_iff.mpr h'))

section
variable {o : Json.Members} {contents : Json} {text : String}

theorem hover_refused (found : Json.find? o "contents" = some contents) {e : LspError}
    (refused : renderHoverContents contents = .error e) : normalizeHover (.obj o) = .error e := by
  unfold normalizeHover
  dsimp only
  rw [found]
  dsimp only
  rw [refused]
  rfl

theorem hover_empty (found : Json.find? o "contents" = some contents) (renders : Renders contents "") :
    normalizeHover (.obj o) = .ok none := by
  unfold normalizeHover
  dsimp only
  rw [found]
  dsimp only
  rw [renderHoverContents_iff.mpr renders]
  rfl

theorem hover_plain (found : Json.find? o "contents" = some contents) (renders : Renders contents text) (solid : text ≠ "")
    (bare : Json.find? o "range" = none) : normalizeHover (.obj o) = .ok (some { contents := text }) := by
  unfold normalizeHover
  dsimp only
  rw [found]
  dsimp only
  rw [renderHoverContents_iff.mpr renders, bare]
  exact if_neg fun empty => solid (String.isEmpty_iff.mp empty)

theorem hover_ranged (found : Json.find? o "contents" = some contents) (renders : Renders contents text) (solid : text ≠ "")
    {value : Json} (ranged : Json.find? o "range" = some value) :
    parseRange value = none ∧ Refuses (normalizeHover (.obj o)) ∨
      ∃ r, parseRange value = some r ∧ normalizeHover (.obj o) = .ok (some { contents := text, range := some r }) := by
  have filled : ¬ text.isEmpty = true := fun empty => solid (String.isEmpty_iff.mp empty)
  unfold normalizeHover
  dsimp only
  rw [found]
  dsimp only
  rw [renderHoverContents_iff.mpr renders, ranged]
  cases parsed : parseRange value with
  | none =>
      refine .inl ⟨rfl, { message := "LSP hover result contained a malformed range", code := malformedResponse }, ?_, rfl⟩
      dsimp only [Bind.bind, Except.bind]
      rw [if_neg filled, parsed]
      rfl
  | some r =>
      refine .inr ⟨r, rfl, ?_⟩
      dsimp only [Bind.bind, Except.bind]
      rw [if_neg filled, parsed]
      rfl

/-- A hover of an object with a text. -/
theorem hover_object (found : Json.find? o "contents" = some contents) (renders : Renders contents text) (solid : text ≠ "") :
    HoverExact (.obj o) ↔ HoverFits (.obj o) := by
  cases ranged : Json.find? o "range" with
  | none =>
      refine iff_of_true (.inr (.inr ⟨o, contents, _, rfl, found, hover_plain found renders solid ranged, renders, solid,
        .inl ⟨ranged, rfl⟩⟩)) ?_
      rintro _ contents' text' value n ⟨⟩ found' - - ranged' -
      cases ranged.symm.trans ranged'
  | some value =>
      rcases hover_ranged found renders solid ranged with ⟨unparsed, refused⟩ | ⟨r, parsed, done⟩
      · refine iff_of_true (.inl refused) ?_
        rintro _ contents' text' value' n ⟨⟩ found' - - ranged' spelled
        cases ranged.symm.trans ranged'
        exact absurd spelled (parseRange_none unparsed n)
      · obtain ⟨n, spelled, rfl⟩ := parseRange_iff.mp parsed
        constructor
        · intro exactly
          rintro _ contents' text' value' n' ⟨⟩ found' - - ranged' spelled'
          cases ranged.symm.trans ranged'
          obtain rfl := spelled.unique spelled'
          rcases exactly with ⟨e, refused, -⟩ | ⟨nothing, -⟩ | ⟨_, contents, hover, ⟨⟩, -, shown, -, -, range⟩
          · cases done.symm.trans refused
          · cases done.symm.trans nothing
          · cases done.symm.trans shown
            rcases range with ⟨bare, -⟩ | ⟨value', r, here, ⟨⟩, own⟩
            · cases ranged.symm.trans bare
            · cases ranged.symm.trans here
              exact reduced_numbers_iff.mp (own.unique spelled)
        · intro fit
          have same := reduced_numbers_iff.mpr (fit o contents text value n rfl found renders solid ranged spelled)
          exact .inr (.inr ⟨o, contents, _, rfl, found, done, renders, solid,
            .inr ⟨value, _, ranged, rfl, same.symm ▸ spelled⟩⟩)

end

theorem hover_exact_iff (payload : Json) : HoverExact payload ↔ HoverFits payload := by
  cases payload with
  | null =>
      refine iff_of_true (.inr (.inl ⟨rfl, .inl rfl⟩)) ?_
      rintro o contents text value n ⟨⟩
  | obj o =>
      cases found : Json.find? o "contents" with
      | none =>
          refine iff_of_true (.inl ⟨{ message := "LSP hover result had no contents", code := malformedResponse }, ?_, rfl⟩) ?_
          · unfold normalizeHover
            dsimp only
            rw [found]
            rfl
          · rintro _ contents text value n ⟨⟩ found'
            cases found.symm.trans found'
      | some contents =>
          cases rendered : renderHoverContents contents with
          | error e =>
              refine iff_of_true (.inl ⟨e, hover_refused found rendered, renderHoverContents_code rendered⟩) ?_
              rintro _ contents' text value n ⟨⟩ found' renders
              cases found.symm.trans found'
              cases rendered.symm.trans (renderHoverContents_iff.mpr renders)
          | ok text =>
              have renders := renderHoverContents_iff.mp rendered
              by_cases solid : text = ""
              · subst solid
                refine iff_of_true (.inr (.inl ⟨hover_empty found renders, .inr ⟨o, contents, rfl, found, renders⟩⟩)) ?_
                rintro _ contents' text value n ⟨⟩ found' renders' solid
                cases found.symm.trans found'
                exact absurd (renders'.unique renders) solid
              · exact hover_object found renders solid
  | _ =>
      refine iff_of_true (.inl ⟨_, rfl, rfl⟩) ?_
      rintro o contents text value n ⟨⟩

end

/-- A navigation result and a hover result are refused as malformed or come out exactly, just when every number of a range
that is read is below 2^32. -/
theorem normalize_exact_iff (payload : Json) : (LocationsExact payload ↔ LocationsFit payload) ∧
    (HoverExact payload ↔ HoverFits payload) := ⟨locations_exact_iff payload, hover_exact_iff payload⟩

/-- A location on the line 2^32. -/
def farLocation : Json :=
  .obj [("uri", .str "file:///a"), ("range", .obj [
    ("start", .obj [("line", .int (2 ^ 32)), ("character", .int 0)]), ("end", .obj [("line", .int (2 ^ 32)), ("character", .int 1)])])]

/-- It comes out on the first line. -/
theorem normalize_reduces : normalizeLocations farLocation =
      .ok [{ uri := "file:///a", range := { start := { line := 0, character := 0 }, stop := { line := 0, character := 1 } } }] ∧
    ¬ LocationsExact farLocation := by
  refine ⟨rfl, fun exactly => ?_⟩
  have read : Reads farLocation "file:///a" ⟨2 ^ 32, 0, 2 ^ 32, 1⟩ := by
    refine ⟨_, _, rfl, .inr ⟨.inl rfl, rfl, rfl⟩, _, _, _, rfl, rfl, rfl, ⟨_, rfl, rfl, rfl⟩, ⟨_, rfl, rfl, rfl⟩⟩
  have fit := (locations_exact_iff farLocation).mp exactly
  have small := fit (fun element member => ?_) farLocation List.mem_cons_self _ _ read
  · exact absurd small.startLine (by decide)
  · rw [List.mem_singleton.mp member]
    exact ⟨_, _, read⟩

end Araya.Lsp
