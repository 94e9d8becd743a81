import Araya.Llm.Sse
import Araya.Util.Cut
import Araya.Util.Lists
import Araya.Util.Utf8

/-!
The interpolation of prompt texts. The loop searches for an opening mark and for a closing one behind it, from offset
to offset. The parts of a text are told apart from it: a reference reaches from the first opening mark to the first
closing one behind it, and what has no such pair is prose.
-/

namespace Araya.SystemPrompt
open Llm (Bytes)
open Utf8 (bytes)

/-- The prompt variables of an assembly; one may be known and have no value. -/
abbrev Variables := List (Bytes × Option Bytes)

def isLower (c : UInt8) : Bool := 'a'.toUInt8 ≤ c && c ≤ 'z'.toUInt8

/-- `is_variable_name`. -/
def isVariableName (name : Bytes) : Bool :=
  name.head?.any isLower &&
    name.all fun c => isLower c || ('0'.toUInt8 ≤ c && c ≤ '9'.toUInt8) || c == '_'.toUInt8

def opens : Bytes := bytes "\x7b\x7b"

def closes : Bytes := bytes "\x7d\x7d"

def braces : Bytes := bytes "\x7b\x7d"

def substr (text : Bytes) (pos count : Nat) : Bytes := (text.drop pos).take count

section
variable (text : Bytes) (vars : Variables) (kind name : Bytes)

def quoted (text : Bytes) : Bytes := bytes "\"" ++ text ++ bytes "\""

/-- The value of a closed reference, which opens at `i`. -/
def valueOf (i : Nat) (inner : Bytes) : Except Bytes Bytes :=
  if inner.any braces.contains then
    .error (bytes "malformed prompt variable reference at \"" ++ substr text i 16 ++ bytes "…\" in " ++ kind ++
      bytes " " ++ quoted name)
  else if !isVariableName inner then
    .error (bytes "malformed prompt variable reference " ++ quoted (opens ++ inner ++ closes) ++ bytes " in " ++ kind ++
      bytes " " ++ quoted name)
  else
    match vars.lookup inner with
    | none =>
      .error (bytes "unknown prompt variable " ++ quoted (opens ++ inner ++ closes) ++ bytes " in " ++ kind ++
        bytes " " ++ quoted name)
    | some none =>
      .error (bytes "prompt variable " ++ quoted (opens ++ inner ++ closes) ++
        bytes " has no value for this assembly (" ++ kind ++ bytes " " ++ quoted name ++ bytes ")")
    | some (some value) => .ok value

/-- The loop of `interpolate`: `last` is how far the text is in the result. -/
def interpolateFrom (result : Bytes) (last : Nat) : Except Bytes Bytes :=
  match _ : findFrom opens text last with
  | none => .ok (result ++ text.drop last)
  | some i =>
    match _ : findFrom closes text (i + 2) with
    | none => interpolateFrom (result ++ substr text last (i + 2 - last)) (i + 2)
    | some j =>
      match valueOf text vars kind name i (substr text (i + 2) (j - (i + 2))) with
      | .error what => .error what
      | .ok value => interpolateFrom (result ++ substr text last (i - last) ++ value) (j + 2)
termination_by text.length - last
decreasing_by
  all_goals
    have opened := (findFrom_some ‹findFrom opens text last = some i›).2.1.length_le
    have later := (findFrom_some ‹findFrom opens text last = some i›).1
    rw [List.length_drop] at opened
    have size : opens.length = 2 := by decide
  · omega
  · have after := (findFrom_some ‹findFrom closes text (i + 2) = some j›).1
    have closed := (findFrom_some ‹findFrom closes text (i + 2) = some j›).2.1.length_le
    rw [List.length_drop] at closed
    have size' : closes.length = 2 := by decide
    omega

def interpolate : Except Bytes Bytes := interpolateFrom text vars kind name [] 0

end

/-! The parts of a text -/

inductive Part where
  | prose (text : Bytes)
  | reference (inner : Bytes)

/-- The first opening mark, and the first closing one behind it, make a reference; where one of the two is missing, all
is prose. -/
inductive Template : Bytes → List Part → Prop
  | prose {text : Bytes} : (∀ front back, cut opens text = some (front, back) → cut closes back = none) →
      Template text [.prose text]
  | reference {text front back inner rest : Bytes} {parts : List Part} : cut opens text = some (front, back) →
      cut closes back = some (inner, rest) → Template rest parts →
        Template text (.prose front :: .reference inner :: parts)

def Part.source : Part → Bytes
  | .prose text => text
  | .reference inner => opens ++ (inner ++ closes)

def references (parts : List Part) : List Bytes :=
  parts.filterMap fun
    | .prose _ => none
    | .reference inner => some inner

section
variable (vars : Variables)

/-- The reference is malformed, unknown or without a value. -/
def Faulty (inner : Bytes) : Prop :=
  isVariableName inner = false ∨ vars.lookup inner = none ∨ vars.lookup inner = some none

def Part.filled : Part → Bytes
  | .prose text => text
  | .reference inner => ((vars.lookup inner).bind id).getD []

end

theorem template_source {text : Bytes} {parts : List Part} (h : Template text parts) : parts.flatMap Part.source = text := by
  induction h with
  | prose _ => exact List.append_nil _
  | reference opened closed _ ih =>
      rw [cut_eq opened, cut_eq closed, List.flatMap_cons, List.flatMap_cons, ih, Part.source, Part.source,
        List.append_assoc, List.append_assoc]

theorem template_unique {text : Bytes} {parts other : List Part} (h : Template text parts) (h' : Template text other) :
    other = parts := by
  induction h generalizing other with
  | prose none =>
      cases h' with
      | prose _ => rfl
      | reference opened closed _ => exact absurd ((none _ _ opened).symm.trans closed) (Option.some_ne_none _).symm
  | reference opened closed _ ih =>
      cases h' with
      | prose none => exact absurd ((none _ _ opened).symm.trans closed) (Option.some_ne_none _).symm
      | reference opened' closed' rest =>
          cases opened.symm.trans opened'
          cases closed.symm.trans closed'
          rw [ih rest]

theorem template_exists (text : Bytes) : ∃ parts, Template text parts := by
  induction size : text.length using Nat.strong_induction_on generalizing text with
  | _ n ih =>
      cases opened : cut opens text with
      | none => exact ⟨_, .prose fun front back found => absurd (opened.symm.trans found) (Option.some_ne_none _).symm⟩
      | some halves =>
          obtain ⟨front, back⟩ := halves
          cases closed : cut closes back with
          | none =>
              refine ⟨_, .prose fun front' back' found => ?_⟩
              cases opened.symm.trans found
              exact closed
          | some halves =>
              obtain ⟨inner, rest⟩ := halves
              have before := cut_length opened
              have behind := cut_length closed
              have mark : opens.length = 2 := by decide
              obtain ⟨parts, h⟩ := ih rest.length (by omega) rest rfl
              exact ⟨_, .reference opened closed h⟩

/-! One turn of the loop -/

section
variable {text : Bytes} {vars : Variables} {kind name result : Bytes} {last i j : Nat} {inner : Bytes}

/-- A variable name has no braces. -/
theorem braced (name : Bytes) (h : name.any braces.contains = true) : isVariableName name = false := by
  obtain ⟨c, member, brace⟩ := List.any_eq_true.mp h
  refine Bool.eq_false_iff.mpr fun valid => ?_
  have allowed := List.all_eq_true.mp (Bool.and_eq_true_iff.mp valid).2 c member
  have listed : braces = ['{'.toUInt8, '}'.toUInt8] := by decide
  rw [listed, List.contains_iff_mem, List.mem_cons, List.mem_singleton] at brace
  rcases brace with rfl | rfl <;> exact absurd allowed (by decide)

theorem valueOf_ok {value : Bytes} (h : valueOf text vars kind name i inner = .ok value) :
    ¬ Faulty vars inner ∧ (Part.reference inner).filled vars = value := by
  unfold valueOf at h
  split at h
  · cases h
  · split at h
    · cases h
    · next valid =>
        have named : isVariableName inner = true := by simpa using valid
        split at h
        · cases h
        · cases h
        · next found =>
            cases h
            refine ⟨?_, by rw [Part.filled, found]; rfl⟩
            rintro (malformed | unknown | empty)
            · exact absurd (named.symm.trans malformed) Bool.noConfusion
            · exact absurd (found.symm.trans unknown) (Option.some_ne_none _)
            · exact absurd (Option.some.inj (found.symm.trans empty)) (Option.some_ne_none _)

theorem valueOf_error {what : Bytes} (h : valueOf text vars kind name i inner = .error what) : Faulty vars inner := by
  unfold valueOf at h
  split at h
  · next brace => exact .inl (braced inner brace)
  · split at h
    · next invalid => exact .inl (by simpa using invalid)
    · split at h
      · next unknown => exact .inr (.inl unknown)
      · next empty => exact .inr (.inr empty)
      · cases h

/-- What an offset of the search says about the text behind the last one. -/
theorem findFrom_cut {mark : Bytes} (found : findFrom mark text last = some i) :
    cut mark (text.drop last) = some (substr text last (i - last), text.drop (i + mark.length)) := by
  obtain ⟨⟨front, back⟩, here, rfl⟩ := Option.map_eq_some_iff.mp found
  have whole := cut_eq here
  rw [here, substr, Nat.add_sub_cancel_left, whole, List.take_left, Nat.add_assoc, ← List.drop_drop, whole,
    ← List.append_assoc, ← List.length_append, List.drop_left]

theorem findFrom_uncut {mark : Bytes} (absent : findFrom mark text last = none) : cut mark (text.drop last) = none :=
  Option.map_eq_none_iff.mp absent

/-- The text behind an offset begins with what is copied. -/
theorem substr_drop (later : last ≤ i) : substr text last (i - last) ++ text.drop i = text.drop last := by
  have far : text.drop i = (text.drop last).drop (i - last) := by rw [List.drop_drop, Nat.add_sub_cancel' later]
  rw [far]
  exact List.take_append_drop _ _

theorem interpolateFrom_plain (absent : findFrom opens text last = none) :
    interpolateFrom text vars kind name result last = .ok (result ++ text.drop last) := by
  rw [interpolateFrom]
  split
  · rfl
  · next other => exact absurd (other.symm.trans absent) (Option.some_ne_none _)

theorem interpolateFrom_unclosed (opened : findFrom opens text last = some i)
    (absent : findFrom closes text (i + 2) = none) : interpolateFrom text vars kind name result last =
      interpolateFrom text vars kind name (result ++ substr text last (i + 2 - last)) (i + 2) := by
  rw [interpolateFrom]
  split
  · next other => exact absurd (opened.symm.trans other) (Option.some_ne_none _)
  · next i' other =>
      cases other.symm.trans opened
      split
      · rfl
      · next other => exact absurd (other.symm.trans absent) (Option.some_ne_none _)

theorem interpolateFrom_closed (opened : findFrom opens text last = some i)
    (closed : findFrom closes text (i + 2) = some j) : interpolateFrom text vars kind name result last =
      match valueOf text vars kind name i (substr text (i + 2) (j - (i + 2))) with
      | .error what => .error what
      | .ok value => interpolateFrom text vars kind name (result ++ substr text last (i - last) ++ value) (j + 2) := by
  rw [interpolateFrom]
  split
  · next other => exact absurd (opened.symm.trans other) (Option.some_ne_none _)
  · next i' other =>
      cases other.symm.trans opened
      split
      · next other => exact absurd (closed.symm.trans other) (Option.some_ne_none _)
      · next j' other =>
          cases other.symm.trans closed
          rfl

end

/-- Two offsets of the search are the first reference of what is left of the text. -/
theorem template_closed {text : Bytes} {last i j : Nat} {parts : List Part} (opened : findFrom opens text last = some i)
    (closed : findFrom closes text (i + 2) = some j) (h : Template (text.drop last) parts) :
    ∃ rest, Template (text.drop (j + 2)) rest ∧
      parts = .prose (substr text last (i - last)) :: .reference (substr text (i + 2) (j - (i + 2))) :: rest := by
  have front := findFrom_cut opened
  have back := findFrom_cut closed
  rw [show opens.length = 2 by decide] at front
  rw [show closes.length = 2 by decide] at back
  cases h with
  | prose none => exact absurd ((none _ _ front).symm.trans back) (Option.some_ne_none _).symm
  | reference opened' closed' rest =>
      cases front.symm.trans opened'
      cases back.symm.trans closed'
      exact ⟨_, rest, rfl⟩

/-- The loop fills in what is left of the text, or it meets a reference that is at fault. -/
theorem interpolateFrom_template {text : Bytes} (vars : Variables) (kind name result : Bytes) (last : Nat)
    {parts : List Part} (h : Template (text.drop last) parts) :
    ((∀ inner ∈ references parts, ¬ Faulty vars inner) →
      interpolateFrom text vars kind name result last = .ok (result ++ parts.flatMap (Part.filled vars))) ∧
    ((∃ inner ∈ references parts, Faulty vars inner) →
      ∃ what, interpolateFrom text vars kind name result last = .error what) := by
  induction result, last using interpolateFrom.induct text vars kind name generalizing parts with
  | case1 result last absent =>
      cases h with
      | prose none =>
          rw [interpolateFrom_plain absent]
          refine ⟨fun _ => by simp [Part.filled], ?_⟩
          rintro ⟨inner, member, _⟩
          exact absurd member List.not_mem_nil
      | reference opened closed rest =>
          exact absurd (opened.symm.trans (findFrom_uncut absent)) (Option.some_ne_none _)
  | case2 result last i opened absent ih =>
      have front := findFrom_cut opened
      rw [show opens.length = 2 by decide] at front
      cases h with
      | prose none =>
          rw [interpolateFrom_unclosed opened absent]
          have later := (findFrom_some opened).1
          have prose : Template (text.drop (i + 2)) [.prose (text.drop (i + 2))] := by
            refine .prose fun front' back' found => ?_
            rw [cut_none (by decide)]
            intro inside
            have outside := (cut_none (by decide)).mp (findFrom_uncut absent)
            rw [cut_eq found] at outside
            exact outside (inside.trans ((List.suffix_append _ _).trans (List.suffix_append _ _)).isInfix)
          obtain ⟨good, bad⟩ := ih prose
          refine ⟨fun valued => ?_, fun faulty => bad faulty⟩
          rw [good valued]
          simp only [List.flatMap_cons, List.flatMap_nil, List.append_nil, Part.filled, List.append_assoc]
          rw [substr_drop (by omega)]
      | reference opened' closed rest =>
          cases front.symm.trans opened'
          exact absurd (closed.symm.trans (findFrom_uncut absent)) (Option.some_ne_none _)
  | case3 result last i opened j closed what faulty =>
      obtain ⟨rest, _, rfl⟩ := template_closed opened closed h
      rw [interpolateFrom_closed opened closed, faulty]
      exact ⟨fun valued => absurd (valueOf_error faulty) (valued _ List.mem_cons_self), fun _ => ⟨what, rfl⟩⟩
  | case4 result last i opened j closed value filled ih =>
      obtain ⟨rest, behind, rfl⟩ := template_closed opened closed h
      obtain ⟨sound, given⟩ := valueOf_ok filled
      obtain ⟨good, bad⟩ := ih behind
      rw [interpolateFrom_closed opened closed, filled]
      refine ⟨fun valued => ?_, ?_⟩
      · dsimp only
        rw [good fun inner later => valued inner (List.mem_cons_of_mem _ later), List.flatMap_cons, List.flatMap_cons,
          given, List.append_assoc, List.append_assoc]
        rfl
      · rintro ⟨inner, member, faulty⟩
        rcases List.mem_cons.mp member with rfl | later
        · exact absurd faulty sound
        · exact bad ⟨inner, later, faulty⟩

/-- The references of a text are replaced by their values and the prose stays; it fails where a reference is at fault. -/
theorem interpolate_template {text : Bytes} {parts : List Part} (h : Template text parts) (vars : Variables)
    (kind name : Bytes) :
    (∀ result, interpolate text vars kind name = .ok result ↔
      (∀ inner ∈ references parts, ¬ Faulty vars inner) ∧ result = parts.flatMap (Part.filled vars)) ∧
    ((∃ what, interpolate text vars kind name = .error what) ↔ ∃ inner ∈ references parts, Faulty vars inner) := by
  obtain ⟨good, bad⟩ := interpolateFrom_template vars kind name [] 0 h
  rw [List.nil_append] at good
  refine ⟨fun result => ?_, ?_⟩
  · constructor
    · intro returns
      have valued : ∀ inner ∈ references parts, ¬ Faulty vars inner := by
        intro inner member faulty
        obtain ⟨what, failed⟩ := bad ⟨inner, member, faulty⟩
        cases returns.symm.trans failed
      exact ⟨valued, Except.ok.inj (returns.symm.trans (good valued))⟩
    · rintro ⟨valued, rfl⟩
      exact good valued
  · refine ⟨fun ⟨what, failed⟩ => ?_, bad⟩
    by_contra none
    have valued : ∀ inner ∈ references parts, ¬ Faulty vars inner :=
      fun inner member faulty => none ⟨inner, member, faulty⟩
    cases failed.symm.trans (good valued)

/-- Every text has its parts, which are the text again; its references are replaced by their values and the prose stays,
and it fails for a reference that is malformed, unknown or without a value, and for no other reason. -/
theorem interpolate_exact (text : Bytes) (vars : Variables) (kind name : Bytes) : ∃ parts, Template text parts ∧
    (∀ other, Template text other → other = parts) ∧ parts.flatMap Part.source = text ∧
    (∀ result, interpolate text vars kind name = .ok result ↔
      (∀ inner ∈ references parts, ¬ Faulty vars inner) ∧ result = parts.flatMap (Part.filled vars)) ∧
    ((∃ what, interpolate text vars kind name = .error what) ↔ ∃ inner ∈ references parts, Faulty vars inner) := by
  obtain ⟨parts, h⟩ := template_exists text
  exact ⟨parts, h, fun other => template_unique h, template_source h, interpolate_template h vars kind name⟩

/-! Rendering an assembly -/

structure AssembledSection where
  name : Bytes
  text : Bytes
  interpolate : Bool := true

structure AssembledContext where
  name : Bytes
  text : Bytes

def blankLine : Bytes := bytes "\n\n"

/-- A text joins what is there already, unless it is empty. -/
def joined (out text : Bytes) : Bytes :=
  if text.isEmpty then out else if out.isEmpty then text else out ++ blankLine ++ text

section
variable {α : Type*} (render : α → Except Bytes Bytes)

/-- The loop of both renderings. -/
def renderAll (out : Bytes) : List α → Except Bytes Bytes
  | [] => .ok out
  | item :: items =>
    match render item with
    | .error what => .error what
    | .ok text => renderAll (joined out text) items

end

section
variable (vars : Variables)

def AssembledSection.render (part : AssembledSection) : Except Bytes Bytes :=
  if part.interpolate then Araya.SystemPrompt.interpolate part.text vars (bytes "section") part.name else .ok part.text

def AssembledContext.render (part : AssembledContext) : Except Bytes Bytes :=
  interpolate part.text vars (bytes "context") part.name

def renderPrompt (sections : List AssembledSection) : Except Bytes Bytes :=
  renderAll (AssembledSection.render vars) [] sections

/-- The body of a snapshot under its header; there is no snapshot without a body. -/
def headed (body : Bytes) : Bytes :=
  if body.isEmpty then []
  else bytes "Current runtime context. This snapshot supersedes earlier runtime-context snapshots.\n\n" ++ body

def renderContextSnapshot (contexts : List AssembledContext) : Except Bytes Bytes :=
  match renderAll (AssembledContext.render vars) [] contexts with
  | .error what => .error what
  | .ok body => .ok (headed body)

end

theorem joined_nil (out : Bytes) : joined out [] = out := rfl

theorem nil_joined (text : Bytes) : joined [] text = text := by
  unfold joined
  split
  · next empty => exact (List.isEmpty_iff.mp empty).symm
  · rfl

theorem foldl_joined_cons {out : Bytes} (some : out ≠ []) (texts : List Bytes) :
    texts.foldl joined out = out ++ (texts.filter (· ≠ [])).flatMap (blankLine ++ ·) := by
  induction texts generalizing out with
  | nil => exact (List.append_nil _).symm
  | cons text texts ih =>
      by_cases empty : text = []
      · rw [List.foldl_cons, empty, joined_nil, ih some, List.filter_cons_of_neg (by simp)]
      · have longer : joined out text = out ++ blankLine ++ text := by
          rw [joined, if_neg (by simpa using empty), if_neg (by simpa using some)]
        rw [List.foldl_cons, longer, ih (by simp [empty]), List.filter_cons_of_pos (by simpa using empty), List.flatMap_cons,
          List.append_assoc, List.append_assoc, List.append_assoc]

/-- The texts that are not empty stand apart by blank lines. -/
theorem foldl_joined (texts : List Bytes) :
    texts.foldl joined [] = List.intercalate blankLine (texts.filter (· ≠ [])) := by
  induction texts with
  | nil => rfl
  | cons text texts ih =>
      rw [List.foldl_cons, nil_joined]
      by_cases empty : text = []
      · rw [empty, ih, List.filter_cons_of_neg (by simp)]
      · rw [foldl_joined_cons empty, List.filter_cons_of_pos (by simpa using empty), intercalate_cons]

section
variable {α : Type*} {render : α → Except Bytes Bytes}

theorem renderAll_ok {items : List α} {out result : Bytes} : renderAll render out items = .ok result ↔
    ∃ texts : List Bytes, items.map render = texts.map .ok ∧ result = texts.foldl joined out := by
  induction items generalizing out with
  | nil =>
      constructor
      · intro h
        cases h
        exact ⟨[], rfl, rfl⟩
      · rintro ⟨texts, same, rfl⟩
        rw [List.map_eq_nil_iff.mp same.symm]
        rfl
  | cons item items ih =>
      unfold renderAll
      cases rendered : render item with
      | error what =>
          refine iff_of_false nofun ?_
          rintro ⟨texts, same, _⟩
          cases texts with
          | nil => cases same
          | cons text texts =>
              rw [List.map_cons, List.map_cons, rendered] at same
              cases (List.cons.inj same).1
      | ok text =>
          refine ih.trans ⟨?_, ?_⟩
          · rintro ⟨texts, same, rfl⟩
            exact ⟨text :: texts, by rw [List.map_cons, List.map_cons, rendered, same], rfl⟩
          · rintro ⟨texts, same, rfl⟩
            cases texts with
            | nil => cases same
            | cons text' texts =>
                rw [List.map_cons, List.map_cons, rendered] at same
                obtain ⟨first, rest⟩ := List.cons.inj same
                cases first
                exact ⟨texts, rest, rfl⟩

theorem renderAll_error {items : List α} {out : Bytes} : (∃ what, renderAll render out items = .error what) ↔
    ∃ item ∈ items, ∃ what, render item = .error what := by
  induction items generalizing out with
  | nil => exact iff_of_false (by rintro ⟨what, h⟩; cases h) (by rintro ⟨item, member, _⟩; cases member)
  | cons item items ih =>
      unfold renderAll
      cases rendered : render item with
      | error what => exact iff_of_true ⟨what, rfl⟩ ⟨item, List.mem_cons_self, what, rendered⟩
      | ok text =>
          refine ih.trans ⟨?_, ?_⟩
          · rintro ⟨item, member, failed⟩
            exact ⟨item, List.mem_cons_of_mem _ member, failed⟩
          · rintro ⟨item', member, what, failed⟩
            rcases List.mem_cons.mp member with rfl | later
            · cases rendered.symm.trans failed
            · exact ⟨item', later, what, failed⟩

end

/-- Some reference of the text is at fault. -/
def Broken (vars : Variables) (text : Bytes) : Prop :=
  ∃ parts, Template text parts ∧ ∃ inner ∈ references parts, Faulty vars inner

theorem interpolate_broken (text : Bytes) (vars : Variables) (kind name : Bytes) :
    (∃ what, interpolate text vars kind name = .error what) ↔ Broken vars text := by
  obtain ⟨parts, h⟩ := template_exists text
  refine (interpolate_template h vars kind name).2.trans ⟨fun faulty => ⟨parts, h, faulty⟩, ?_⟩
  rintro ⟨other, h', faulty⟩
  exact template_unique h h' ▸ faulty

/-- The prompt has the texts of the sections that are not empty, and there is none where a section that is interpolated
has a reference at fault. -/
theorem renderPrompt_exact (vars : Variables) (sections : List AssembledSection) :
    (∀ result, renderPrompt vars sections = .ok result ↔ ∃ texts : List Bytes,
      sections.map (·.render vars) = texts.map .ok ∧ result = List.intercalate blankLine (texts.filter (· ≠ []))) ∧
    ((∃ what, renderPrompt vars sections = .error what) ↔
      ∃ part ∈ sections, part.interpolate = true ∧ Broken vars part.text) := by
  refine ⟨fun result => ?_, renderAll_error.trans (exists_congr fun part => and_congr_right fun _ => ?_)⟩
  · simp only [← foldl_joined]
    exact renderAll_ok
  · unfold AssembledSection.render
    split
    · next filled => exact (interpolate_broken _ _ _ _).trans (and_iff_right filled).symm
    · next plain => exact iff_of_false (by rintro ⟨what, h⟩; cases h) fun both => plain both.1

/-- A snapshot has the texts of the contexts that are not empty, and there is none where a context has a reference at
fault. -/
theorem renderContextSnapshot_exact (vars : Variables) (contexts : List AssembledContext) :
    (∀ result, renderContextSnapshot vars contexts = .ok result ↔ ∃ texts : List Bytes,
      contexts.map (·.render vars) = texts.map .ok ∧
        result = headed (List.intercalate blankLine (texts.filter (· ≠ [])))) ∧
    ((∃ what, renderContextSnapshot vars contexts = .error what) ↔ ∃ part ∈ contexts, Broken vars part.text) := by
  have failing : (∃ what, renderAll (AssembledContext.render vars) [] contexts = .error what) ↔
      ∃ part ∈ contexts, Broken vars part.text :=
    renderAll_error.trans (exists_congr fun part => and_congr_right fun _ => interpolate_broken _ _ _ _)
  have whole : ∀ body, renderAll (AssembledContext.render vars) [] contexts = .ok body ↔ _ := fun body => renderAll_ok
  simp only [foldl_joined] at whole
  unfold renderContextSnapshot
  cases rendered : renderAll (AssembledContext.render vars) [] contexts with
  | error what =>
      rw [rendered] at failing whole
      refine ⟨fun result => iff_of_false nofun ?_, iff_of_true ⟨what, rfl⟩ (failing.mp ⟨what, rfl⟩)⟩
      rintro ⟨texts, same, rfl⟩
      cases (whole _).mpr ⟨texts, same, rfl⟩
  | ok body =>
      rw [rendered] at failing whole
      refine ⟨fun result => ?_, iff_of_false (by rintro ⟨what, h⟩; cases h) fun broken => ?_⟩
      · constructor
        · intro h
          cases h
          obtain ⟨texts, same, rfl⟩ := (whole body).mp rfl
          exact ⟨texts, same, rfl⟩
        · rintro ⟨texts, same, rfl⟩
          rw [Except.ok.inj ((whole _).mpr ⟨texts, same, rfl⟩)]
      · obtain ⟨what, h⟩ := failing.mpr broken
        cases h

end Araya.SystemPrompt
