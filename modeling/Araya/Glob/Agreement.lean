import Araya.Glob.Compiled
import Araya.Glob.Expansion

/-!
Matching a path, compared with the meaning of the pattern. The search ends at the first alternative that does not compile,
and `**` stops at line breaks; elsewhere the tool and the meaning agree.
-/

namespace Araya.Glob
open Llm (Bytes)
open RegularExpression
open Utf8 (bytes)

/-- The expanded patterns in their order; one that does not compile ends the search. -/
def matchAny (tr : Traits) (target : Bytes) : List Bytes → Bool
  | [] => false
  | one :: more =>
    match compile tr (bytes "^" ++ globFragmentToRegex one ++ bytes "$") with
    | some re => if re.rmatch target then true else matchAny tr target more
    | none => false

def globMatch (tr : Traits) (pattern target : Bytes) : Bool := matchAny tr target (expandBraces pattern)

/-- The target is a text of an alternative of the pattern. -/
def Matches (tr : Traits) (pattern target : Bytes) : Prop :=
  ∃ one ∈ (readBraces pattern).alternatives, target ∈ languageOf tr (fun _ => True) (items one)

/-- An alternative has the target as a text within lines, and neither it nor one in front of it is malformed. -/
def Reached (tr : Traits) (target : Bytes) (patterns : List Bytes) : Prop :=
  ∃ front one back, patterns = front ++ one :: back ∧ (∀ other ∈ front ++ [one], wellFormed tr other = true) ∧
    target ∈ languageOf tr Line (items one)

section
variable {tr : Traits} {pattern target one : Bytes} {more : List Bytes}

theorem reached_cons : Reached tr target (one :: more) ↔
    wellFormed tr one = true ∧ (target ∈ languageOf tr Line (items one) ∨ Reached tr target more) := by
  constructor
  · rintro ⟨front, found, back, whole, good, there⟩
    cases front with
    | nil =>
        cases whole
        exact ⟨good one List.mem_cons_self, .inl there⟩
    | cons first front =>
        cases whole
        exact ⟨good one List.mem_cons_self,
          .inr ⟨front, found, back, rfl, fun other behind => good other (List.mem_cons_of_mem one behind), there⟩⟩
  · rintro ⟨good, there | ⟨front, found, back, rfl, others, there⟩⟩
    · exact ⟨[], one, more, rfl, fun other same => List.mem_singleton.mp same ▸ good, there⟩
    · refine ⟨one :: front, found, back, rfl, fun other behind => ?_, there⟩
      rcases List.mem_cons.mp behind with rfl | behind
      · exact good
      · exact others other behind

theorem matchAny_reached {patterns : List Bytes} (plain : ∀ one ∈ patterns, PlainPattern one) :
    matchAny tr target patterns = true ↔ Reached tr target patterns := by
  induction patterns with
  | nil =>
      refine ⟨fun bad => absurd bad Bool.false_ne_true, ?_⟩
      rintro ⟨front, one, back, whole, -⟩
      exact absurd whole.symm (List.append_ne_nil_of_right_ne_nil front (List.cons_ne_nil one back))
  | cons one more ih =>
      have later := ih fun other there => plain other (List.mem_cons_of_mem one there)
      rw [matchAny, compile_pattern (plain one List.mem_cons_self), reached_cons, ← later]
      cases wellFormed tr one with
      | false => exact iff_of_false Bool.false_ne_true fun bad => Bool.false_ne_true bad.1
      | true =>
          rw [if_pos rfl, ← regexOf_language, ← rmatch_iff_matches', and_iff_right rfl]
          change (if (regexOf tr (items one)).rmatch target then true else matchAny tr target more) = true ↔ _
          split_ifs with found
          · exact iff_of_true rfl (.inl found)
          · rw [or_iff_right found]

theorem globMatch_reached (orderly : (readBraces pattern).Orderly)
    (plain : ∀ one ∈ (readBraces pattern).alternatives, PlainPattern one) :
    globMatch tr pattern target = true ↔ Reached tr target (readBraces pattern).alternatives := by
  rw [globMatch, expandBraces_read orderly, matchAny_reached plain]

theorem Reached.matches (h : Reached tr target (readBraces pattern).alternatives) : Matches tr pattern target := by
  obtain ⟨front, one, back, whole, -, there⟩ := h
  refine ⟨one, ?_, languageOf_mono (fun _ _ => trivial) there⟩
  rw [whole]
  exact List.mem_append_right front List.mem_cons_self

end

/-- No brace without a partner stands in front of a choice, and no class of an alternative begins a name. -/
structure Clean (pattern : Bytes) : Prop where
  orderly : (readBraces pattern).Orderly
  plain : ∀ one ∈ (readBraces pattern).alternatives, PlainPattern one

/-! Within lines -/

/-- Items that may stand for a separator among other characters. -/
def Item.Wild : Item → Prop
  | .wild => True
  | .dirs => True
  | _ => False

section
variable {tr : Traits} {pattern target text : Bytes} {free : UInt8 → Prop}

theorem Item.language_lines (i : Item) (within : (∀ c ∈ text, Line c) ∨ ¬ i.Wild) (h : text ∈ i.language tr free) :
    text ∈ i.language tr Line := by
  cases i with
  | char _ | any | run | set _ _ => exact h
  | wild => exact within.elim id fun tame => absurd trivial tame
  | dirs =>
      rcases h with none | ⟨front, -, rfl⟩
      · exact .inl none
      · rcases within with lines | tame
        · exact .inr ⟨front, fun c there => lines c (List.mem_append_left _ there), rfl⟩
        · exact absurd trivial tame

theorem languageOf_lines {is : List Item} (within : (∀ c ∈ text, Line c) ∨ ∀ i ∈ is, ¬ i.Wild)
    (h : text ∈ languageOf tr free is) : text ∈ languageOf tr Line is := by
  induction is generalizing text with
  | nil => exact h
  | cons i is ih =>
      obtain ⟨front, first, behind, later, rfl⟩ := Language.mem_mul.mp h
      refine Language.mem_mul.mpr ⟨front, i.language_lines ?_ first, behind, ih ?_ later, rfl⟩
      · exact within.imp (fun lines c there => lines c (List.mem_append_left _ there)) fun tame => tame i List.mem_cons_self
      · exact within.imp (fun lines c there => lines c (List.mem_append_right _ there))
          fun tame j there => tame j (List.mem_cons_of_mem i there)

/-- Where every alternative is well formed, a path without line breaks is matched as meant, and so is any path by a
pattern without `**`. -/
theorem globMatch_lines (clean : Clean pattern)
    (good : ∀ one ∈ (readBraces pattern).alternatives, wellFormed tr one = true)
    (within : (∀ c ∈ target, Line c) ∨ ∀ one ∈ (readBraces pattern).alternatives, ∀ i ∈ items one, ¬ i.Wild) :
    globMatch tr pattern target = true ↔ Matches tr pattern target := by
  rw [globMatch_reached clean.orderly clean.plain]
  refine ⟨Reached.matches, ?_⟩
  rintro ⟨one, listed, there⟩
  obtain ⟨front, back, whole⟩ := List.append_of_mem listed
  refine ⟨front, one, back, whole, fun other behind => good other ?_, ?_⟩
  · rw [whole, List.append_cons]
    exact List.mem_append_left back behind
  · exact languageOf_lines (within.imp id fun tame => tame one listed) there

end

end Araya.Glob
