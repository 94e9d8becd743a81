import Araya.Llm.Sse
import Araya.Util.Cut
import Araya.Util.Utf8

/-!
The reminder block of the workspace instructions. The escape of closing markers searches what is left of the body from
the offset of the marker before, and passes over a marker that stands nearer.
-/

namespace Araya.Instructions
open Llm (Bytes)
open Utf8 (bytes Encoded)

def closing : Bytes := bytes "</system-reminder>"

def defused : Bytes := bytes "<\\/system-reminder>"

/-- The loop of `escape`. The view of the body shrinks, and the next search starts at the old offset. -/
def escapeFrom (body : Bytes) (start : Nat) : Bytes :=
  match _ : findFrom closing body start with
  | none => body
  | some i => body.take i ++ (defused ++ escapeFrom (body.drop (i + closing.length)) i)
termination_by body.length
decreasing_by
  have place := (findFrom_some ‹_›).2.1.length_le
  rw [List.length_drop] at place ⊢
  have : closing.length = 18 := by decide
  omega

def escape (body : Bytes) : Bytes := escapeFrom body 0

def opening : Bytes := bytes "<system-reminder>\n"

def wrap (body : Bytes) : Bytes := opening ++ escape body ++ bytes "\n</system-reminder>"

/-- Each marker stands at least as far behind the one before it as that one behind its own, the first behind the
start. -/
inductive Widening : Nat → Bytes → Prop
  | none {least : Nat} {body : Bytes} : cut closing body = none → Widening least body
  | some {least : Nat} {body front back : Bytes} : cut closing body = some (front, back) → least ≤ front.length →
      Widening front.length back → Widening least body

section
variable {body front back : Bytes} {start i : Nat}

theorem closing_cons : closing = '<'.toUInt8 :: closing.tail := by decide

theorem closing_once : '<'.toUInt8 ∉ closing.tail := by decide

theorem closing_solid : closing ≠ [] := by decide

theorem escapeFrom_none (found : findFrom closing body start = none) : escapeFrom body start = body := by
  unfold escapeFrom
  split
  · rfl
  · next other => exact absurd (other.symm.trans found) (Option.some_ne_none _)

theorem escapeFrom_some (found : findFrom closing body start = some i) :
    escapeFrom body start = body.take i ++ (defused ++ escapeFrom (body.drop (i + closing.length)) i) := by
  rw [escapeFrom]
  split
  · next other => exact absurd (found.symm.trans other) (Option.some_ne_none _)
  · next j other =>
      obtain rfl := Option.some.inj (other.symm.trans found)
      rfl

/-- The second letter tells a closing marker from another text. -/
theorem not_closing (block : Bytes) (long : 2 ≤ block.length) (other : ¬ closing.take 2 <+: block) (back : Bytes) :
    ¬ closing <+: block ++ back := by
  intro here
  have second := (List.take_prefix 2 closing).trans here
  exact other (List.prefix_of_prefix_length_le second (List.prefix_append block back)
    (Nat.le_trans (List.length_take_le 2 closing) long))

/-- What an escaped marker leaves makes no new one. -/
theorem infix_defused : closing <:+: front ++ (defused ++ back) ↔ closing <:+: front ∨ closing <:+: back := by
  have first : defused = '<'.toUInt8 :: defused.tail := by decide
  have off : '<'.toUInt8 ∉ defused.tail := by decide
  have other : ¬ closing <+: '<'.toUInt8 :: (defused.tail ++ back) :=
    not_closing defused (by decide) (by decide) back
  rw [first, List.cons_append, closing_cons, infix_split closing_once, List.infix_cons_iff, infix_skip off,
    ← closing_cons, or_iff_right other]

theorem widening_iff (found : cut closing body = some (front, back)) {least : Nat} :
    Widening least body ↔ least ≤ front.length ∧ Widening front.length back := by
  constructor
  · intro widening
    cases widening with
    | none absent => exact absurd (found.symm.trans absent) (Option.some_ne_none _)
    | some here far rest =>
        obtain ⟨rfl, rfl⟩ := Prod.mk.inj (Option.some.inj (here.symm.trans found))
        exact ⟨far, rest⟩
  · rintro ⟨far, rest⟩
    exact .some found far rest

theorem escapeFrom_clean (body : Bytes) (start : Nat) :
    ¬ closing <:+: escapeFrom body start ↔ Widening start body := by
  induction body, start using escapeFrom.induct with
  | case1 body start found =>
      rw [escapeFrom_none found, ← cut_none closing_solid]
      refine ⟨.none, ?_⟩
      intro widening
      cases widening with
      | none absent => exact absent
      | some here far _ => exact absurd (cut_place here) ((findFrom_none closing_solid).mp found _ far)
  | case2 body start i found ih =>
      obtain ⟨later, here, least⟩ := findFrom_some found
      rw [escapeFrom_some found, infix_defused, not_or, ih]
      cases first : cut closing body with
      | none => exact absurd here ((cut_none_places closing_solid).mp first i)
      | some halves =>
          obtain ⟨front, back⟩ := halves
          rw [widening_iff first]
          have whole := cut_eq first
          by_cases far : start ≤ front.length
          · have same : i = front.length := Nat.le_antisymm (least _ far (cut_place first)) (cut_least first here)
            have before : body.take i = front := by rw [whole, same, List.take_left]
            have behind : body.drop (i + closing.length) = back := by
              rw [whole, same, ← List.append_assoc, ← List.length_append, List.drop_left]
            rw [before, behind, same]
            exact ⟨fun ⟨_, rest⟩ => ⟨far, rest⟩, fun ⟨_, rest⟩ => ⟨cut_before closing_solid first, rest⟩⟩
          · -- the first marker stands before the search began, and is left in the text
            have place := cut_place first
            rw [closing_cons] at here place
            have apart := places_apart closing_once place here (by omega)
            rw [← closing_cons] at apart
            have kept : closing <:+: body.take i := by
              have fits : front ++ closing <+: body.take i := by
                rw [List.prefix_take_iff, List.length_append, whole, ← List.append_assoc]
                exact ⟨List.prefix_append _ _, apart⟩
              exact (List.suffix_append front closing).isInfix.trans fits.isInfix
            exact ⟨fun ⟨absent, _⟩ => absurd kept absent, fun ⟨near, _⟩ => absurd near far⟩

theorem infix_wrapped : closing <:+: opening ++ (body ++ bytes "\n") ↔ closing <:+: body := by
  have first : opening = '<'.toUInt8 :: opening.tail := by decide
  have off : '<'.toUInt8 ∉ opening.tail := by decide
  have other : ¬ closing <+: '<'.toUInt8 :: (opening.tail ++ (body ++ bytes "\n")) :=
    not_closing opening (by decide) (by decide) _
  have last : ¬ closing <:+ body ++ bytes "\n" := by
    intro here
    have same := List.IsSuffix.getLast here closing_solid
    have newline : (body ++ bytes "\n").getLast (here.ne_nil closing_solid) = '\n'.toUInt8 := by
      rw [List.getLast_append_of_ne_nil _ (by decide)]
      decide
    rw [newline] at same
    exact absurd same (by decide)
  have line : bytes "\n" = ['\n'.toUInt8] := by decide
  rw [first, List.cons_append, closing_cons, List.infix_cons_iff, infix_skip off, ← closing_cons, or_iff_right other,
    line, List.infix_concat_iff, ← line, or_iff_right last]

/-- The block ends at its only closing marker just when the markers of the body stand apart so. -/
theorem wrap_sole_iff (body : Bytes) : Sole closing (wrap body) ↔ Widening 0 body := by
  have tail : bytes "\n</system-reminder>" = bytes "\n" ++ closing := by decide
  unfold wrap escape
  rw [tail, ← List.append_assoc, List.append_assoc opening, ← escapeFrom_clean, ← infix_wrapped]
  generalize opening ++ (escapeFrom body 0 ++ bytes "\n") = block
  rw [closing_cons]
  exact sole_iff closing_once

end

end Araya.Instructions
