import Mathlib.Computability.RegularExpressions

/-!
Regular expressions whose characters are given as sets: one character of a set, a run of them, and a text that may be left
out.
-/

namespace Araya.Regex

open RegularExpression

section
variable {α : Type*} {cs text : List α}

/-- One character of the list. -/
def oneOf : List α → RegularExpression α
  | [] => 0
  | c :: cs => char c + oneOf cs

def optional (r : RegularExpression α) : RegularExpression α := 1 + r

theorem mem_oneOf : text ∈ (oneOf cs).matches' ↔ ∃ c ∈ cs, text = [c] := by
  induction cs with
  | nil => exact ⟨fun h => absurd h (Set.notMem_empty _), fun ⟨_, there, _⟩ => absurd there List.not_mem_nil⟩
  | cons c cs ih =>
      rw [oneOf, matches'_add, Language.mem_add, ih, List.exists_mem_cons_iff]
      exact Iff.rfl

theorem mem_run : text ∈ (oneOf cs).star.matches' ↔ ∀ c ∈ text, c ∈ cs := by
  rw [matches'_star, Language.mem_kstar]
  constructor
  · intro h c there
    obtain ⟨parts, rfl, each⟩ := h
    obtain ⟨part, listed, inside⟩ := List.mem_flatten.mp there
    obtain ⟨d, known, rfl⟩ := mem_oneOf.mp (each part listed)
    rwa [List.mem_singleton.mp inside]
  · intro h
    refine ⟨text.map fun c => [c], ?_, ?_⟩
    · rw [← List.flatMap_def, List.flatMap_singleton']
    · intro part listed
      obtain ⟨c, there, rfl⟩ := List.mem_map.mp listed
      exact mem_oneOf.mpr ⟨c, h c there, rfl⟩

theorem mem_optional {r : RegularExpression α} : text ∈ (optional r).matches' ↔ text = [] ∨ text ∈ r.matches' := by
  rw [optional, matches'_add, Language.mem_add, matches'_epsilon, Language.mem_one]

end

/-! Bytes -/

def everyByte : List UInt8 := (List.range 256).map UInt8.ofNat

/-- One byte that the test accepts. -/
def byteWith (p : UInt8 → Bool) : RegularExpression UInt8 := oneOf (everyByte.filter p)

section
variable {p : UInt8 → Bool} {text : List UInt8}

theorem mem_everyByte (c : UInt8) : c ∈ everyByte :=
  List.mem_map.mpr ⟨c.toNat, List.mem_range.mpr c.toNat_lt, UInt8.ofNat_toNat⟩

theorem mem_filter_everyByte (c : UInt8) : c ∈ everyByte.filter p ↔ p c = true := by
  rw [List.mem_filter, and_iff_right (mem_everyByte c)]

theorem mem_byteWith : text ∈ (byteWith p).matches' ↔ ∃ c, p c = true ∧ text = [c] := by
  rw [byteWith, mem_oneOf]
  simp only [mem_filter_everyByte]

theorem mem_byteRun : text ∈ (byteWith p).star.matches' ↔ ∀ c ∈ text, p c = true := by
  rw [byteWith, mem_run]
  simp only [mem_filter_everyByte]

end

end Araya.Regex
