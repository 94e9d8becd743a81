import Araya.Glob.Grammar
import Mathlib.Tactic.SplitIfs

/-!
What a pattern without choices means. It is read as a sequence of items, each with the texts it stands for; a class has
at least one character in front of the `]` that closes it, and a `[` that begins no class is a character.
-/

namespace Araya.Glob
open Llm (Bytes)
open Utf8 (bytes)

inductive Item where
  | char (c : UInt8)
  | any
  | run
  | wild
  | dirs
  | set (negated : Bool) (body : Bytes)

/-- A class with one of these in front is negated. -/
def negates (text : Bytes) : Bool := text.head? == some '!'.toUInt8 || text.head? == some '^'.toUInt8

/-- The class behind a `[`: whether it is negated, what it lists, and what follows it. -/
def bracket (text : Bytes) : Option (Bool × Bytes × Bytes) :=
  match if negates text then text.tail else text with
  | [] => none
  | first :: more =>
    if ']'.toUInt8 ∈ more then
      some (negates text, first :: more.takeWhile (· ≠ ']'.toUInt8), (more.dropWhile (· ≠ ']'.toUInt8)).tail)
    else none

/-- The item that a character begins, and what follows it. -/
def item (c : UInt8) (rest : Bytes) : Item × Bytes :=
  if c = '*'.toUInt8 then
    if rest.head? = some '*'.toUInt8 then
      if rest.tail.head? = some '/'.toUInt8 then (.dirs, rest.tail.tail) else (.wild, rest.tail)
    else (.run, rest)
  else if c = '?'.toUInt8 then (.any, rest)
  else if c = '['.toUInt8 then
    match bracket rest with
    | some (negated, body, behind) => (.set negated body, behind)
    | none => (.char c, rest)
  else (.char c, rest)

theorem bracket_length {text body behind : Bytes} {negated : Bool} (found : bracket text = some (negated, body, behind)) :
    behind.length ≤ text.length := by
  unfold bracket at found
  split at found
  · cases found
  · next first more whole =>
      split_ifs at found with closed
      cases found
      have shorter : (first :: more).length ≤ text.length := by
        rw [← whole]
        split_ifs
        · rw [List.length_tail]
          exact Nat.sub_le _ 1
        · exact Nat.le_refl _
      have dropped := (List.dropWhile_sublist (· ≠ ']'.toUInt8) (l := more)).length_le
      rw [List.length_cons] at shorter
      rw [List.length_tail]
      omega

theorem item_length (c : UInt8) (rest : Bytes) : (item c rest).2.length ≤ rest.length := by
  unfold item
  split_ifs
  · simp only [List.length_tail]
    omega
  · simp only [List.length_tail]
    omega
  · exact Nat.le_refl _
  · exact Nat.le_refl _
  · split
    · next found => exact bracket_length found
    · exact Nat.le_refl _
  · exact Nat.le_refl _

def items : Bytes → List Item
  | [] => []
  | c :: rest => (item c rest).1 :: items (item c rest).2
termination_by pattern => pattern.length
decreasing_by exact Nat.lt_succ_of_le (item_length c rest)

/-! Classes -/

inductive ClassPart where
  | one (c : UInt8)
  | range (lo hi : UInt8)

/-- What a class lists: a `-` between two characters makes a range. -/
def classParts : Bytes → List ClassPart
  | [] => []
  | [c] => [.one c]
  | [c, d] => [.one c, .one d]
  | c :: dash :: hi :: rest =>
    if dash = '-'.toUInt8 then .range c hi :: classParts rest else .one c :: classParts (dash :: hi :: rest)

section
variable (tr : Traits)

def ClassPart.holds : ClassPart → UInt8 → Bool
  | .one c => fun d => d == c
  | .range lo hi => fun d => tr.le lo d && tr.le d hi

def ClassPart.ordered : ClassPart → Bool
  | .one _ => true
  | .range lo hi => tr.le lo hi

def inClass (body : Bytes) (c : UInt8) : Bool := (classParts body).any fun part => part.holds tr c

/-! Languages -/

variable (wild : UInt8 → Prop)

/-- The texts of an item, where `**` stands for what `wild` admits. -/
def Item.language : Item → Language UInt8
  | .char c => {text | text = [c]}
  | .any => {text | ∃ c, c ≠ '/'.toUInt8 ∧ text = [c]}
  | .run => {text | ∀ c ∈ text, c ≠ '/'.toUInt8}
  | .wild => {text | ∀ c ∈ text, wild c}
  | .dirs => {text | text = [] ∨ ∃ front, (∀ c ∈ front, wild c) ∧ text = front ++ ['/'.toUInt8]}
  | .set negated body => {text | ∃ c, (inClass tr body c = true ↔ negated = false) ∧ text = [c]}

def languageOf : List Item → Language UInt8
  | [] => 1
  | i :: is => i.language tr wild * languageOf is

end

theorem Item.language_mono {tr : Traits} {wild free : UInt8 → Prop} (more : ∀ c, wild c → free c) (i : Item)
    {text : Bytes} (h : text ∈ i.language tr wild) : text ∈ i.language tr free := by
  cases i with
  | char _ | any | run | set _ _ => exact h
  | wild => exact fun c there => more c (h c there)
  | dirs =>
      rcases h with none | ⟨front, inside, rfl⟩
      · exact .inl none
      · exact .inr ⟨front, fun c there => more c (inside c there), rfl⟩

theorem languageOf_mono {tr : Traits} {wild free : UInt8 → Prop} (more : ∀ c, wild c → free c) {is : List Item}
    {text : Bytes} (h : text ∈ languageOf tr wild is) : text ∈ languageOf tr free is := by
  induction is generalizing text with
  | nil => exact h
  | cons i is ih =>
      obtain ⟨front, first, behind, later, rfl⟩ := Language.mem_mul.mp h
      exact Language.mem_mul.mpr ⟨front, i.language_mono more first, behind, ih later, rfl⟩

end Araya.Glob
