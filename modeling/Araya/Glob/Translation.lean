import Araya.Glob.Items
import Mathlib.Data.List.TakeWhile

/-!
The translation of a pattern to an expression, and the expression it compiles to. Each item is translated alone; a brace
outside of a class and a range against the order are not accepted.
-/

namespace Araya.Glob
open Llm (Bytes)
open RegularExpression
open Regex (byteWith optional)
open Utf8 (bytes)

/-! The tool -/

def escaped (c : UInt8) : Bytes := if c ∈ bytes ".+()|^$\\]\x7d" then ['\\'.toUInt8, c] else [c]

/-- The characters of a class up to the `]` that closes it, and what follows that. -/
def classChars : Bytes → Option (Bytes × Bytes)
  | [] => none
  | c :: rest =>
    if c = ']'.toUInt8 then some ([], rest)
    else (classChars rest).map (Prod.map ((if c = '\\'.toUInt8 then bytes "\\\\" else [c]) ++ ·) id)

/-- The class behind a `[`, and what follows it. -/
def classText (rest : Bytes) : Option (Bytes × Bytes) :=
  let cls := if negates rest then bytes "[^" else bytes "["
  let rest := if negates rest then rest.tail else rest
  if rest.head? = some ']'.toUInt8 then
    (classChars rest.tail).map (Prod.map (fun text => cls ++ bytes "\\]" ++ text ++ bytes "]") id)
  else (classChars rest).map (Prod.map (fun text => cls ++ text ++ bytes "]") id)

/-- What a character adds to the expression, and what is left of the glob behind it. -/
def fragment (c : UInt8) (rest : Bytes) : Bytes × Bytes :=
  if c = '*'.toUInt8 then
    if rest.head? = some '*'.toUInt8 then
      if rest.tail.head? = some '/'.toUInt8 then (bytes "(?:.*/)?", rest.tail.tail) else (bytes ".*", rest.tail)
    else (bytes "[^/]*", rest)
  else if c = '?'.toUInt8 then (bytes "[^/]", rest)
  else if c = '['.toUInt8 then (classText rest).getD (bytes "\\[", rest)
  else (escaped c, rest)

/-! The text of an item -/

def classChar (c : UInt8) : Bytes :=
  if c = '\\'.toUInt8 then bytes "\\\\" else if c = ']'.toUInt8 then bytes "\\]" else [c]

def Item.text : Item → Bytes
  | .char c => if c = '['.toUInt8 then bytes "\\[" else escaped c
  | .any => bytes "[^/]"
  | .run => bytes "[^/]*"
  | .wild => bytes ".*"
  | .dirs => bytes "(?:.*/)?"
  | .set negated body => (if negated then bytes "[^" else bytes "[") ++ (body.flatMap classChar ++ bytes "]")

theorem classChars_eq (more : Bytes) : classChars more =
    if ']'.toUInt8 ∈ more then
      some ((more.takeWhile (· ≠ ']'.toUInt8)).flatMap classChar, (more.dropWhile (· ≠ ']'.toUInt8)).tail)
    else none := by
  induction more with
  | nil => rfl
  | cons c more ih =>
      unfold classChars
      by_cases closes : c = ']'.toUInt8
      · subst closes
        rw [if_pos rfl, if_pos List.mem_cons_self, List.takeWhile_cons_of_neg (by decide),
          List.dropWhile_cons_of_neg (by decide)]
        rfl
      · have passes : decide (c ≠ ']'.toUInt8) = true := decide_eq_true closes
        have here : (if c = '\\'.toUInt8 then bytes "\\\\" else [c]) = classChar c := by
          rw [classChar, if_neg closes]
        rw [if_neg closes, here, ih, List.takeWhile_cons_of_pos (p := (· ≠ ']'.toUInt8)) passes,
          List.dropWhile_cons_of_pos (p := (· ≠ ']'.toUInt8)) passes, List.flatMap_cons]
        simp only [List.mem_cons, Ne.symm closes, false_or]
        split_ifs
        · rfl
        · rfl

theorem classText_bracket (rest : Bytes) : classText rest =
    (bracket rest).map fun found => ((Item.set found.1 found.2.1).text, found.2.2) := by
  unfold classText bracket
  generalize (if negates rest then rest.tail else rest) = text
  generalize negates rest = negated
  cases text with
  | nil => rfl
  | cons first more =>
      by_cases closes : first = ']'.toUInt8
      · subst closes
        have same : (']'.toUInt8 :: more).head? = some ']'.toUInt8 := rfl
        rw [if_pos same, List.tail_cons, classChars_eq]
        dsimp only
        by_cases closed : ']'.toUInt8 ∈ more
        · rw [if_pos closed, if_pos closed, Option.map_some, Option.map_some, Prod.map_apply, Item.text,
            List.flatMap_cons, List.append_assoc, List.append_assoc, List.append_assoc]
          rfl
        · rw [if_neg closed, if_neg closed]
          rfl
      · have other : ¬ (first :: more).head? = some ']'.toUInt8 := fun same => closes (Option.some.inj same)
        have passes : decide (first ≠ ']'.toUInt8) = true := decide_eq_true closes
        rw [if_neg other, classChars_eq, List.takeWhile_cons_of_pos (p := (· ≠ ']'.toUInt8)) passes,
          List.dropWhile_cons_of_pos (p := (· ≠ ']'.toUInt8)) passes]
        simp only [List.mem_cons, Ne.symm closes, false_or]
        by_cases closed : ']'.toUInt8 ∈ more
        · rw [if_pos closed, if_pos closed, Option.map_some, Option.map_some, Prod.map_apply, Item.text,
            List.append_assoc]
          rfl
        · rw [if_neg closed, if_neg closed]
          rfl

theorem fragment_item (c : UInt8) (rest : Bytes) : fragment c rest = ((item c rest).1.text, (item c rest).2) := by
  unfold fragment item
  split_ifs with star second slash any opens
  · rfl
  · rfl
  · rfl
  · rfl
  · rw [classText_bracket]
    cases found : bracket rest with
    | none =>
        dsimp only [Option.map_none, Option.getD_none, Item.text]
        rw [if_pos opens]
    | some parts => rfl
  · dsimp only [Item.text]
    rw [if_neg opens]

def globFragmentToRegex : Bytes → Bytes
  | [] => []
  | c :: rest => (fragment c rest).1 ++ globFragmentToRegex (fragment c rest).2
termination_by glob => glob.length
decreasing_by
  rw [fragment_item]
  exact Nat.lt_succ_of_le (item_length c rest)

theorem globFragmentToRegex_items (pattern : Bytes) :
    globFragmentToRegex pattern = (items pattern).flatMap Item.text := by
  induction pattern using items.induct with
  | case1 => rw [globFragmentToRegex, items, List.flatMap_nil]
  | case2 c rest ih => rw [globFragmentToRegex, items, fragment_item, ih, List.flatMap_cons]

end Araya.Glob
