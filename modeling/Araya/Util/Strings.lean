import Araya.Util.Json
import Mathlib.Data.List.DropRight

/-!
Small string helpers: white space off both ends, decimal numbers, the sixteen hex digits of a
word, and the identities made of the clock and a random word.
-/

namespace Araya

def blank (c : Char) : Bool := c == ' ' || c == '\t' || c == '\r' || c == '\n'

def trim (text : String) : String := String.ofList ((text.toList.dropWhile blank).rdropWhile blank)

theorem dropWhile_trimmed (l : List Char) :
    ((l.dropWhile blank).rdropWhile blank).dropWhile blank = (l.dropWhile blank).rdropWhile blank := by
  have front := List.rdropWhile_prefix blank (l := l.dropWhile blank)
  cases hm : (l.dropWhile blank).rdropWhile blank with
  | nil => rfl
  | cons c cs =>
      rw [hm] at front
      obtain ⟨rest, hl⟩ := front
      have head : (l.dropWhile blank).head? = some c := by rw [← hl]; rfl
      have solid : blank c = false := by
        have := List.head?_dropWhile_not blank l
        rw [head] at this
        simpa using this
      rw [List.dropWhile_cons_of_neg (by simp [solid])]

@[simp] theorem trim_trim (text : String) : trim (trim text) = trim text := by
  rw [trim, trim, String.toList_ofList, dropWhile_trimmed, List.rdropWhile_idempotent]

theorem decimal_injective {m n : Nat} (h : toString m = toString n) : m = n := by
  have digits : Nat.toDigits 10 m = Nat.toDigits 10 n := by
    rw [← Nat.toList_repr, ← Nat.toList_repr]
    exact congrArg String.toList h
  have value := congrArg (Nat.ofDigitChars 10 · 0) digits
  simpa [Nat.ofDigitChars_ten_toDigits] using value

theorem decimal_digits {n : Nat} {c : Char} (member : c ∈ (toString n).toList) : c.isDigit = true := by
  rw [Nat.toString_eq_repr, Nat.toList_repr] at member
  exact Nat.isDigit_of_mem_toDigits (by decide) (by decide) member

/-- A decimal number before a character that is no digit is read back. -/
theorem decimal_before {m n : Nat} {c : Char} (solid : c.isDigit = false) {rest rest' : List Char}
    (h : (toString m).toList ++ c :: rest = (toString n).toList ++ c :: rest') : m = n := by
  have front (k : Nat) (rest : List Char) : ((toString k).toList ++ c :: rest).takeWhile Char.isDigit = (toString k).toList := by
    rw [List.takeWhile_append_of_pos fun d => decimal_digits,
      List.takeWhile_cons_of_neg (by rw [solid]; exact Bool.false_ne_true), List.append_nil]
  have same := congrArg (List.takeWhile Char.isDigit) h
  rw [front, front] at same
  exact decimal_injective (String.toList_inj.mp same)

/-- A text is cut at the last place of a character. -/
theorem split_last {c : Char} {a a' b b' : List Char} (same : a ++ c :: b = a' ++ c :: b') (off : c ∉ b) (off' : c ∉ b') :
    a = a' ∧ b = b' := by
  obtain ⟨m, rfl, rest⟩ | ⟨m, rfl, rest⟩ := List.append_eq_append_iff.mp same
  · cases m with
    | nil => exact ⟨(List.append_nil a).symm, (List.cons.inj rest).2⟩
    | cons d m => exact absurd ((List.cons.inj rest).2 ▸ List.mem_append_right m List.mem_cons_self) off
  · cases m with
    | nil => exact ⟨List.append_nil a', ((List.cons.inj rest).2).symm⟩
    | cons d m => exact absurd ((List.cons.inj rest).2 ▸ List.mem_append_right m List.mem_cons_self) off'

/-- A text is cut at the first place of a character. -/
theorem split_first {c : Char} {a a' b b' : List Char} (same : a ++ c :: b = a' ++ c :: b') (off : c ∉ a) (off' : c ∉ a') :
    a = a' ∧ b = b' := by
  obtain ⟨m, rfl, rest⟩ | ⟨m, rfl, rest⟩ := List.append_eq_append_iff.mp same
  · cases m with
    | nil => exact ⟨(List.append_nil a).symm, (List.cons.inj rest).2⟩
    | cons d m => exact absurd (List.mem_append_right a ((List.cons.inj rest).1 ▸ List.mem_cons_self)) off'
  · cases m with
    | nil => exact ⟨List.append_nil a', ((List.cons.inj rest).2).symm⟩
    | cons d m => exact absurd (List.mem_append_right a' ((List.cons.inj rest).1 ▸ List.mem_cons_self)) off

/-- The low 64 bits as sixteen hex digits. -/
def hex16 (value : UInt64) : String :=
  String.ofList ((List.range 16).map fun i => Json.hexDigit (value.toNat / 16 ^ (15 - i)))

/-- `mint_id`, over the stamp of the clock and two draws of the random device. -/
def mintId (opening separator : String) (stamp : Int) (high low : UInt32) : String :=
  let stamp := UInt64.ofInt stamp
  let random := (high.toUInt64 <<< 32) ^^^ low.toUInt64 ^^^ (stamp <<< 16)
  opening ++ hex16 stamp ++ separator ++ hex16 random

end Araya
