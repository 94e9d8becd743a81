import Mathlib.Data.List.Basic

/-!
Texts of bytes that encode characters: they join, and they come apart at every byte that continues no character.
-/

namespace Araya.Utf8

def Continues (b : UInt8) : Prop := b &&& 0xC0 = 0x80

instance (b : UInt8) : Decidable (Continues b) := inferInstanceAs (Decidable (b &&& 0xC0 = 0x80))

def Encoded (text : List UInt8) : Prop := ∃ chars : List Char, text = chars.flatMap String.utf8EncodeChar

/-- The bytes of a string. -/
def bytes (text : String) : List UInt8 := text.toUTF8.data.toList

theorem continues_low : ∀ n : Fin 64, Continues (UInt8.ofNat (n + 0x80)) := by decide

theorem lead_ascii : ∀ n : Fin 128, ¬ Continues (UInt8.ofNat n) := by decide +kernel

theorem lead_two : ∀ n : Fin 32, ¬ Continues (UInt8.ofNat (n + 0xC0)) ∧ ¬ UInt8.ofNat (n + 0xC0) < 0x80 := by decide

theorem lead_three : ∀ n : Fin 16, ¬ Continues (UInt8.ofNat (n + 0xE0)) ∧ ¬ UInt8.ofNat (n + 0xE0) < 0x80 := by decide

theorem lead_four : ∀ n : Fin 8, ¬ Continues (UInt8.ofNat (n + 0xF0)) ∧ ¬ UInt8.ofNat (n + 0xF0) < 0x80 := by decide

/-- The first byte of a character continues none and the others do; a character of one byte is its own. -/
theorem encodeChar_shape (c : Char) : ∃ first rest, String.utf8EncodeChar c = first :: rest ∧ ¬ Continues first ∧
    (∀ b ∈ rest, Continues b) ∧ (first < 0x80 → rest = []) := by
  have low (n : Nat) : Continues (UInt8.ofNat (n % 0x40 + 0x80)) :=
    continues_low ⟨n % 0x40, Nat.mod_lt n (by decide)⟩
  unfold String.utf8EncodeChar
  generalize c.val.toNat = v
  dsimp only
  split
  · next small =>
      exact ⟨_, _, rfl, lead_ascii ⟨v, by omega⟩, fun _ none => absurd none List.not_mem_nil, fun _ => rfl⟩
  · split
    · obtain ⟨lead, large⟩ := lead_two ⟨v / 64 % 0x20, Nat.mod_lt _ (by decide)⟩
      refine ⟨_, _, rfl, lead, ?_, fun small => absurd small large⟩
      simp only [List.mem_singleton, forall_eq]
      exact low v
    · split
      · obtain ⟨lead, large⟩ := lead_three ⟨v / 4096 % 0x10, Nat.mod_lt _ (by decide)⟩
        refine ⟨_, _, rfl, lead, ?_, fun small => absurd small large⟩
        simp only [List.mem_cons, List.not_mem_nil, or_false, forall_eq_or_imp, forall_eq]
        exact ⟨low _, low v⟩
      · obtain ⟨lead, large⟩ := lead_four ⟨v / 262144 % 0x08, Nat.mod_lt _ (by decide)⟩
        refine ⟨_, _, rfl, lead, ?_, fun small => absurd small large⟩
        simp only [List.mem_cons, List.not_mem_nil, or_false, forall_eq_or_imp, forall_eq]
        exact ⟨low _, low _, low v⟩

theorem bytes_eq (text : String) : bytes text = text.toList.flatMap String.utf8EncodeChar := by
  have same : text.toList.utf8Encode = text.toUTF8 := String.utf8Encode_toList
  unfold bytes
  rw [← same, List.utf8Encode]
  exact List.toList_data_toByteArray

theorem encoded_bytes (text : String) : Encoded (bytes text) := ⟨text.toList, bytes_eq text⟩

theorem bytes_length {text : String} (ascii : ∀ c ∈ text.toList, c.val ≤ 127) :
    (bytes text).length = text.toList.length := by
  rw [bytes_eq]
  generalize text.toList = chars at ascii
  induction chars with
  | nil => rfl
  | cons c chars ih =>
      rw [List.flatMap_cons, List.length_append, String.length_utf8EncodeChar,
        Char.utf8Size_eq_one_iff.mpr (ascii c List.mem_cons_self),
        ih fun d there => ascii d (List.mem_cons_of_mem c there), List.length_cons, Nat.add_comm]

theorem decimal_length_mono {m n : Nat} (below : m ≤ n) : (bytes (toString m)).length ≤ (bytes (toString n)).length := by
  have ascii (k : Nat) : ∀ c ∈ (toString k).toList, c.val ≤ 127 := by
    intro c there
    rw [Nat.toString_eq_repr, Nat.toList_repr] at there
    have digit := Nat.isDigit_of_mem_toDigits (by decide) (by decide) there
    rw [Char.isDigit, Bool.and_eq_true, decide_eq_true_eq, decide_eq_true_eq] at digit
    exact UInt32.le_trans digit.2 (by decide)
  rw [bytes_length (ascii m), bytes_length (ascii n), Nat.toString_eq_repr, Nat.toString_eq_repr, Nat.toList_repr,
    Nat.toList_repr, Nat.length_toDigits_le_iff (by decide) Nat.length_toDigits_pos]
  exact Nat.lt_of_le_of_lt below ((Nat.length_toDigits_le_iff (by decide) Nat.length_toDigits_pos).mp (Nat.le_refl _))

namespace Encoded
variable {front back text : List UInt8}

theorem nil : Encoded [] := ⟨[], rfl⟩

theorem append (first : Encoded front) (second : Encoded back) : Encoded (front ++ back) := by
  obtain ⟨cs, rfl⟩ := first
  obtain ⟨ds, rfl⟩ := second
  exact ⟨cs ++ ds, List.flatMap_append.symm⟩

/-- A byte that continues no character starts one. -/
theorem split {b : UInt8} (h : Encoded (front ++ b :: back)) (starts : ¬ Continues b) :
    Encoded front ∧ Encoded (b :: back) := by
  obtain ⟨chars, whole⟩ := h
  induction chars generalizing front with
  | nil => exact absurd whole (List.append_ne_nil_of_right_ne_nil _ (List.cons_ne_nil _ _))
  | cons c chars ih =>
      rw [List.flatMap_cons] at whole
      obtain ⟨first, rest, shape, _, continued, _⟩ := encodeChar_shape c
      rcases List.append_eq_append_iff.mp whole with ⟨inner, parts, tail⟩ | ⟨inner, rfl, tail⟩
      · cases inner with
        | nil =>
            rw [List.append_nil] at parts
            rw [List.nil_append] at tail
            exact ⟨⟨[c], by rw [← parts, List.flatMap_singleton]⟩, ⟨chars, tail⟩⟩
        | cons d inner =>
            obtain ⟨rfl, _⟩ := List.cons.inj tail
            cases front with
            | nil => exact ⟨nil, ⟨c :: chars, by rw [List.flatMap_cons, parts, List.nil_append, tail]⟩⟩
            | cons e front =>
                rw [shape, List.cons_append] at parts
                have inside : b ∈ rest := by
                  rw [(List.cons.inj parts).2]
                  exact List.mem_append_right _ List.mem_cons_self
                exact absurd (continued b inside) starts
      · obtain ⟨before, after⟩ := ih tail.symm
        exact ⟨append ⟨[c], by rw [List.flatMap_singleton]⟩ before, after⟩

theorem tail {b : UInt8} (h : Encoded (b :: text)) (small : b < 0x80) : Encoded text := by
  obtain ⟨chars, whole⟩ := h
  cases chars with
  | nil => exact absurd whole (List.cons_ne_nil _ _)
  | cons c chars =>
      obtain ⟨first, rest, shape, _, _, single⟩ := encodeChar_shape c
      rw [List.flatMap_cons, shape, List.cons_append] at whole
      obtain ⟨rfl, rfl⟩ := List.cons.inj whole
      rw [single small]
      exact ⟨chars, rfl⟩

theorem drop_ascii (small : ∀ b ∈ front, b < 0x80) (h : Encoded (front ++ back)) : Encoded back := by
  induction front with
  | nil => exact h
  | cons b front ih =>
      exact ih (fun c there => small c (List.mem_cons_of_mem b there)) (h.tail (small b List.mem_cons_self))

end Encoded
end Araya.Utf8
