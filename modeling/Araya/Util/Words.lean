import Mathlib.Algebra.Group.Nat.Defs
import Mathlib.Data.List.Basic

/-!
Words of two and four bytes, the least significant first, and a reader that takes them off the front of a text. Each
reader undoes its writer in front of any text.
-/

namespace Araya

def put16 (v : UInt16) : List UInt8 := [UInt8.ofNat v.toNat, UInt8.ofNat (v.toNat / 2 ^ 8)]

def put32 (v : UInt32) : List UInt8 :=
  [UInt8.ofNat v.toNat, UInt8.ofNat (v.toNat / 2 ^ 8), UInt8.ofNat (v.toNat / 2 ^ 16), UInt8.ofNat (v.toNat / 2 ^ 24)]

def take16 : List UInt8 → Option (Nat × List UInt8)
  | a :: b :: rest => some (a.toNat + b.toNat * 2 ^ 8, rest)
  | _ => none

def take32 : List UInt8 → Option (Nat × List UInt8)
  | a :: b :: c :: d :: rest => some (a.toNat + b.toNat * 2 ^ 8 + c.toNat * 2 ^ 16 + d.toNat * 2 ^ 24, rest)
  | _ => none

def takeBytes (n : Nat) (text : List UInt8) : Option (List UInt8 × List UInt8) :=
  if n ≤ text.length then some (text.take n, text.drop n) else none

section
variable (rest : List UInt8)

@[simp] theorem put16_length (v : UInt16) : (put16 v).length = 2 := rfl

@[simp] theorem put32_length (v : UInt32) : (put32 v).length = 4 := rfl

theorem take16_put16 (v : UInt16) : take16 (put16 v ++ rest) = some (v.toNat, rest) := by
  have bound : v.toNat < 2 ^ 16 := v.toNat_lt
  have value : v.toNat % 2 ^ 8 + v.toNat / 2 ^ 8 % 2 ^ 8 * 2 ^ 8 = v.toNat := by omega
  change some (_, rest) = _
  rw [UInt8.toNat_ofNat', UInt8.toNat_ofNat', value]

theorem take32_put32 (v : UInt32) : take32 (put32 v ++ rest) = some (v.toNat, rest) := by
  have bound : v.toNat < 2 ^ 32 := v.toNat_lt
  have value : v.toNat % 2 ^ 8 + v.toNat / 2 ^ 8 % 2 ^ 8 * 2 ^ 8 + v.toNat / 2 ^ 16 % 2 ^ 8 * 2 ^ 16 +
      v.toNat / 2 ^ 24 % 2 ^ 8 * 2 ^ 24 = v.toNat := by omega
  change some (_, rest) = _
  rw [UInt8.toNat_ofNat', UInt8.toNat_ofNat', UInt8.toNat_ofNat', UInt8.toNat_ofNat', value]

theorem takeBytes_append (text : List UInt8) : takeBytes text.length (text ++ rest) = some (text, rest) := by
  rw [takeBytes, if_pos (List.length_append ▸ Nat.le_add_right ..), List.take_left, List.drop_left]

end
end Araya
