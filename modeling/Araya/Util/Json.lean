import Mathlib.Algebra.Order.Ring.Int
import Mathlib.Data.List.Basic
import Mathlib.Data.String.Basic

/-!
JSON values as the programs that use them see them: the three number kinds are
told apart, an object keeps the order of its members, and a lookup finds the
first member of a name.
-/

namespace Araya

inductive Json where
  | null
  | bool (b : Bool)
  | int (n : Int)
  | uint (n : Nat)
  | double (bits : UInt64)
  | str (s : String)
  | arr (items : List Json)
  | obj (members : List (String × Json))

namespace Json

abbrev Members := List (String × Json)

def find? (o : Members) (key : String) : Option Json := (o.find? fun m => m.1 == key).map Prod.snd

def ifObject : Json → Option Members
  | .obj o => some o
  | _ => none

def ifArray : Json → Option (List Json)
  | .arr items => some items
  | _ => none

def ifString : Json → Option String
  | .str s => some s
  | _ => none

def ifInt : Json → Option Int
  | .int n => some n
  | _ => none

def ifBool : Json → Option Bool
  | .bool b => some b
  | _ => none

/-- A member that is a string. -/
def stringField (o : Members) (key : String) : Option String := (find? o key).bind ifString

def objectField (o : Members) (key : String) : Option Members := (find? o key).bind ifObject

def arrayField (o : Members) (key : String) : Option (List Json) := (find? o key).bind ifArray

def intField (o : Members) (key : String) : Option Int := (find? o key).bind ifInt

/-- `opt_uint`: either integer kind, when it is not negative. -/
def optUint : Json → Option Nat
  | .uint n => some n
  | .int n => if 0 ≤ n then some n.toNat else none
  | _ => none

/-- `opt_int`: either integer kind, when it fits the signed range. -/
def optInt : Json → Option Int
  | .int n => some n
  | .uint n => if n < 2 ^ 63 then some n else none
  | _ => none

def optUintField (o : Members) (key : String) : Option Nat := (find? o key).bind optUint

def optIntField (o : Members) (key : String) : Option Int := (find? o key).bind optInt

@[simp] theorem find?_nil (key : String) : find? [] key = none := rfl

@[simp] theorem find?_cons (m : String × Json) (o : Members) (key : String) :
    find? (m :: o) key = if m.1 = key then some m.2 else find? o key := by
  simp only [find?, List.find?_cons]
  by_cases h : m.1 = key
  · simp [h]
  · rw [beq_eq_false_iff_ne.mpr h, if_neg h]

@[simp] theorem ifObject_obj (o : Members) : (obj o).ifObject = some o := rfl
@[simp] theorem ifArray_arr (items : List Json) : (arr items).ifArray = some items := rfl
@[simp] theorem ifString_str (s : String) : (str s).ifString = some s := rfl
@[simp] theorem ifInt_int (n : Int) : (int n).ifInt = some n := rfl

/-! Equality -/

mutual

def same : Json → Json → Bool
  | .null, .null => true
  | .bool a, .bool b => a == b
  | .int a, .int b => a == b
  | .uint a, .uint b => a == b
  | .double a, .double b => a == b
  | .str a, .str b => a == b
  | .arr a, .arr b => sameItems a b
  | .obj a, .obj b => sameMembers a b
  | _, _ => false

def sameItems : List Json → List Json → Bool
  | [], [] => true
  | v :: vs, w :: ws => same v w && sameItems vs ws
  | _, _ => false

def sameMembers : List (String × Json) → List (String × Json) → Bool
  | [], [] => true
  | (k, v) :: ms, (l, w) :: ns => k == l && same v w && sameMembers ms ns
  | _, _ => false

end

mutual

theorem eq_of_same : (v w : Json) → same v w = true → v = w
  | .null, w, h => by cases w <;> simp_all [same]
  | .bool a, w, h => by cases w <;> simp_all [same]
  | .int a, w, h => by cases w <;> simp_all [same]
  | .uint a, w, h => by cases w <;> simp_all [same]
  | .double a, w, h => by cases w <;> simp_all [same]
  | .str a, w, h => by cases w <;> simp_all [same]
  | .arr a, w, h => by
      cases w with
      | arr b => rw [eq_of_sameItems a b h]
      | _ => cases h
  | .obj a, w, h => by
      cases w with
      | obj b => rw [eq_of_sameMembers a b h]
      | _ => cases h

theorem eq_of_sameItems : (vs ws : List Json) → sameItems vs ws = true → vs = ws
  | [], ws, h => by
      cases ws with
      | nil => rfl
      | cons w ws => cases h
  | v :: vs, ws, h => by
      cases ws with
      | nil => cases h
      | cons w ws =>
          obtain ⟨hv, hvs⟩ := Bool.and_eq_true_iff.mp h
          rw [eq_of_same v w hv, eq_of_sameItems vs ws hvs]

theorem eq_of_sameMembers : (ms ns : List (String × Json)) → sameMembers ms ns = true → ms = ns
  | [], ns, h => by
      cases ns with
      | nil => rfl
      | cons n ns => cases h
  | (k, v) :: ms, ns, h => by
      cases ns with
      | nil => cases h
      | cons n ns =>
          obtain ⟨l, w⟩ := n
          obtain ⟨hkv, hms⟩ := Bool.and_eq_true_iff.mp h
          obtain ⟨hk, hv⟩ := Bool.and_eq_true_iff.mp hkv
          rw [beq_iff_eq.mp hk, eq_of_same v w hv, eq_of_sameMembers ms ns hms]

end

/-! Reading back what was written -/

mutual

/-- The value that reading a written one gives: an unsigned number comes back
signed where it fits. -/
def normal : Json → Json
  | .uint n => if n < 2 ^ 63 then .int n else .uint n
  | .arr items => .arr (normalItems items)
  | .obj members => .obj (normalMembers members)
  | .null => .null
  | .bool b => .bool b
  | .int n => .int n
  | .double bits => .double bits
  | .str s => .str s

def normalItems : List Json → List Json
  | [] => []
  | v :: vs => normal v :: normalItems vs

def normalMembers : List (String × Json) → List (String × Json)
  | [] => []
  | (k, v) :: ms => (k, normal v) :: normalMembers ms

end

@[simp] theorem ifObject_normal (v : Json) : v.normal.ifObject = v.ifObject.map normalMembers := by
  cases v with
  | uint n => simp only [normal]; split <;> rfl
  | _ => rfl

@[simp] theorem ifArray_normal (v : Json) : v.normal.ifArray = v.ifArray.map normalItems := by
  cases v with
  | uint n => simp only [normal]; split <;> rfl
  | _ => rfl

@[simp] theorem ifString_normal (v : Json) : v.normal.ifString = v.ifString := by
  cases v with
  | uint n => simp only [normal]; split <;> rfl
  | _ => rfl

@[simp] theorem optUint_normal (v : Json) : v.normal.optUint = v.optUint := by
  cases v with
  | uint n =>
      simp only [normal]
      split
      · simp [optUint]
      · rfl
  | _ => rfl

@[simp] theorem optInt_normal (v : Json) : v.normal.optInt = v.optInt := by
  cases v with
  | uint n =>
      simp only [normal]
      split
      · next small => simpa [optInt] using small
      · rfl
  | _ => rfl

theorem ifInt_normal {v : Json} {n : Int} (h : v.ifInt = some n) : v.normal.ifInt = some n := by
  cases v with
  | int m => exact h
  | _ => cases h

@[simp] theorem find?_normalMembers (o : Members) (key : String) :
    find? (normalMembers o) key = (find? o key).map normal := by
  induction o with
  | nil => rfl
  | cons m ms ih =>
      obtain ⟨k, v⟩ := m
      simp only [normalMembers, find?_cons, ih]
      split <;> rfl

@[simp] theorem stringField_normalMembers (o : Members) (key : String) :
    stringField (normalMembers o) key = stringField o key := by
  simp only [stringField, find?_normalMembers]
  cases find? o key <;> simp

@[simp] theorem objectField_normalMembers (o : Members) (key : String) :
    objectField (normalMembers o) key = (objectField o key).map normalMembers := by
  simp only [objectField, find?_normalMembers]
  cases find? o key <;> simp

@[simp] theorem optUintField_normalMembers (o : Members) (key : String) :
    optUintField (normalMembers o) key = optUintField o key := by
  simp only [optUintField, find?_normalMembers]
  cases find? o key <;> simp

@[simp] theorem optIntField_normalMembers (o : Members) (key : String) :
    optIntField (normalMembers o) key = optIntField o key := by
  simp only [optIntField, find?_normalMembers]
  cases find? o key <;> simp

@[simp] theorem arrayField_normalMembers (o : Members) (key : String) :
    arrayField (normalMembers o) key = (arrayField o key).map normalItems := by
  simp only [arrayField, find?_normalMembers]
  cases find? o key <;> simp

theorem intField_normalMembers {o : Members} {key : String} {n : Int}
    (h : intField o key = some n) : intField (normalMembers o) key = some n := by
  obtain ⟨v, hv, hn⟩ := Option.bind_eq_some_iff.mp h
  simp [intField, hv, ifInt_normal hn]

theorem normalItems_eq_map (vs : List Json) : normalItems vs = vs.map normal := by
  induction vs with
  | nil => rfl
  | cons v vs ih => rw [normalItems, ih, List.map_cons]

@[simp] theorem length_normalItems (vs : List Json) : (normalItems vs).length = vs.length := by
  induction vs with
  | nil => rfl
  | cons v vs ih => simp [normalItems, ih]

@[simp] theorem head?_normalItems (vs : List Json) : (normalItems vs).head? = vs.head?.map normal := by
  cases vs <;> rfl

/-! Equality up to the kind of a number -/

mutual

/-- Equality as the library sees it: an unsigned number equals the signed one. -/
def alike : Json → Json → Bool
  | .null, .null => true
  | .bool a, .bool b => a == b
  | .int a, .int b => a == b
  | .uint a, .uint b => a == b
  | .int a, .uint b => a == b
  | .uint a, .int b => a == b
  | .double a, .double b => a == b
  | .str a, .str b => a == b
  | .arr a, .arr b => alikeItems a b
  | .obj a, .obj b => alikeMembers a b
  | _, _ => false

def alikeItems : List Json → List Json → Bool
  | [], [] => true
  | v :: vs, w :: ws => alike v w && alikeItems vs ws
  | _, _ => false

def alikeMembers : List (String × Json) → List (String × Json) → Bool
  | [], [] => true
  | (k, v) :: ms, (l, w) :: ns => k == l && alike v w && alikeMembers ms ns
  | _, _ => false

end

mutual

theorem alike_normal : (v : Json) → alike v v.normal = true
  | .null | .bool _ | .int _ | .double _ | .str _ => by simp [normal, alike]
  | .uint n => by
      rw [normal]
      split <;> simp [alike]
  | .arr items => alikeItems_normal items
  | .obj members => alikeMembers_normal members

theorem alikeItems_normal : (vs : List Json) → alikeItems vs (normalItems vs) = true
  | [] => rfl
  | v :: vs => by rw [normalItems, alikeItems, alike_normal v, alikeItems_normal vs]; rfl

theorem alikeMembers_normal : (ms : List (String × Json)) → alikeMembers ms (normalMembers ms) = true
  | [] => rfl
  | (k, v) :: ms => by
      rw [normalMembers, alikeMembers, alike_normal v, alikeMembers_normal ms, beq_self_eq_true]
      rfl

end

/-! Compact text -/

def hexDigit (n : Nat) : Char := Nat.digitChar (n % 16)

def renderChar (c : Char) : List Char :=
  if c = '"' then ['\\', '"']
  else if c = '\\' then ['\\', '\\']
  else if c = '\n' then ['\\', 'n']
  else if c.toNat < 32 then ['\\', 'u', '0', '0', hexDigit (c.toNat / 16), hexDigit c.toNat]
  else [c]

def renderString (s : String) : List Char := '"' :: s.toList.flatMap renderChar ++ ['"']

mutual

/-- The one-line text of a value, over the text of its doubles. -/
def render (double : UInt64 → List Char) : Json → List Char
  | .null => "null".toList
  | .bool b => (if b then "true" else "false").toList
  | .int n => (toString n).toList
  | .uint n => (toString n).toList
  | .double bits => double bits
  | .str s => renderString s
  | .arr items => '[' :: renderItems double items ++ [']']
  | .obj members => '\x7b' :: renderMembers double members ++ ['\x7d']

def renderItems (double : UInt64 → List Char) : List Json → List Char
  | [] => []
  | [v] => render double v
  | v :: vs => render double v ++ ',' :: renderItems double vs

def renderMembers (double : UInt64 → List Char) : List (String × Json) → List Char
  | [] => []
  | [(k, v)] => renderString k ++ ':' :: render double v
  | (k, v) :: ms => renderString k ++ ':' :: render double v ++ ',' :: renderMembers double ms

end

end Json
end Araya
