import Araya.Util.Json
import Mathlib.Data.List.TakeWhile

/-!
The check of a structured output against its schema, and what the schema means. The check reports the violations of the
keywords it knows; the meaning is that of the schema language for the same keywords.
-/

namespace Araya.Subagents

/-! Numbers and equality -/

/-- A double in units of the smallest one; nothing for what is no number. -/
def doubleUnits (bits : UInt64) : Option Int :=
  let exponent := bits.toNat / 2 ^ 52 % 2 ^ 11
  let fraction := bits.toNat % 2 ^ 52
  let magnitude : Nat := if exponent = 0 then fraction else (2 ^ 52 + fraction) * 2 ^ (exponent - 1)
  if exponent = 2047 ∧ fraction ≠ 0 then none
  else some (if bits.toNat < 2 ^ 63 then (magnitude : Int) else -magnitude)

def unitsOfOne : Int := Int.ofNat (2 ^ 1074)

/-- The value of a number, of any kind, in the same units. -/
def units : Json → Option Int
  | .int n => some (unitsOfOne * n)
  | .uint n => some (unitsOfOne * n)
  | .double bits => doubleUnits bits
  | _ => none

/-- Two numbers of one value. -/
def sameUnits (a b : Json) : Bool := (units a).isSome && units a == units b

/-- How the library compares two numbers: an integer is no double. -/
def libraryNumbers : Json → Json → Bool
  | .double a, .double b => sameUnits (.double a) (.double b)
  | .double _, _ | _, .double _ => false
  | a, b => sameUnits a b

section
variable (numbers : Json → Json → Bool)

mutual

/-- Equality of values by an equality of numbers. The members of an object are in no order. -/
def equalBy : Json → Json → Bool
  | .null, .null => true
  | .bool a, .bool b => a == b
  | .str a, .str b => a == b
  | .arr a, .arr b => equalItems a b
  | .obj a, .obj b => a.length == b.length && equalMembers a b
  | a, b => numbers a b

def equalItems : List Json → List Json → Bool
  | [], [] => true
  | v :: vs, w :: ws => equalBy v w && equalItems vs ws
  | _, _ => false

def equalMembers : List (String × Json) → List (String × Json) → Bool
  | [], _ => true
  | (k, v) :: ms, b => ((Json.find? b k).any fun w => equalBy v w) && equalMembers ms b

end
end

/-- The library's equality of values. -/
def libraryEqual (a b : Json) : Bool := equalBy libraryNumbers a b

/-- Equality with numbers by value. -/
def sameValue (a b : Json) : Bool := equalBy sameUnits a b

mutual

/-- What is equal for the library has the same value. -/
theorem sameValue_of_equal : (a b : Json) → equalBy libraryNumbers a b = true → equalBy sameUnits a b = true
  | .null, b, h => by cases b <;> simp_all [equalBy, libraryNumbers]
  | .bool _, b, h => by cases b <;> simp_all [equalBy, libraryNumbers]
  | .int _, b, h => by cases b <;> simp_all [equalBy, libraryNumbers]
  | .uint _, b, h => by cases b <;> simp_all [equalBy, libraryNumbers]
  | .double _, b, h => by cases b <;> simp_all [equalBy, libraryNumbers]
  | .str _, b, h => by cases b <;> simp_all [equalBy, libraryNumbers]
  | .arr items, b, h => by
      cases b with
      | arr others => exact sameItems_of_equal items others h
      | _ => simp_all [equalBy, libraryNumbers]
  | .obj members, b, h => by
      cases b with
      | obj others =>
          obtain ⟨size, equal⟩ := Bool.and_eq_true_iff.mp h
          exact Bool.and_eq_true_iff.mpr ⟨size, sameMembers_of_equal members others equal⟩
      | _ => simp_all [equalBy, libraryNumbers]

theorem sameItems_of_equal : (vs ws : List Json) → equalItems libraryNumbers vs ws = true → equalItems sameUnits vs ws = true
  | [], ws, h => by cases ws <;> simp_all [equalItems]
  | v :: vs, ws, h => by
      cases ws with
      | nil => cases h
      | cons w ws =>
          obtain ⟨first, rest⟩ := Bool.and_eq_true_iff.mp h
          exact Bool.and_eq_true_iff.mpr ⟨sameValue_of_equal v w first, sameItems_of_equal vs ws rest⟩

theorem sameMembers_of_equal : (ms ns : List (String × Json)) → equalMembers libraryNumbers ms ns = true →
    equalMembers sameUnits ms ns = true
  | [], _, _ => rfl
  | (k, v) :: ms, ns, h => by
      obtain ⟨first, rest⟩ := Bool.and_eq_true_iff.mp h
      obtain ⟨w, found, equal⟩ := (Option.any_eq_true _ _).mp first
      refine Bool.and_eq_true_iff.mpr ⟨(Option.any_eq_true _ _).mpr ⟨w, found, ?_⟩, sameMembers_of_equal ms ns rest⟩
      exact sameValue_of_equal v w equal

end

/-! Types -/

/-- `is_number()`. -/
def isNumber : Json → Bool
  | .int _ | .uint _ | .double _ => true
  | _ => false

/-- `is_int64() || is_uint64()`. -/
def isInteger : Json → Bool
  | .int _ | .uint _ => true
  | _ => false

/-- Whether a value has a type, given which values are integers; a name that is no type fits every value. -/
def hasType (integer : Json → Bool) (value : Json) (type : String) : Bool :=
  if type = "object" then value.ifObject.isSome
  else if type = "array" then value.ifArray.isSome
  else if type = "string" then value.ifString.isSome
  else if type = "boolean" then value.ifBool.isSome
  else if type = "null" then libraryEqual value .null
  else if type = "number" then isNumber value
  else if type = "integer" then integer value
  else true

/-- `type_matches`. -/
def typeMatches (value : Json) (type : String) : Bool := hasType isInteger value type

/-- A number without a fraction. -/
def isWhole (value : Json) : Bool := (units value).any fun n => n % unitsOfOne == 0

theorem isWhole_of_integer {value : Json} (h : isInteger value = true) : isWhole value = true := by
  cases value with
  | int n => simp only [isWhole, units, Option.any_some, Int.mul_emod_right, beq_self_eq_true]
  | uint n => simp only [isWhole, units, Option.any_some, Int.mul_emod_right, beq_self_eq_true]
  | _ => cases h

theorem hasType_of_matches {value : Json} {type : String} (h : typeMatches value type = true) :
    hasType isWhole value type = true := by
  unfold typeMatches hasType at *
  split_ifs at h ⊢ <;> first | exact h | exact isWhole_of_integer h

/-! The rules of a schema -/

section
variable (rules : Json.Members)

def variants : List Json := (Json.arrayField rules "oneOf").getD []

def propertyRules : Json.Members := (Json.objectField rules "properties").getD []

/-- `additionalProperties` is false. -/
def closed : Bool := (Json.find? rules "additionalProperties").any fun additional => additional.ifBool == some false

/-- The names that `required` lists. -/
def requiredNames : List String := ((Json.arrayField rules "required").getD []).filterMap Json.ifString

/-- The types that `type` allows, when it says anything. -/
def allowedTypes : Option (List String) :=
  (Json.find? rules "type").bind fun type =>
    match type with
    | .str name => some [name]
    | .arr items => some (items.filterMap Json.ifString)
    | _ => none

theorem sizeOf_find? {o : Json.Members} {key : String} {v : Json} (h : Json.find? o key = some v) : sizeOf v < sizeOf (Json.obj o) := by
  obtain ⟨m, found, rfl⟩ := Option.map_eq_some_iff.mp h
  have member := List.sizeOf_lt_of_mem (List.mem_of_find?_eq_some found)
  have part : sizeOf m.2 < sizeOf m := by
    cases m
    simp
  simp
  omega

theorem sizeOf_variants {v : Json} (h : v ∈ variants rules) : sizeOf v < sizeOf (Json.obj rules) := by
  unfold variants Json.arrayField at h
  cases found : Json.find? rules "oneOf" with
  | none =>
      rw [found] at h
      cases h
  | some listed =>
      have whole := sizeOf_find? found
      rw [found] at h
      cases listed with
      | arr items =>
          have part := List.sizeOf_lt_of_mem (show v ∈ items from h)
          simp at whole ⊢
          omega
      | _ => cases h

theorem sizeOf_propertyRules {m : String × Json} (h : m ∈ propertyRules rules) : sizeOf m.2 < sizeOf (Json.obj rules) := by
  unfold propertyRules Json.objectField at h
  cases found : Json.find? rules "properties" with
  | none =>
      rw [found] at h
      cases h
  | some listed =>
      have whole := sizeOf_find? found
      rw [found] at h
      cases listed with
      | obj members =>
          have part := List.sizeOf_lt_of_mem (show m ∈ members from h)
          have value : sizeOf m.2 < sizeOf m := by
            cases m
            simp
          simp at whole ⊢
          omega
      | _ => cases h

end

/-! The check -/

def constantViolations (value : Json) (rules : Json.Members) (path : String) : List String :=
  match Json.find? rules "const" with
  | none => []
  | some constant => if libraryEqual value constant then [] else [path ++ ": does not equal the required constant"]

def enumViolations (value : Json) (rules : Json.Members) (path : String) : List String :=
  match Json.arrayField rules "enum" with
  | none => []
  | some items =>
    if items.any fun item => libraryEqual item value then [] else [path ++ ": is not one of the allowed values"]

def typeViolations (value : Json) (rules : Json.Members) (path : String) : List String :=
  match allowedTypes rules with
  | none => []
  | some names => if names.any (typeMatches value) then [] else [path ++ ": has the wrong type"]

def requiredViolations (o rules : Json.Members) (path : String) : List String :=
  (requiredNames rules).filterMap fun name =>
    if (Json.find? o name).isSome then none else some (path ++ ": is missing required '" ++ name ++ "'")

/-- A key is unexpected only where there are rules of properties. -/
def additionalViolations (o rules : Json.Members) (path : String) : List String :=
  match Json.objectField rules "properties" with
  | none => []
  | some properties =>
    if closed rules then
      o.filterMap fun m =>
        if (Json.find? properties m.1).isSome then none else some (path ++ ": has unexpected property '" ++ m.1 ++ "'")
    else []

/-- `validate_into`: the violations that it adds. -/
def validateInto (value schema : Json) (path : String) : List String :=
  match schema with
  | .obj rules =>
    constantViolations value rules path ++ enumViolations value rules path ++
    (if (Json.arrayField rules "oneOf").isSome && !((variants rules).attach.any fun v => (validateInto value v.1 path).isEmpty) then
      [path ++ ": matches none of the oneOf variants"] else []) ++
    typeViolations value rules path ++
    (match value.ifObject with
      | none => []
      | some o =>
        requiredViolations o rules path ++
        ((propertyRules rules).attach.flatMap fun m =>
          match Json.find? o m.1.1 with
          | none => []
          | some v => validateInto v m.1.2 (path ++ "." ++ m.1.1)) ++
        additionalViolations o rules path) ++
    (match value.ifArray with
      | none => []
      | some items =>
        (Json.find? rules "items").attach.elim [] fun sub =>
          items.zipIdx.flatMap fun v => validateInto v.1 sub.1 (path ++ "[" ++ toString v.2 ++ "]"))
  | _ => []
termination_by sizeOf schema
decreasing_by
  · exact sizeOf_variants rules v.2
  · exact sizeOf_propertyRules rules m.2
  · exact sizeOf_find? sub.2

/-! What a schema means -/

/-- The value meets the keywords of the schema: exactly one variant, no unexpected key, numbers by value. -/
def accepts (value schema : Json) : Bool :=
  match schema with
  | .obj rules =>
    (Json.find? rules "const").all (sameValue value) &&
    (Json.arrayField rules "enum").all (fun items => items.any fun item => sameValue item value) &&
    ((Json.arrayField rules "oneOf").isNone || ((variants rules).attach.countP fun v => accepts value v.1) == 1) &&
    (allowedTypes rules).all (fun names => names.any (hasType isWhole value)) &&
    value.ifObject.all (fun o =>
      (requiredNames rules).all (fun name => (Json.find? o name).isSome) &&
      (propertyRules rules).attach.all (fun m => (Json.find? o m.1.1).all fun v => accepts v m.1.2) &&
      (!closed rules || o.all fun m => (Json.find? (propertyRules rules) m.1).isSome)) &&
    value.ifArray.all (fun items =>
      (Json.find? rules "items").attach.all fun sub => items.all fun v => accepts v sub.1)
  | _ => true
termination_by sizeOf schema
decreasing_by
  · exact sizeOf_variants rules v.2
  · exact sizeOf_propertyRules rules m.2
  · exact sizeOf_find? sub.2

/-- The variants up to the first one that accepts the value. -/
def reached (value : Json) (rules : Json.Members) : List Json :=
  (variants rules).takeWhile (!accepts value ·) ++ ((variants rules).dropWhile (!accepts value ·)).take 1

/-- What the check and the meaning agree on, wherever the check comes: no constant and no type tells numbers of one value
apart, at most one variant accepts, and a closed object names its properties. -/
inductive Fits : Json → Json → Prop
  | free {value schema : Json} (bare : schema.ifObject = none) : Fits value schema
  | rules {value : Json} {rules : Json.Members}
      (const : ∀ constant ∈ Json.find? rules "const", sameValue value constant = true → libraryEqual value constant = true)
      (enum : ∀ items ∈ Json.arrayField rules "enum", ∀ item ∈ items, sameValue item value = true →
        ∃ other ∈ items, libraryEqual other value = true)
      (type : ∀ names ∈ allowedTypes rules, ∀ name ∈ names, hasType isWhole value name = true →
        ∃ other ∈ names, typeMatches value other = true)
      (each : ∀ v ∈ reached value rules, Fits value v)
      (one : (variants rules).countP (accepts value) ≤ 1)
      (properties : ∀ o ∈ value.ifObject, ∀ m ∈ propertyRules rules, ∀ v ∈ Json.find? o m.1, Fits v m.2)
      (named : ∀ o ∈ value.ifObject, closed rules = true → (Json.objectField rules "properties").isSome = true ∨ o = [])
      (items : ∀ array ∈ value.ifArray, ∀ sub ∈ Json.find? rules "items", ∀ v ∈ array, Fits v sub) :
      Fits value (.obj rules)

/-! Keyword by keyword -/

section
variable {value : Json} {rules : Json.Members} {path : String}

theorem reports_nil {b : Bool} {text : String} : (if b then [] else [text]) = [] ↔ b = true := by
  cases b <;> simp

theorem constant_nil (const : ∀ constant ∈ Json.find? rules "const", sameValue value constant = true → libraryEqual value constant = true) :
    constantViolations value rules path = [] ↔ (Json.find? rules "const").all (sameValue value) = true := by
  unfold constantViolations
  cases found : Json.find? rules "const" with
  | none => exact iff_of_true rfl rfl
  | some constant =>
      have agrees : libraryEqual value constant = sameValue value constant :=
        Bool.eq_iff_iff.mpr ⟨sameValue_of_equal value constant, const constant found⟩
      dsimp only
      rw [agrees, Option.all_some]
      exact reports_nil

theorem enum_nil (enum : ∀ items ∈ Json.arrayField rules "enum", ∀ item ∈ items, sameValue item value = true →
      ∃ other ∈ items, libraryEqual other value = true) : enumViolations value rules path = [] ↔
    (Json.arrayField rules "enum").all (fun items => items.any fun item => sameValue item value) = true := by
  unfold enumViolations
  cases found : Json.arrayField rules "enum" with
  | none => exact iff_of_true rfl rfl
  | some items =>
      have agrees : (items.any fun item => libraryEqual item value) = items.any fun item => sameValue item value := by
        rw [Bool.eq_iff_iff, List.any_eq_true, List.any_eq_true]
        constructor
        · rintro ⟨item, member, equal⟩
          exact ⟨item, member, sameValue_of_equal item value equal⟩
        · rintro ⟨item, member, same⟩
          exact enum items found item member same
      dsimp only
      rw [agrees, Option.all_some]
      exact reports_nil

theorem type_nil (type : ∀ names ∈ allowedTypes rules, ∀ name ∈ names, hasType isWhole value name = true →
      ∃ other ∈ names, typeMatches value other = true) : typeViolations value rules path = [] ↔
    (allowedTypes rules).all (fun names => names.any (hasType isWhole value)) = true := by
  unfold typeViolations
  cases found : allowedTypes rules with
  | none => exact iff_of_true rfl rfl
  | some names =>
      have agrees : names.any (typeMatches value) = names.any (hasType isWhole value) := by
        rw [Bool.eq_iff_iff, List.any_eq_true, List.any_eq_true]
        constructor
        · rintro ⟨name, member, matched⟩
          exact ⟨name, member, hasType_of_matches matched⟩
        · rintro ⟨name, member, typed⟩
          exact type names found name member typed
      dsimp only
      rw [agrees, Option.all_some]
      exact reports_nil

theorem required_nil {o : Json.Members} : requiredViolations o rules path = [] ↔
    (requiredNames rules).all (fun name => (Json.find? o name).isSome) = true := by
  unfold requiredViolations
  rw [List.filterMap_eq_nil_iff, List.all_eq_true]
  refine forall₂_congr fun name _ => ?_
  cases Json.find? o name <;> simp

theorem additional_nil {o : Json.Members} (named : closed rules = true → (Json.objectField rules "properties").isSome = true ∨ o = []) :
    additionalViolations o rules path = [] ↔
      (!closed rules || o.all fun m => (Json.find? (propertyRules rules) m.1).isSome) = true := by
  unfold additionalViolations propertyRules
  cases shut : closed rules with
  | false => cases Json.objectField rules "properties" <;> simp
  | true =>
      rcases named shut with some | rfl
      · obtain ⟨properties, found⟩ := Option.isSome_iff_exists.mp some
        rw [found]
        simp only [Option.getD_some, if_true, Bool.not_true, Bool.false_or, List.filterMap_eq_nil_iff, List.all_eq_true]
        refine forall₂_congr fun m _ => ?_
        cases Json.find? properties m.1 <;> simp
      · cases Json.objectField rules "properties" <;> simp

/-- The check of an object schema, keyword by keyword. -/
theorem validateInto_nil : validateInto value (.obj rules) path = [] ↔
    constantViolations value rules path = [] ∧ enumViolations value rules path = [] ∧
    ((Json.arrayField rules "oneOf").isSome = true → ∃ v ∈ variants rules, validateInto value v path = []) ∧
    typeViolations value rules path = [] ∧
    (∀ o ∈ value.ifObject, requiredViolations o rules path = [] ∧
      (∀ m ∈ propertyRules rules, ∀ v ∈ Json.find? o m.1, validateInto v m.2 (path ++ "." ++ m.1) = []) ∧
      additionalViolations o rules path = []) ∧
    ∀ array ∈ value.ifArray, ∀ sub ∈ Json.find? rules "items", ∀ v ∈ array.zipIdx,
      validateInto v.1 sub (path ++ "[" ++ toString v.2 ++ "]") = [] := by
  rw [validateInto]
  simp only [List.append_eq_nil_iff, and_assoc]
  refine and_congr_right' (and_congr_right' (and_congr ?_ (and_congr_right' (and_congr ?_ ?_))))
  · cases (Json.arrayField rules "oneOf").isSome <;> simp
  · cases value.ifObject with
    | none => simp
    | some o =>
        simp only [List.append_eq_nil_iff, List.flatMap_eq_nil_iff, and_assoc, Option.mem_def, Option.some.injEq, forall_eq']
        refine and_congr_right' (and_congr_left' ?_)
        constructor
        · intro nothing m member v found
          have own := nothing ⟨m, member⟩ (List.mem_attach _ _)
          rwa [found] at own
        · rintro nothing ⟨m, member⟩ -
          cases found : Json.find? o m.1 with
          | none => rfl
          | some v => exact nothing m member v found
  · cases value.ifArray with
    | none => simp
    | some items => cases Json.find? rules "items" <;> simp

theorem accepts_obj : accepts value (.obj rules) = true ↔
    (Json.find? rules "const").all (sameValue value) = true ∧
    (Json.arrayField rules "enum").all (fun items => items.any fun item => sameValue item value) = true ∧
    ((Json.arrayField rules "oneOf").isSome = true → (variants rules).countP (accepts value) = 1) ∧
    (allowedTypes rules).all (fun names => names.any (hasType isWhole value)) = true ∧
    (∀ o ∈ value.ifObject, (requiredNames rules).all (fun name => (Json.find? o name).isSome) = true ∧
      (∀ m ∈ propertyRules rules, ∀ v ∈ Json.find? o m.1, accepts v m.2 = true) ∧
      (!closed rules || o.all fun m => (Json.find? (propertyRules rules) m.1).isSome) = true) ∧
    ∀ array ∈ value.ifArray, ∀ sub ∈ Json.find? rules "items", ∀ v ∈ array, accepts v sub = true := by
  rw [accepts]
  simp only [Bool.and_eq_true, and_assoc]
  refine and_congr_right' (and_congr_right' (and_congr ?_ (and_congr_right' (and_congr ?_ ?_))))
  · cases (Json.arrayField rules "oneOf") <;> simp
  · cases value.ifObject with
    | none => simp
    | some o =>
        simp only [Option.all_some, Bool.and_eq_true, and_assoc, Option.mem_def, Option.some.injEq, forall_eq']
        refine and_congr_right' (and_congr_left' ?_)
        rw [List.all_eq_true]
        constructor
        · intro accepted m member v found
          have own := accepted ⟨m, member⟩ (List.mem_attach _ _)
          rwa [found] at own
        · rintro accepted ⟨m, member⟩ -
          cases found : Json.find? o m.1 with
          | none => rfl
          | some v => exact accepted m member v found
  · cases value.ifArray with
    | none => simp
    | some items => cases Json.find? rules "items" <;> simp

theorem variant_agrees (each : ∀ v ∈ reached value rules, validateInto value v path = [] ↔ accepts value v = true)
    (one : (variants rules).countP (accepts value) ≤ 1) :
    (∃ v ∈ variants rules, validateInto value v path = []) ↔ (variants rules).countP (accepts value) = 1 := by
  cases rest : (variants rules).dropWhile (!accepts value ·) with
  | nil =>
      have refused : ∀ v ∈ variants rules, accepts value v = false := fun v member => by
        simpa using List.dropWhile_eq_nil_iff.mp rest v member
      have all : reached value rules = variants rules := by
        rw [reached, rest, List.take_nil, List.append_nil]
        exact List.takeWhile_eq_self_iff.mpr fun v member => by rw [refused v member, Bool.not_false]
      have zero : (variants rules).countP (accepts value) = 0 :=
        List.countP_eq_zero.mpr fun v member => by simp [refused v member]
      refine iff_of_false ?_ (by rw [zero]; decide)
      rintro ⟨v, member, passed⟩
      have accepted := (each v (all ▸ member)).mp passed
      rw [refused v member] at accepted
      cases accepted
  | cons first others =>
      have member : first ∈ variants rules := (List.dropWhile_sublist _).subset (rest ▸ List.mem_cons_self)
      have accepted : accepts value first = true := by
        have head := List.head_dropWhile_not (!accepts value ·) (l := variants rules) (by rw [rest]; exact List.cons_ne_nil _ _)
        simpa [rest] using head
      have there : first ∈ reached value rules := by
        rw [reached, rest]
        exact List.mem_append_right _ List.mem_cons_self
      have some : 0 < (variants rules).countP (accepts value) := List.countP_pos_iff.mpr ⟨first, member, accepted⟩
      exact iff_of_true ⟨first, member, (each first there).mpr accepted⟩ (by omega)

end

/-- Where a schema and a value fit, the check has no violation exactly when the schema accepts the value. -/
theorem validateInto_agrees (value schema : Json) (fits : Fits value schema) (path : String) :
    validateInto value schema path = [] ↔ accepts value schema = true := by
  induction fits generalizing path with
  | @free value schema bare =>
      cases schema with
      | obj rules => cases bare
      | _ => exact iff_of_true (by rw [validateInto]; nofun) (by rw [accepts]; nofun)
  | rules const enum type each one properties named items ihEach ihProperties ihItems =>
      rw [validateInto_nil, accepts_obj, constant_nil const, enum_nil enum, type_nil type]
      refine and_congr_right' (and_congr_right' (and_congr ?_ (and_congr_right' (and_congr ?_ ?_))))
      · exact forall_congr' fun _ => variant_agrees (fun v member => ihEach v member path) one
      · refine forall₂_congr fun o object => and_congr required_nil (and_congr ?_ (additional_nil (named o object)))
        exact forall₂_congr fun m member => forall₂_congr fun v found => ihProperties o object m member v found _
      · refine forall₂_congr fun array listed => forall₂_congr fun sub found => ?_
        constructor
        · intro nothing v member
          obtain ⟨i, there⟩ := List.mem_iff_getElem?.mp member
          have own := nothing (v, i) (List.mem_zipIdx_iff_getElem?.mpr there)
          exact (ihItems array listed sub found v member _).mp own
        · intro accepted v member
          have there := List.fst_mem_of_mem_zipIdx member
          exact (ihItems array listed sub found v.1 there _).mpr (accepted v.1 there)

def ofType (name : String) : Json := .obj [("type", .str name)]

/-- A schema of properties that fits: an object with a count. -/
theorem validateInto_agrees_count : validateInto (.obj [("count", .int 1)])
      (.obj [("properties", .obj [("count", ofType "integer")]), ("additionalProperties", .bool false)]) "$" = [] ↔
    accepts (.obj [("count", .int 1)])
      (.obj [("properties", .obj [("count", ofType "integer")]), ("additionalProperties", .bool false)]) = true := by
  have count : Fits (.int 1) (ofType "integer") := by
    refine .rules ?_ ?_ ?_ ?_ ?_ ?_ ?_ ?_ <;>
      simp [Json.arrayField, allowedTypes, variants, reached, propertyRules, Json.objectField, Json.ifObject, Json.ifArray, typeMatches,
        hasType, isInteger]
  refine validateInto_agrees _ _ (.rules ?_ ?_ ?_ ?_ ?_ ?_ ?_ ?_) "$"
  · simp
  · simp [Json.arrayField]
  · simp [allowedTypes]
  · simp [reached, variants, Json.arrayField]
  · simp [variants, Json.arrayField]
  · simpa [propertyRules, Json.objectField] using count
  · simp [Json.objectField]
  · simp [Json.ifArray]

/-- One is an integer and a number. -/
theorem validateInto_oneOf : ¬ ∀ value schema path, validateInto value schema path = [] ↔ accepts value schema = true := by
  intro agrees
  have whole : isWhole (.int 1) = true := isWhole_of_integer rfl
  have integer : accepts (.int 1) (ofType "integer") = true := by
    simp [ofType, accepts, Json.arrayField, allowedTypes, hasType, Json.ifObject, Json.ifArray, whole]
  have number : accepts (.int 1) (ofType "number") = true := by
    simp [ofType, accepts, Json.arrayField, allowedTypes, hasType, Json.ifObject, Json.ifArray, isNumber]
  have both := agrees (.int 1) (.obj [("oneOf", .arr [ofType "integer", ofType "number"])]) "$"
  have passes : validateInto (.int 1) (.obj [("oneOf", .arr [ofType "integer", ofType "number"])]) "$" = [] := by
    simp [ofType, validateInto, constantViolations, enumViolations, typeViolations, allowedTypes, variants, Json.arrayField,
      typeMatches, hasType, isInteger, isNumber, Json.ifObject, Json.ifArray]
  obtain ⟨-, -, one, -⟩ := accepts_obj.mp (both.mp passes)
  have two : [ofType "integer", ofType "number"].countP (accepts (.int 1)) = 2 := by
    rw [List.countP_cons_of_pos integer, List.countP_cons_of_pos number, List.countP_nil]
  exact absurd (two.symm.trans (one rfl)) (by decide)

end Araya.Subagents
