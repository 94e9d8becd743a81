import Araya.Mcp.Swap
import Araya.Util.Strings

/-!
The public names of tools. A name that needs no change is passed on as it is, any other is cut and carries a digest of
the server and the tool; so two names can be the same when the bare joins are, or when one spells out the other.
-/

namespace Araya.Mcp

/-- A character of the function-name contract. -/
def nameChar (c : Char) : Bool := c.isAlphanum || c == '_' || c == '-'

/-- `valid_server_name`: what the configuration accepts. -/
def validServerName (name : String) : Bool := !name.isEmpty && decide (name.length ≤ 32) && name.toList.all nameChar

/-- The hex digits of a digest. -/
def sha256Hex (digest : String → List UInt8) (data : String) : String :=
  String.ofList ((digest data).flatMap fun b => [Json.hexDigit (b.toNat / 16), Json.hexDigit b.toNat])

def joinedName (server rawName : String) : String := "mcp__" ++ server ++ "__" ++ rawName

/-- What the digest is taken of. -/
def toolIdentity (server rawName : String) : String := server ++ String.singleton (Char.ofNat 0) ++ rawName

/-- The join is kept as it is. -/
def Unchanged (server rawName : String) : Prop :=
  normalized (joinedName server rawName) = joinedName server rawName ∧
    (normalized (joinedName server rawName)).length ≤ maxPublicNameLength

section
variable (digest : String → List UInt8)

/-- What of its digest a name carries. -/
def nameHash (server rawName : String) : List Char := (sha256Hex digest (toolIdentity server rawName)).toList.take hashLength

/-- The join with its bad characters replaced, cut, and the digest behind it. -/
def lossyName (server rawName : String) : String :=
  String.ofList ((normalized (joinedName server rawName)).toList.take (maxPublicNameLength - hashLength - 1)) ++ "_" ++
    String.ofList (nameHash digest server rawName)

/-- The joins are one and stay as they are, or one stays as it is and spells out the other with its digest. -/
def Clash (server rawName server' rawName' : String) : Prop :=
  Unchanged server rawName ∧ Unchanged server' rawName' ∧ server ++ "__" ++ rawName = server' ++ "__" ++ rawName' ∨
    Unchanged server rawName ∧ ¬ Unchanged server' rawName' ∧ joinedName server rawName = lossyName digest server' rawName' ∨
      ¬ Unchanged server rawName ∧ Unchanged server' rawName' ∧ joinedName server' rawName' = lossyName digest server rawName

end

section
variable {digest : String → List UInt8} {server server' rawName rawName' : String}

theorem publicToolName_unchanged (plain : Unchanged server rawName) :
    publicToolName (sha256Hex digest) server rawName = joinedName server rawName := by
  unfold publicToolName
  dsimp only
  exact (if_pos plain).trans plain.1

theorem publicToolName_lossy (changed : ¬ Unchanged server rawName) :
    publicToolName (sha256Hex digest) server rawName = lossyName digest server rawName := by
  unfold publicToolName
  dsimp only
  exact if_neg changed

/-! Safe names -/

theorem normalized_char {joined : String} {c : Char} (member : c ∈ (normalized joined).toList) : nameChar c = true := by
  have bytes : ∀ n < 256, invalidNameChar (UInt8.ofNat n) = false → nameChar (Char.ofNat n) = true := by decide +kernel
  unfold normalized at member
  rw [String.toList_ofList] at member
  obtain ⟨b, -, rfl⟩ := List.mem_map.mp member
  cases invalid : invalidNameChar b with
  | true => rfl
  | false =>
      rw [if_neg Bool.false_ne_true]
      refine bytes b.toNat b.toNat_lt ?_
      rwa [UInt8.ofNat_toNat]

theorem hexDigit_char (n : Nat) : nameChar (Json.hexDigit n) = true := by
  have digits : ∀ n < 16, nameChar (Nat.digitChar n) = true := by decide
  exact digits _ (Nat.mod_lt n (by decide))

theorem nameHash_char {c : Char} (member : c ∈ nameHash digest server rawName) : nameChar c = true := by
  have hex := List.mem_of_mem_take member
  unfold sha256Hex at hex
  rw [String.toList_ofList] at hex
  obtain ⟨b, -, here⟩ := List.mem_flatMap.mp hex
  rcases List.mem_cons.mp here with rfl | here
  · exact hexDigit_char _
  · rw [List.mem_singleton.mp here]
    exact hexDigit_char _

theorem lossyName_toList : (lossyName digest server rawName).toList =
    (normalized (joinedName server rawName)).toList.take (maxPublicNameLength - hashLength - 1) ++
      '_' :: nameHash digest server rawName := by
  unfold lossyName
  rw [String.toList_append, String.toList_append, String.toList_ofList, String.toList_ofList, List.append_assoc]
  rw [String.toList_ofList, List.singleton_append]

theorem nameHash_length : (nameHash digest server rawName).length ≤ hashLength := List.length_take_le _ _

theorem publicToolName_safe : (publicToolName (sha256Hex digest) server rawName).length ≤ maxPublicNameLength ∧
    ∀ c ∈ (publicToolName (sha256Hex digest) server rawName).toList, nameChar c = true := by
  by_cases plain : Unchanged server rawName
  · rw [publicToolName_unchanged plain, ← plain.1]
    exact ⟨plain.2, fun c => normalized_char⟩
  · rw [publicToolName_lossy plain, ← String.length_toList, lossyName_toList]
    constructor
    · have front := List.length_take_le (maxPublicNameLength - hashLength - 1) (normalized (joinedName server rawName)).toList
      have back : (nameHash digest server rawName).length ≤ hashLength := nameHash_length
      rw [List.length_append, List.length_cons]
      have whole : maxPublicNameLength - hashLength - 1 + (hashLength + 1) = maxPublicNameLength := rfl
      omega
    · intro c member
      rcases List.mem_append.mp member with member | member
      · exact normalized_char (List.mem_of_mem_take member)
      · rcases List.mem_cons.mp member with rfl | member
        · rfl
        · exact nameHash_char member

/-! Distinct names -/

theorem validServerName_char (valid : validServerName server = true) {c : Char} (member : c ∈ server.toList) : nameChar c = true := by
  unfold validServerName at valid
  exact List.all_eq_true.mp (Bool.and_eq_true_iff.mp valid).2 c member

/-- A digest is taken of one server and one tool. -/
theorem toolIdentity_injective (valid : validServerName server = true) (valid' : validServerName server' = true)
    (same : toolIdentity server rawName = toolIdentity server' rawName') : server = server' ∧ rawName = rawName' := by
  have chars := congrArg String.toList same
  unfold toolIdentity at chars
  simp only [String.toList_append, String.toList_singleton, List.append_assoc, List.singleton_append] at chars
  have off {name : String} (valid : validServerName name = true) : Char.ofNat 0 ∉ name.toList := fun member =>
    absurd (validServerName_char valid member) (by decide)
  obtain ⟨front, back⟩ := split_first chars (off valid) (off valid')
  exact ⟨String.toList_inj.mp front, String.toList_inj.mp back⟩

theorem joinedName_eq_iff : joinedName server rawName = joinedName server' rawName' ↔
    server ++ "__" ++ rawName = server' ++ "__" ++ rawName' := by
  simp only [joinedName, String.append_assoc, String.append_right_inj]

theorem hexDigits_length (bytes : List UInt8) :
    (bytes.flatMap fun b => [Json.hexDigit (b.toNat / 16), Json.hexDigit b.toNat]).length = 2 * bytes.length := by
  induction bytes with
  | nil => rfl
  | cons b bytes ih =>
      have longer : (b :: bytes).length = bytes.length + 1 := rfl
      rw [List.flatMap_cons, List.length_append, ih, longer, Nat.mul_succ, Nat.add_comm]
      rfl

theorem nameHash_full (sized : ∀ data, (digest data).length = 32) : (nameHash digest server rawName).length = hashLength := by
  unfold nameHash sha256Hex
  rw [String.toList_ofList, List.length_take, hexDigits_length, sized]
  rfl

/-- Two names with a digest are one only for one digest. -/
theorem lossyName_injective (sized : ∀ data, (digest data).length = 32)
    (same : lossyName digest server rawName = lossyName digest server' rawName') :
    nameHash digest server rawName = nameHash digest server' rawName' := by
  have chars := congrArg String.toList same
  rw [lossyName_toList, lossyName_toList] at chars
  have lengths : ('_' :: nameHash digest server rawName).length = ('_' :: nameHash digest server' rawName').length := by
    rw [List.length_cons, List.length_cons, nameHash_full sized, nameHash_full sized]
  exact (List.cons.inj (List.append_inj' chars lengths).2).2

theorem names_differ_iff (sized : ∀ data, (digest data).length = 32) (valid : validServerName server = true)
    (valid' : validServerName server' = true) (apart : (server, rawName) ≠ (server', rawName'))
    (injective : nameHash digest server rawName = nameHash digest server' rawName' →
      toolIdentity server rawName = toolIdentity server' rawName') :
    publicToolName (sha256Hex digest) server rawName ≠ publicToolName (sha256Hex digest) server' rawName' ↔
      ¬ Clash digest server rawName server' rawName' := by
  rw [ne_eq, not_iff_not]
  unfold Clash
  by_cases plain : Unchanged server rawName <;> by_cases plain' : Unchanged server' rawName'
  · rw [publicToolName_unchanged plain, publicToolName_unchanged plain', joinedName_eq_iff]
    simp only [plain, plain', true_and, not_true_eq_false, false_and, or_false]
  · rw [publicToolName_unchanged plain, publicToolName_lossy plain']
    simp only [plain, plain', true_and, not_true_eq_false, not_false_eq_true, false_and, false_or, or_false]
  · rw [publicToolName_lossy plain, publicToolName_unchanged plain']
    simp only [plain, plain', true_and, not_true_eq_false, not_false_eq_true, false_and, false_or]
    exact eq_comm
  · rw [publicToolName_lossy plain, publicToolName_lossy plain']
    simp only [plain, plain', false_and, and_false, or_false, iff_false]
    intro same
    obtain ⟨rfl, rfl⟩ := toolIdentity_injective valid valid' (injective (lossyName_injective sized same))
    exact apart rfl

end

/-- Every public name keeps the function-name contract; and the names of two tools differ, where the digests do, unless
the joins are one and stay as they are, or one name spells out the other with its digest. -/
theorem public_names_iff (digest : String → List UInt8) (sized : ∀ data, (digest data).length = 32) :
    (∀ server rawName, (publicToolName (sha256Hex digest) server rawName).length ≤ maxPublicNameLength ∧
      ∀ c ∈ (publicToolName (sha256Hex digest) server rawName).toList, nameChar c = true) ∧
    ∀ server rawName server' rawName', validServerName server = true → validServerName server' = true →
      (server, rawName) ≠ (server', rawName') → (nameHash digest server rawName = nameHash digest server' rawName' →
        toolIdentity server rawName = toolIdentity server' rawName') →
      (publicToolName (sha256Hex digest) server rawName ≠ publicToolName (sha256Hex digest) server' rawName' ↔
        ¬ Clash digest server rawName server' rawName') :=
  ⟨fun _ _ => publicToolName_safe, fun _ _ _ _ valid valid' apart injective =>
    names_differ_iff sized valid valid' apart injective⟩

/-- The SHA-256 digests of two tools of one server. -/
def twoDigests (data : String) : List UInt8 :=
  if data = toolIdentity "a-b_c" "x.y" then
    [61, 106, 209, 198, 242, 62, 71, 66, 104, 108, 68, 65, 77, 246, 222, 41, 103, 79, 200, 192, 156, 32, 198, 174, 130, 162, 68,
      29, 101, 18, 51, 110]
  else if data = toolIdentity "a-b_c" "x:y" then
    [239, 30, 22, 33, 143, 84, 234, 14, 74, 41, 28, 45, 114, 42, 105, 223, 71, 189, 74, 6, 20, 214, 60, 95, 27, 168, 152, 71, 34,
      237, 141, 112]
  else List.replicate 32 0

theorem twoDigests_sized (data : String) : (twoDigests data).length = 32 := by
  unfold twoDigests
  split
  · rfl
  · split <;> rfl

/-- Two tools whose names differ in a character that is replaced. -/
theorem public_names_lossy : publicToolName (sha256Hex twoDigests) "a-b_c" "x.y" ≠
    publicToolName (sha256Hex twoDigests) "a-b_c" "x:y" := by
  refine ((public_names_iff twoDigests twoDigests_sized).2 "a-b_c" "x.y" "a-b_c" "x:y" (by decide) (by decide) (by decide)
    fun same => absurd same (by decide +kernel)).mpr ?_
  have changed : normalized (joinedName "a-b_c" "x.y") ≠ joinedName "a-b_c" "x.y" ∧
      normalized (joinedName "a-b_c" "x:y") ≠ joinedName "a-b_c" "x:y" := by decide +kernel
  rintro (⟨plain, -⟩ | ⟨plain, -⟩ | ⟨-, plain, -⟩)
  · exact changed.1 plain.1
  · exact changed.1 plain.1
  · exact changed.2 plain.1

/-- Two servers the configuration accepts and one name, whatever the digest. -/
theorem public_names_collide : validServerName "a" = true ∧ validServerName "a__b" = true ∧
    ∀ digest : String → List UInt8,
      publicToolName (sha256Hex digest) "a" "b__c" = publicToolName (sha256Hex digest) "a__b" "c" := by
  have plain : Unchanged "a" "b__c" ∧ Unchanged "a__b" "c" := by
    unfold Unchanged
    decide +kernel
  refine ⟨by decide, by decide, fun digest => ?_⟩
  rw [publicToolName_unchanged plain.1, publicToolName_unchanged plain.2]
  rfl

end Araya.Mcp
