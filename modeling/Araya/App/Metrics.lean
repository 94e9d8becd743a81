import Araya.Llm.Sse

/-!
Display columns of text. The decoder reads one code point at a time and takes whatever is no well-formed sequence as a
single byte; it looks no further than at continuation bytes, so a text can be cut before any other byte.
-/

namespace Araya.App
open Llm (Bytes newline space)

def tab : UInt8 := 9

/-- A byte that only stands behind another one of its sequence. -/
def Continuation (b : UInt8) : Prop := b &&& 0xC0 = 0x80

instance (b : UInt8) : Decidable (Continuation b) := inferInstanceAs (Decidable (_ = _))

/-- The continuation bytes of a sequence: the code point with their bits. -/
def follow : Nat → Nat → Bytes → Option Nat
  | 0, cp, _ => some cp
  | _ + 1, _, [] => none
  | need + 1, cp, b :: rest => if Continuation b then follow need (cp <<< 6 ||| (b &&& 0x3F).toNat) rest else none

/-- How many bytes a first byte announces, and its bits of the code point. -/
def announced (first : UInt8) : Option (Nat × Nat) :=
  if first &&& 0xE0 = 0xC0 then some (1, (first &&& 0x1F).toNat)
  else if first &&& 0xF0 = 0xE0 then some (2, (first &&& 0x0F).toNat)
  else if first &&& 0xF8 = 0xF0 then some (3, (first &&& 0x07).toNat)
  else none

/-- Overlong, no scalar value, or out of range. -/
def rejected (need cp : Nat) : Bool :=
  need == 1 && cp < 0x80 || need == 2 && cp < 0x800 || need == 3 && cp < 0x10000 || 0x10FFFF < cp ||
    0xD800 ≤ cp && cp ≤ 0xDFFF

/-- The code point at the front and how many bytes stand behind its first; what is malformed is its first byte alone. -/
def utf8Decode (first : UInt8) (rest : Bytes) : Nat × Nat :=
  if first < 0x80 then (first.toNat, 0)
  else
    match announced first with
    | none => (first.toNat, 0)
    | some (need, bits) =>
      match follow need bits rest with
      | none => (first.toNat, 0)
      | some cp => if rejected need cp then (first.toNat, 0) else (cp, need)

def inCodepointRange (cp lo hi : Nat) : Bool := lo ≤ cp && cp ≤ hi

def zeroWidth : List (Nat × Nat) :=
  [(0x0300, 0x036F), (0x1AB0, 0x1AFF), (0x1DC0, 0x1DFF), (0x20D0, 0x20FF), (0xFE00, 0xFE0F), (0xFE20, 0xFE2F),
    (0x200B, 0x200F), (0xFEFF, 0xFEFF)]

def doubleWidth : List (Nat × Nat) :=
  [(0x1100, 0x115F), (0x2329, 0x232A), (0x2E80, 0x303E), (0x3041, 0x33FF), (0x3400, 0x4DBF), (0x4E00, 0x9FFF),
    (0xA000, 0xA4CF), (0xA960, 0xA97F), (0xAC00, 0xD7A3), (0xF900, 0xFAFF), (0xFE10, 0xFE19), (0xFE30, 0xFE6F),
    (0xFF00, 0xFF60), (0xFFE0, 0xFFE6), (0x1F300, 0x1FAFF), (0x20000, 0x3FFFD)]

def codepointWidth (cp : Nat) : Nat :=
  if cp == 0 || cp < 0x20 || inCodepointRange cp 0x7F 0x9F then 0
  else if zeroWidth.any fun r => inCodepointRange cp r.1 r.2 then 0
  else if doubleWidth.any fun r => inCodepointRange cp r.1 r.2 then 2
  else 1

def displayWidth : Bytes → Nat
  | [] => 0
  | b :: rest => codepointWidth (utf8Decode b rest).1 + displayWidth (rest.drop (utf8Decode b rest).2)
termination_by text => text.length
decreasing_by exact Nat.lt_succ_of_le (List.length_drop ▸ Nat.sub_le ..)

/-- The loop of `utf8PrefixBytes`, behind `pos` bytes of `width` columns. -/
def prefixLoop (maxColumns : Nat) (pos width : Nat) : Bytes → Nat
  | [] => pos
  | b :: rest =>
    if 0 < pos ∧ maxColumns < width + codepointWidth (utf8Decode b rest).1 then pos
    else
      prefixLoop maxColumns (pos + ((utf8Decode b rest).2 + 1)) (width + codepointWidth (utf8Decode b rest).1)
        (rest.drop (utf8Decode b rest).2)
termination_by text => text.length
decreasing_by exact Nat.lt_succ_of_le (List.length_drop ▸ Nat.sub_le ..)

def utf8PrefixBytes (text : Bytes) (maxColumns : Nat) : Nat :=
  if prefixLoop maxColumns 0 0 text = 0 ∧ text ≠ [] then 1 else prefixLoop maxColumns 0 0 text

/-! Code points -/

structure Codepoint where
  bytes : Bytes
  value : Nat

/-- The text as the decoder reads it. -/
def codepoints : Bytes → List Codepoint
  | [] => []
  | b :: rest =>
    ⟨b :: rest.take (utf8Decode b rest).2, (utf8Decode b rest).1⟩ :: codepoints (rest.drop (utf8Decode b rest).2)
termination_by text => text.length
decreasing_by exact Nat.lt_succ_of_le (List.length_drop ▸ Nat.sub_le ..)

def columns : List Codepoint → Nat
  | [] => 0
  | c :: cs => codepointWidth c.value + columns cs

theorem columns_append (front back : List Codepoint) : columns (front ++ back) = columns front + columns back := by
  induction front with
  | nil => exact (Nat.zero_add _).symm
  | cons c front ih => rw [List.cons_append, columns, columns, ih, Nat.add_assoc]

theorem codepoints_bytes (text : Bytes) : (codepoints text).flatMap Codepoint.bytes = text := by
  fun_induction codepoints text with
  | case1 => rfl
  | case2 b rest ih => rw [List.flatMap_cons, ih, List.cons_append, List.take_append_drop]

theorem displayWidth_codepoints (text : Bytes) : displayWidth text = columns (codepoints text) := by
  fun_induction codepoints text with
  | case1 => rw [displayWidth, columns]
  | case2 b rest ih => rw [displayWidth, columns, ih]

section
variable {need cp value : Nat} {front more : Bytes}

theorem follow_append (found : follow need cp front = some value) (more : Bytes) :
    follow need cp (front ++ more) = some value := by
  induction front generalizing need cp with
  | nil =>
      cases need with
      | zero => exact found
      | succ need => cases found
  | cons b front ih =>
      cases need with
      | zero => exact found
      | succ need =>
          rw [List.cons_append]
          unfold follow at found ⊢
          split at found
          · rw [if_pos ‹_›]
            exact ih found
          · cases found

theorem follow_take (found : follow need cp (front ++ more) = some value) (enough : need ≤ front.length) :
    follow need cp front = some value := by
  induction front generalizing need cp with
  | nil =>
      cases Nat.le_zero.mp enough
      exact found
  | cons b front ih =>
      cases need with
      | zero => exact found
      | succ need =>
          rw [List.cons_append] at found
          unfold follow at found ⊢
          split at found
          · rw [if_pos ‹_›]
            exact ih found (Nat.le_of_succ_le_succ enough)
          · cases found

/-- A sequence ends before a byte that does not continue it. -/
theorem follow_stop {b : UInt8} (stop : ¬ Continuation b) : follow need cp (front ++ b :: more) = follow need cp front := by
  induction front generalizing need cp with
  | nil =>
      cases need with
      | zero => rfl
      | succ need => exact if_neg stop
  | cons b' front ih =>
      cases need with
      | zero => rfl
      | succ need =>
          rw [List.cons_append]
          unfold follow
          rw [ih]

theorem follow_bytes (found : follow need cp front = some value) :
    need ≤ front.length ∧ ∀ b ∈ front.take need, Continuation b := by
  induction front generalizing need cp with
  | nil =>
      cases need with
      | zero => exact ⟨Nat.le_refl 0, fun b member => by cases member⟩
      | succ need => cases found
  | cons b front ih =>
      cases need with
      | zero => exact ⟨Nat.zero_le _, fun b member => by cases member⟩
      | succ need =>
          unfold follow at found
          split at found
          · obtain ⟨enough, rest⟩ := ih found
            refine ⟨Nat.succ_le_succ enough, fun b' member => ?_⟩
            obtain rfl | later := List.mem_cons.mp member
            · assumption
            · exact rest b' later
          · cases found

end

section
variable {first : UInt8} {rest front more : Bytes}

theorem utf8Decode_cases (first : UInt8) (rest : Bytes) : utf8Decode first rest = (first.toNat, 0) ∨
    ∃ need bits cp, announced first = some (need, bits) ∧ follow need bits rest = some cp ∧ rejected need cp = false ∧
      ¬ first < 0x80 ∧ utf8Decode first rest = (cp, need) := by
  unfold utf8Decode
  split
  · exact .inl rfl
  · rename_i large
    split
    · exact .inl rfl
    · rename_i need bits found
      split
      · exact .inl rfl
      · rename_i cp followed
        split
        · exact .inl rfl
        · rename_i fine
          exact .inr ⟨need, bits, cp, found, followed, Bool.eq_false_iff.mpr fine, large, rfl⟩

theorem utf8Decode_ok {need bits cp : Nat} (large : ¬ first < 0x80) (found : announced first = some (need, bits))
    (followed : follow need bits rest = some cp) (fine : rejected need cp = false) : utf8Decode first rest = (cp, need) := by
  rw [utf8Decode, if_neg large, found]
  dsimp only
  rw [followed]
  exact if_neg (Bool.eq_false_iff.mp fine)

theorem utf8Decode_bytes (first : UInt8) (rest : Bytes) : (utf8Decode first rest).2 ≤ rest.length ∧
    ∀ b ∈ rest.take (utf8Decode first rest).2, Continuation b := by
  obtain single | ⟨need, bits, cp, found, followed, fine, large, decoded⟩ := utf8Decode_cases first rest
  · rw [single]
    exact ⟨Nat.zero_le _, fun b member => by cases member⟩
  · rw [decoded]
    exact follow_bytes followed

theorem utf8Decode_stop {b : UInt8} (stop : ¬ Continuation b) :
    utf8Decode first (front ++ b :: more) = utf8Decode first front := by
  unfold utf8Decode
  simp only [follow_stop stop]

/-- What is read does not depend on the bytes behind it. -/
theorem utf8Decode_take (enough : (utf8Decode first (front ++ more)).2 ≤ front.length) :
    utf8Decode first front = utf8Decode first (front ++ more) := by
  obtain single | ⟨need, bits, cp, found, followed, fine, large, decoded⟩ := utf8Decode_cases first (front ++ more)
  · obtain single' | ⟨need, bits, cp, found, followed, fine, large, decoded⟩ := utf8Decode_cases first front
    · rw [single, single']
    · exact decoded.trans (utf8Decode_ok large found (follow_append followed more) fine).symm
  · rw [decoded] at enough ⊢
    exact utf8Decode_ok large found (follow_take followed enough) fine

end

/-- A text is read in two parts at every byte that begins a code point. -/
theorem codepoints_stop (front more : Bytes) {b : UInt8} (stop : ¬ Continuation b) :
    codepoints (front ++ b :: more) = codepoints front ++ codepoints (b :: more) := by
  fun_induction codepoints front with
  | case1 => rfl
  | case2 first rest ih =>
      have enough := (utf8Decode_bytes first rest).1
      rw [List.cons_append, codepoints, utf8Decode_stop stop, List.take_append_of_le_length enough,
        List.drop_append_of_le_length enough, ih, List.cons_append]

/-- So it is at every place between two code points. -/
theorem codepoints_split {text : Bytes} {front back : List Codepoint} (parts : codepoints text = front ++ back) :
    codepoints (front.flatMap Codepoint.bytes) = front ∧ codepoints (back.flatMap Codepoint.bytes) = back := by
  induction front generalizing text with
  | nil =>
      have whole := codepoints_bytes text
      rw [parts] at whole
      refine ⟨by rw [List.flatMap_nil, codepoints], ?_⟩
      rw [show back.flatMap Codepoint.bytes = text from whole, parts]
      rfl
  | cons c front ih =>
      cases text with
      | nil =>
          rw [codepoints] at parts
          cases parts
      | cons b rest =>
          rw [codepoints, List.cons_append] at parts
          obtain ⟨rfl, later⟩ := List.cons.inj parts
          obtain ⟨left, right⟩ := ih later
          refine ⟨?_, right⟩
          have enough := (utf8Decode_bytes b rest).1
          have whole : rest =
              rest.take (utf8Decode b rest).2 ++ front.flatMap Codepoint.bytes ++ back.flatMap Codepoint.bytes := by
            rw [List.append_assoc, ← List.flatMap_append, ← later, codepoints_bytes, List.take_append_drop]
          have size : (rest.take (utf8Decode b rest).2).length = (utf8Decode b rest).2 := List.length_take_of_le enough
          have same :
              utf8Decode b (rest.take (utf8Decode b rest).2 ++ front.flatMap Codepoint.bytes) = utf8Decode b rest := by
            have inside : (utf8Decode b (rest.take (utf8Decode b rest).2 ++ front.flatMap Codepoint.bytes ++
                back.flatMap Codepoint.bytes)).2 ≤
                  (rest.take (utf8Decode b rest).2 ++ front.flatMap Codepoint.bytes).length := by
              rw [← whole, List.length_append, size]
              exact Nat.le_add_right ..
            exact (utf8Decode_take inside).trans (by rw [← whole])
          rw [List.flatMap_cons, List.cons_append, codepoints, same, List.take_left' size, List.drop_left' size, left]

/-! Single bytes and encoded characters -/

theorem codepoints_ascii {b : UInt8} (plain : b < 0x80) (more : Bytes) :
    codepoints (b :: more) = ⟨[b], b.toNat⟩ :: codepoints more := by
  rw [codepoints, utf8Decode, if_pos plain]
  rfl

theorem lead_two {x : Nat} (small : x < 32) :
    ¬ UInt8.ofNat (x + 0xC0) < 0x80 ∧ announced (UInt8.ofNat (x + 0xC0)) = some (1, x) := by
  have all : ∀ x : Fin 32, ¬ UInt8.ofNat (x + 0xC0) < 0x80 ∧
      announced (UInt8.ofNat (x + 0xC0)) = some (1, x.val) := by decide
  exact all ⟨x, small⟩

theorem lead_three {x : Nat} (small : x < 16) :
    ¬ UInt8.ofNat (x + 0xE0) < 0x80 ∧ announced (UInt8.ofNat (x + 0xE0)) = some (2, x) := by
  have all : ∀ x : Fin 16, ¬ UInt8.ofNat (x + 0xE0) < 0x80 ∧
      announced (UInt8.ofNat (x + 0xE0)) = some (2, x.val) := by decide
  exact all ⟨x, small⟩

theorem lead_four {x : Nat} (small : x < 8) :
    ¬ UInt8.ofNat (x + 0xF0) < 0x80 ∧ announced (UInt8.ofNat (x + 0xF0)) = some (3, x) := by
  have all : ∀ x : Fin 8, ¬ UInt8.ofNat (x + 0xF0) < 0x80 ∧
      announced (UInt8.ofNat (x + 0xF0)) = some (3, x.val) := by decide
  exact all ⟨x, small⟩

theorem continues : ∀ x : Fin 64, Continuation (UInt8.ofNat (x + 0x80)) ∧ (UInt8.ofNat (x + 0x80) &&& 0x3F).toNat = x := by
  decide

theorem follow_step {need cp x : Nat} (small : x < 64) (rest : Bytes) :
    follow (need + 1) cp (UInt8.ofNat (x + 0x80) :: rest) = follow need (cp * 64 + x) rest := by
  obtain ⟨cont, bits⟩ := continues ⟨x, small⟩
  rw [follow, if_pos cont, bits, ← Nat.shiftLeft_add_eq_or_of_lt (show x < 2 ^ 6 from small), Nat.shiftLeft_eq]

theorem announced_stop {first : UInt8} {bits : Nat × Nat} (found : announced first = some bits) : ¬ Continuation first := by
  have all : ∀ n : Fin 256, announced (UInt8.ofNat n) = none ∨ ¬ Continuation (UInt8.ofNat n) := by decide +kernel
  have byte := all ⟨first.toNat, first.toNat_lt⟩
  rw [UInt8.ofNat_toNat] at byte
  exact byte.resolve_left fun none => Option.some_ne_none _ (found.symm.trans none)

theorem codepoints_sequence {first : UInt8} {need bits cp : Nat} {rest : Bytes} (large : ¬ first < 0x80)
    (found : announced first = some (need, bits)) (followed : follow need bits rest = some cp)
    (fine : rejected need cp = false) (size : rest.length = need) (front more : Bytes) :
    codepoints (front ++ (first :: rest ++ more)) = codepoints front ++ ⟨first :: rest, cp⟩ :: codepoints more := by
  have decoded := utf8Decode_ok large found (follow_append followed more) fine
  rw [List.cons_append, codepoints_stop _ _ (announced_stop found), codepoints, decoded, List.take_left' size,
    List.drop_left' size]

theorem rejected_scalar {need cp : Nat} (least : need = 1 ∧ 0x80 ≤ cp ∨ need = 2 ∧ 0x800 ≤ cp ∨ need = 3 ∧ 0x10000 ≤ cp)
    (scalar : cp < 0xD800 ∨ 0xDFFF < cp ∧ cp < 0x110000) : rejected need cp = false := by
  simp only [rejected, Bool.or_eq_false_iff, Bool.and_eq_false_iff, beq_eq_false_iff_ne, decide_eq_false_iff_not]
  omega

/-- A character of several bytes is read as it was encoded. -/
theorem codepoints_char {c : Char} (large : 0x80 ≤ c.val.toNat) (front more : Bytes) :
    codepoints (front ++ (String.utf8EncodeChar c ++ more)) =
      codepoints front ++ ⟨String.utf8EncodeChar c, c.val.toNat⟩ :: codepoints more := by
  have scalar : c.val.toNat < 0xD800 ∨ 0xDFFF < c.val.toNat ∧ c.val.toNat < 0x110000 := c.valid
  unfold String.utf8EncodeChar
  generalize c.val.toNat = v at large scalar
  have low (n : Nat) : n % 0x40 < 64 := Nat.mod_lt n (by decide)
  dsimp only
  split
  · omega
  · split
    · obtain ⟨lead, found⟩ := lead_two (x := v / 64 % 0x20) (Nat.mod_lt _ (by decide))
      refine codepoints_sequence lead found ?_ (rejected_scalar (by omega) scalar) rfl front more
      rw [follow_step (low _), follow]
      congr 1
      omega
    · split
      · obtain ⟨lead, found⟩ := lead_three (x := v / 4096 % 0x10) (Nat.mod_lt _ (by decide))
        refine codepoints_sequence lead found ?_ (rejected_scalar (by omega) scalar) rfl front more
        rw [follow_step (low _), follow_step (low _), follow]
        congr 1
        omega
      · obtain ⟨lead, found⟩ := lead_four (x := v / 262144 % 0x08) (Nat.mod_lt _ (by decide))
        refine codepoints_sequence lead found ?_ (rejected_scalar (by omega) scalar) rfl front more
        rw [follow_step (low _), follow_step (low _), follow_step (low _), follow]
        congr 1
        omega

/-! Prefixes -/

theorem prefixLoop_spec (maxColumns width : Nat) {pos : Nat} (begun : 0 < pos) (text : Bytes) : ∃ front back,
    codepoints text = front ++ back ∧
      prefixLoop maxColumns pos width text = pos + (front.flatMap Codepoint.bytes).length ∧
        (front = [] ∨ width + columns front ≤ maxColumns) := by
  induction size : text.length using Nat.strongRecOn generalizing text pos width with
  | ind n ih =>
      cases text with
      | nil =>
          rw [codepoints, prefixLoop]
          exact ⟨[], [], rfl, rfl, .inl rfl⟩
      | cons b rest =>
          rw [codepoints, prefixLoop]
          split
          · exact ⟨[], _, rfl, rfl, .inl rfl⟩
          · rename_i more
            have fits := Nat.le_of_not_lt fun large => more ⟨begun, large⟩
            obtain ⟨front, back, parts, stop, narrow⟩ := ih (rest.drop (utf8Decode b rest).2).length
              (size ▸ Nat.lt_succ_of_le (List.length_drop ▸ Nat.sub_le ..)) _ (Nat.add_pos_left begun _) _ rfl
            rw [parts]
            refine ⟨_ :: front, back, rfl, ?_, .inr ?_⟩
            · rw [stop, List.flatMap_cons, List.length_append, List.length_cons,
                List.length_take_of_le (utf8Decode_bytes b rest).1, Nat.add_assoc]
            · rw [columns, ← Nat.add_assoc]
              obtain rfl | narrow := narrow
              · exact fits
              · exact narrow

/-- The prefix is some code points that fit, or one that does not. -/
theorem utf8PrefixBytes_spec {text : Bytes} (solid : text ≠ []) (maxColumns : Nat) : ∃ front back,
    codepoints text = front ++ back ∧ utf8PrefixBytes text maxColumns = (front.flatMap Codepoint.bytes).length ∧
      (columns front ≤ maxColumns ∨ ∃ c, front = [c] ∧ maxColumns < codepointWidth c.value) := by
  obtain ⟨b, rest, rfl⟩ := List.exists_cons_of_ne_nil solid
  have size := List.length_take_of_le (utf8Decode_bytes b rest).1
  have loop : prefixLoop maxColumns 0 0 (b :: rest) = prefixLoop maxColumns ((utf8Decode b rest).2 + 1)
      (codepointWidth (utf8Decode b rest).1) (rest.drop (utf8Decode b rest).2) := by
    rw [prefixLoop, if_neg fun stop => absurd stop.1 (Nat.lt_irrefl 0), Nat.zero_add, Nat.zero_add]
  obtain ⟨front, back, parts, stop, narrow⟩ := prefixLoop_spec maxColumns
    (codepointWidth (utf8Decode b rest).1) (Nat.succ_pos (utf8Decode b rest).2) (rest.drop (utf8Decode b rest).2)
  have positive : ¬ (prefixLoop maxColumns 0 0 (b :: rest) = 0 ∧ b :: rest ≠ []) := by
    rw [loop, stop]
    exact fun empty => absurd empty.1 (by omega)
  rw [codepoints, parts, utf8PrefixBytes, if_neg positive, loop, stop]
  refine ⟨_ :: front, back, rfl, ?_, ?_⟩
  · rw [List.flatMap_cons, List.length_append, List.length_cons, size]
  · rw [columns]
    obtain rfl | narrow := narrow
    · by_cases fits : codepointWidth (utf8Decode b rest).1 ≤ maxColumns
      · exact .inl fits
      · exact .inr ⟨_, rfl, Nat.lt_of_not_le fits⟩
    · exact .inl narrow

end Araya.App
