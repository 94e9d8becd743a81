import Araya.Llm.Sse
import Araya.Util.Utf8
import Mathlib.Data.List.TakeWhile
import Mathlib.Tactic.SplitIfs

/-!
Brace alternatives. The tool expands the first brace of a pattern and the results again, as texts. What is meant is the
reading of a pattern as a sequence of characters and choices, whose alternatives are those of its parts combined: a brace
without a partner is a character.
-/

namespace Araya.Glob
open Llm (Bytes)

/-! The tool -/

/-- The text up to the `}` that closes the brace in front, and what follows it. -/
def closeBrace : Nat → Bytes → Option (Bytes × Bytes)
  | _, [] => none
  | depth, c :: rest =>
    if c = '{'.toUInt8 then (closeBrace (depth + 1) rest).map (Prod.map (c :: ·) id)
    else if c = '}'.toUInt8 then
      if depth = 1 then some ([], rest)
      else (closeBrace (depth - 1) rest).map (Prod.map (c :: ·) id)
    else (closeBrace depth rest).map (Prod.map (c :: ·) id)

/-- The depth behind a character. -/
def nesting (nested : Int) (c : UInt8) : Int :=
  let nested := if c = '{'.toUInt8 then nested + 1 else nested
  if c = '}'.toUInt8 then nested - 1 else nested

/-- The options of an inner text, cut at the commas outside of its own braces. -/
def cutOptions (nested : Int) (part : Bytes) : Bytes → List Bytes
  | [] => [part]
  | c :: rest =>
    if c = ','.toUInt8 ∧ nested = 0 then part :: cutOptions nested [] rest
    else cutOptions (nesting nested c) (part ++ [c]) rest

/-- The patterns that take the place of one whose first brace closes. -/
def expandFirst (pattern : Bytes) : Option (List Bytes) :=
  match pattern.dropWhile (· ≠ '{'.toUInt8) with
  | [] => none
  | _ :: rest =>
    (closeBrace 1 rest).map fun (inner, suffix) =>
      (cutOptions 0 [] inner).map fun option => pattern.takeWhile (· ≠ '{'.toUInt8) ++ option ++ suffix

theorem closeBrace_count {depth : Nat} {rest inner suffix : Bytes} (found : closeBrace depth rest = some (inner, suffix)) :
    inner.count '{'.toUInt8 + suffix.count '{'.toUInt8 = rest.count '{'.toUInt8 := by
  induction rest generalizing depth inner with
  | nil => cases found
  | cons c rest ih =>
      unfold closeBrace at found
      split_ifs at found with opens closes last
      · obtain ⟨⟨front, back⟩, deeper, same⟩ := Option.map_eq_some_iff.mp found
        cases same
        have := ih deeper
        simp only [List.count_cons]
        omega
      · cases found
        simp only [List.count_nil, List.count_cons, beq_iff_eq, if_neg opens]
        omega
      · obtain ⟨⟨front, back⟩, deeper, same⟩ := Option.map_eq_some_iff.mp found
        cases same
        have := ih deeper
        simp only [List.count_cons]
        omega
      · obtain ⟨⟨front, back⟩, deeper, same⟩ := Option.map_eq_some_iff.mp found
        cases same
        have := ih deeper
        simp only [List.count_cons]
        omega

theorem cutOptions_count {nested : Int} {part inner option : Bytes} (h : option ∈ cutOptions nested part inner) :
    option.count '{'.toUInt8 ≤ part.count '{'.toUInt8 + inner.count '{'.toUInt8 := by
  induction inner generalizing nested part with
  | nil =>
      rw [List.mem_singleton.mp h]
      exact Nat.le_add_right _ _
  | cons c inner ih =>
      unfold cutOptions at h
      rw [List.count_cons]
      split_ifs at h with comma
      · rcases List.mem_cons.mp h with rfl | later
        · exact Nat.le_add_right _ _
        · have := ih later
          rw [List.count_nil] at this
          omega
      · have := ih h
        rw [List.count_append, List.count_singleton] at this
        omega

theorem expandFirst_count {pattern next : Bytes} {options : List Bytes} (found : expandFirst pattern = some options)
    (h : next ∈ options) : next.count '{'.toUInt8 < pattern.count '{'.toUInt8 := by
  unfold expandFirst at found
  split at found
  · cases found
  · next c rest behind =>
      obtain ⟨⟨inner, suffix⟩, closed, rfl⟩ := Option.map_eq_some_iff.mp found
      obtain ⟨option, listed, rfl⟩ := List.mem_map.mp h
      have whole := List.takeWhile_append_dropWhile (p := (· ≠ '{'.toUInt8)) (l := pattern)
      have first : c = '{'.toUInt8 := by
        have := List.head?_dropWhile_not (· ≠ '{'.toUInt8) pattern
        rw [behind] at this
        simpa using this
      have outer := closeBrace_count closed
      have part := cutOptions_count listed
      rw [List.count_nil] at part
      rw [behind, first] at whole
      conv => rhs; rw [← whole]
      simp only [List.count_append, List.count_cons_self]
      omega

def expandBraces (pattern : Bytes) : List Bytes :=
  match _ : expandFirst pattern with
  | none => [pattern]
  | some options => options.attach.flatMap fun next => expandBraces next.1
termination_by pattern.count '{'.toUInt8
decreasing_by exact expandFirst_count ‹_› next.2

theorem expandBraces_none {pattern : Bytes} (none : expandFirst pattern = none) : expandBraces pattern = [pattern] := by
  rw [expandBraces]
  split
  · rfl
  · next found => cases none.symm.trans found

theorem expandBraces_some {pattern : Bytes} {options : List Bytes} (found : expandFirst pattern = some options) :
    expandBraces pattern = options.flatMap expandBraces := by
  rw [expandBraces]
  split
  · next none => cases none.symm.trans found
  · next same =>
      obtain rfl := Option.some.inj (found.symm.trans same)
      exact (List.flatMap_map ..).symm.trans (congrArg (List.flatMap expandBraces) (List.attach_map_subtype_val options))

/-! What is meant -/

mutual

/-- A pattern as a sequence of characters and choices. -/
inductive Braces where
  | nil
  | char (c : UInt8) (more : Braces)
  | choice (options : Options) (more : Braces)

inductive Options where
  | one (option : Braces)
  | more (option : Braces) (others : Options)

end

mutual

def Braces.text : Braces → Bytes
  | .nil => []
  | .char c more => c :: more.text
  | .choice options more => '{'.toUInt8 :: (options.text ++ '}'.toUInt8 :: more.text)

def Options.text : Options → Bytes
  | .one option => option.text
  | .more option others => option.text ++ ','.toUInt8 :: others.text

end

mutual

/-- The patterns without choices that a sequence stands for. -/
def Braces.alternatives : Braces → List Bytes
  | .nil => [[]]
  | .char c more => more.alternatives.map (c :: ·)
  | .choice options more => options.alternatives.flatMap fun front => more.alternatives.map (front ++ ·)

def Options.alternatives : Options → List Bytes
  | .one option => option.alternatives
  | .more option others => option.alternatives ++ others.alternatives

end

def Options.first (f : Braces → Braces) : Options → Options
  | .one option => .one (f option)
  | .more option others => .more (f option) others

/-- The options in front of the first `}`, and what follows it. -/
def Braces.group : Braces → Option (Options × Braces)
  | .nil => none
  | .char c more =>
    if c = '}'.toUInt8 then some (.one .nil, more)
    else if c = ','.toUInt8 then more.group.map (Prod.map (.more .nil) id)
    else more.group.map (Prod.map (Options.first (.char c)) id)
  | .choice inner more => more.group.map (Prod.map (Options.first (.choice inner)) id)

/-- A character in front of a sequence: a `{` takes the first `}` that is left as its partner. -/
def Braces.put (c : UInt8) (behind : Braces) : Braces :=
  if c = '{'.toUInt8 then
    match behind.group with
    | some (options, more) => .choice options more
    | none => .char c behind
  else .char c behind

def readBraces (pattern : Bytes) : Braces := pattern.foldr Braces.put .nil

/-! The reading -/

mutual

/-- No brace or comma of its own, as between the braces of a choice. -/
def Braces.Inside : Braces → Prop
  | .nil => True
  | .char c more => c ≠ '{'.toUInt8 ∧ c ≠ '}'.toUInt8 ∧ c ≠ ','.toUInt8 ∧ more.Inside
  | .choice options more => options.Inside ∧ more.Inside

def Options.Inside : Options → Prop
  | .one option => option.Inside
  | .more option others => option.Inside ∧ others.Inside

end

/-- No brace that is read as a character has a partner, also none that is open in front. -/
def Braces.Reads (opened : Bool) : Braces → Prop
  | .nil => True
  | .char c more =>
    if c = '{'.toUInt8 then more.Reads true else (c = '}'.toUInt8 → opened = false) ∧ more.Reads opened
  | .choice options more => options.Inside ∧ more.Reads opened

theorem Options.first_char (options : Options) (c : UInt8) : (options.first (.char c)).text = c :: options.text := by
  cases options with
  | one option => rfl
  | more option others => rfl

theorem Options.first_choice (options inner : Options) : (options.first (.choice inner)).text =
    '{'.toUInt8 :: (inner.text ++ '}'.toUInt8 :: options.text) := by
  cases options with
  | one option => rfl
  | more option others =>
      change '{'.toUInt8 :: (inner.text ++ '}'.toUInt8 :: option.text) ++ _ = _
      rw [List.cons_append, List.append_assoc, List.cons_append]
      rfl

theorem Options.first_inside {options : Options} {f : Braces → Braces} (kept : ∀ b : Braces, b.Inside → (f b).Inside)
    (inside : options.Inside) : (options.first f).Inside := by
  cases options with
  | one option => exact kept option inside
  | more option others => exact ⟨kept option inside.1, inside.2⟩

/-- Behind an open brace nothing is left that closes one. -/
theorem Braces.group_opened : ∀ b : Braces, b.Reads true → b.group = none
  | .nil, _ => rfl
  | .char c more, h => by
      unfold Reads at h
      unfold group
      split_ifs at h with opens
      · subst opens
        rw [if_neg (by decide), if_neg (by decide), group_opened more h]
        rfl
      · rw [if_neg h.1, group_opened more h.2]
        split_ifs
        · rfl
        · rfl
  | .choice _ more, h => by
      unfold group
      rw [group_opened more h.2]
      rfl

theorem Braces.group_none : ∀ b : Braces, b.Reads false → b.group = none → b.Reads true
  | .nil, _, _ => trivial
  | .char c more, h, alone => by
      unfold Reads at h ⊢
      unfold group at alone
      split_ifs at h ⊢ with opens
      · exact h
      · split_ifs at alone with closes comma
        · exact ⟨fun same => absurd same closes, group_none more h.2 (Option.map_eq_none_iff.mp alone)⟩
        · exact ⟨fun same => absurd same closes, group_none more h.2 (Option.map_eq_none_iff.mp alone)⟩
  | .choice _ more, h, alone => ⟨h.1, group_none more h.2 (Option.map_eq_none_iff.mp alone)⟩

theorem Braces.group_some : ∀ (b : Braces) {options : Options} {behind : Braces}, b.Reads false →
    b.group = some (options, behind) →
    options.Inside ∧ behind.Reads false ∧ b.text = options.text ++ '}'.toUInt8 :: behind.text
  | .nil, _, _, _, found => by cases found
  | .char c more, options, behind, h, found => by
      unfold Reads at h
      unfold group at found
      split_ifs at h with opens
      · subst opens
        rw [if_neg (by decide), if_neg (by decide), group_opened more h] at found
        cases found
      · split_ifs at found with closes comma
        · cases found
          exact ⟨trivial, h.2, congrArg (· :: _) closes⟩
        · obtain ⟨⟨others, rest⟩, later, same⟩ := Option.map_eq_some_iff.mp found
          cases same
          obtain ⟨inside, reads, whole⟩ := group_some more h.2 later
          refine ⟨⟨trivial, inside⟩, reads, ?_⟩
          rw [text, whole, comma]
          rfl
        · obtain ⟨⟨others, rest⟩, later, same⟩ := Option.map_eq_some_iff.mp found
          cases same
          obtain ⟨inside, reads, whole⟩ := group_some more h.2 later
          refine ⟨Options.first_inside (fun b kept => ⟨opens, closes, comma, kept⟩) inside, reads, ?_⟩
          rw [text, whole]
          change _ = (others.first (.char c)).text ++ _
          rw [Options.first_char, List.cons_append]
          rfl
  | .choice inner more, options, behind, h, found => by
      unfold group at found
      obtain ⟨⟨others, rest⟩, later, same⟩ := Option.map_eq_some_iff.mp found
      cases same
      obtain ⟨inside, reads, whole⟩ := group_some more h.2 later
      refine ⟨Options.first_inside (fun b kept => ⟨h.1, kept⟩) inside, reads, ?_⟩
      rw [text, whole]
      change _ = (others.first (.choice inner)).text ++ _
      rw [Options.first_choice, List.cons_append, List.append_assoc, List.cons_append]
      rfl

theorem Braces.put_reads {b : Braces} (c : UInt8) (h : b.Reads false) :
    (put c b).Reads false ∧ (put c b).text = c :: b.text := by
  unfold put
  split_ifs with opens
  · split
    · next options more found =>
        obtain ⟨inside, reads, whole⟩ := b.group_some h found
        refine ⟨⟨inside, reads⟩, ?_⟩
        rw [text, whole, opens]
    · next none =>
        refine ⟨?_, rfl⟩
        rw [Reads, if_pos opens]
        exact b.group_none h none
  · refine ⟨?_, rfl⟩
    rw [Reads, if_neg opens]
    exact ⟨fun _ => rfl, h⟩

/-- A pattern has a reading with its text. -/
theorem readBraces_reads (pattern : Bytes) : (readBraces pattern).Reads false ∧ (readBraces pattern).text = pattern := by
  induction pattern with
  | nil => exact ⟨trivial, rfl⟩
  | cons c pattern ih =>
      obtain ⟨reads, whole⟩ := Braces.put_reads c ih.1
      exact ⟨reads, whole.trans (congrArg (c :: ·) ih.2)⟩

end Araya.Glob
