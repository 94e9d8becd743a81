import Araya.Glob.Braces

/-!
The expansion of the tool lists the alternatives of the reading, in their order, where no brace without a partner stands
in front of a choice.
-/

namespace Araya.Glob
open Llm (Bytes)

/-! The text of a choice -/

mutual

/-- A text whose braces have their partners in it is passed at any depth. -/
theorem Braces.closeBrace_text : ∀ (b : Braces), b.Inside → ∀ (depth : Nat) (rest : Bytes), depth ≠ 0 →
    closeBrace depth (b.text ++ rest) = (closeBrace depth rest).map (Prod.map (b.text ++ ·) id)
  | .nil, _, depth, rest, _ => by
      cases found : closeBrace depth rest with
      | none => rw [Braces.text, List.nil_append, found]; rfl
      | some halves => rw [Braces.text, List.nil_append, found]; rfl
  | .char c more, inside, depth, rest, solid => by
      obtain ⟨opens, closes, -, inside⟩ := inside
      rw [Braces.text, List.cons_append, closeBrace, if_neg opens, if_neg closes, more.closeBrace_text inside depth rest solid,
        Option.map_map, Prod.map_comp_map]
      rfl
  | .choice options more, inside, depth, rest, solid => by
      have deeper : depth + 1 ≠ 1 := fun same => solid (Nat.succ.inj same)
      rw [Braces.text, List.cons_append, List.append_assoc, List.cons_append, closeBrace, if_pos rfl,
        options.closeBrace_text inside.1 (depth + 1) _ (Nat.succ_ne_zero depth), closeBrace,
        if_neg (by decide), if_pos rfl, if_neg deeper, Nat.add_sub_cancel, more.closeBrace_text inside.2 depth rest solid,
        Option.map_map, Option.map_map, Option.map_map, Prod.map_comp_map, Prod.map_comp_map, Prod.map_comp_map]
      congr 2
      funext behind
      simp only [Function.comp_apply, List.append_assoc, List.cons_append]

theorem Options.closeBrace_text : ∀ (options : Options), options.Inside → ∀ (depth : Nat) (rest : Bytes), depth ≠ 0 →
    closeBrace depth (options.text ++ rest) = (closeBrace depth rest).map (Prod.map (options.text ++ ·) id)
  | .one option, inside, depth, rest, solid => option.closeBrace_text inside depth rest solid
  | .more option others, inside, depth, rest, solid => by
      rw [Options.text, List.append_assoc, option.closeBrace_text inside.1 depth _ solid, List.cons_append, closeBrace,
        if_neg (by decide), if_neg (by decide), others.closeBrace_text inside.2 depth rest solid, Option.map_map,
        Option.map_map, Prod.map_comp_map, Prod.map_comp_map]
      congr 2
      funext behind
      simp only [Function.comp_apply, List.append_assoc, List.cons_append]

end

theorem closeBrace_choice {options : Options} (inside : options.Inside) (suffix : Bytes) :
    closeBrace 1 (options.text ++ '}'.toUInt8 :: suffix) = some (options.text, suffix) := by
  rw [options.closeBrace_text inside 1 _ (by decide), closeBrace, if_neg (by decide), if_pos rfl, if_pos rfl,
    Option.map_some, Prod.map_apply, List.append_nil]
  rfl

theorem closeBrace_notMem {rest : Bytes} (open_ : '}'.toUInt8 ∉ rest) (depth : Nat) : closeBrace depth rest = none := by
  induction rest generalizing depth with
  | nil => rfl
  | cons c rest ih =>
      have closes := List.ne_of_not_mem_cons open_
      have behind := List.not_mem_of_not_mem_cons open_
      unfold closeBrace
      rw [if_neg (Ne.symm closes)]
      split_ifs
      · rw [ih behind]
        rfl
      · rw [ih behind]
        rfl

mutual

/-- No comma of the text cuts it. -/
theorem Braces.cutOptions_text : ∀ (b : Braces), b.Inside → ∀ (nested : Nat) (part rest : Bytes),
    cutOptions nested part (b.text ++ rest) = cutOptions nested (part ++ b.text) rest
  | .nil, _, _, part, _ => by rw [Braces.text, List.nil_append, List.append_nil]
  | .char c more, inside, nested, part, rest => by
      obtain ⟨opens, closes, comma, inside⟩ := inside
      rw [Braces.text, List.cons_append, cutOptions, if_neg fun h => comma h.1, nesting]
      simp only [if_neg opens, if_neg closes]
      rw [more.cutOptions_text inside, List.append_assoc, List.singleton_append]
  | .choice options more, inside, nested, part, rest => by
      have deeper : nesting nested '{'.toUInt8 = ((nested + 1 : Nat) : Int) := rfl
      have back : nesting ((nested + 1 : Nat) : Int) '}'.toUInt8 = (nested : Int) := by
        change ((nested + 1 : Nat) : Int) - 1 = _
        omega
      rw [Braces.text, List.cons_append, List.append_assoc, List.cons_append, cutOptions,
        if_neg fun h => absurd h.1 (by decide), deeper, options.cutOptions_text inside.1, cutOptions,
        if_neg fun h => absurd h.1 (by decide), back, more.cutOptions_text inside.2]
      simp only [List.append_assoc, List.cons_append, List.nil_append]

theorem Options.cutOptions_text : ∀ (options : Options), options.Inside → ∀ (nested : Nat) (part rest : Bytes),
    cutOptions ((nested + 1 : Nat) : Int) part (options.text ++ rest) =
      cutOptions ((nested + 1 : Nat) : Int) (part ++ options.text) rest
  | .one option, inside, nested, part, rest => option.cutOptions_text inside (nested + 1) part rest
  | .more option others, inside, nested, part, rest => by
      have level : nesting ((nested + 1 : Nat) : Int) ','.toUInt8 = ((nested + 1 : Nat) : Int) := rfl
      rw [Options.text, List.append_assoc, option.cutOptions_text inside.1 (nested + 1), List.cons_append, cutOptions,
        if_neg fun h => by omega, level, others.cutOptions_text inside.2]
      simp only [List.append_assoc, List.singleton_append]

end

def Options.list : Options → List Braces
  | .one option => [option]
  | .more option others => option :: others.list

theorem Options.list_inside : ∀ (options : Options), options.Inside → ∀ option ∈ options.list, option.Inside
  | .one _, inside, other, there => (List.mem_singleton.mp there) ▸ inside
  | .more _ others, inside, other, there => by
      rcases List.mem_cons.mp there with rfl | later
      · exact inside.1
      · exact others.list_inside inside.2 other later

theorem Options.alternatives_list : ∀ options : Options, options.alternatives = options.list.flatMap Braces.alternatives
  | .one option => (List.append_nil _).symm
  | .more option others => by rw [Options.alternatives, Options.list, List.flatMap_cons, others.alternatives_list]

theorem Options.cutOptions_list : ∀ (options : Options), options.Inside →
    cutOptions 0 [] options.text = options.list.map Braces.text
  | .one option, inside => by
      have whole := option.cutOptions_text inside 0 [] []
      rw [List.append_nil, List.nil_append] at whole
      exact whole
  | .more option others, inside => by
      have first := option.cutOptions_text inside.1 0 [] (','.toUInt8 :: others.text)
      rw [List.nil_append, cutOptions, if_pos ⟨rfl, rfl⟩] at first
      rw [Options.list, List.map_cons, ← others.cutOptions_list inside.2]
      exact first

/-! Sequences behind each other -/

def Braces.append : Braces → Braces → Braces
  | .nil, b => b
  | .char c more, b => .char c (more.append b)
  | .choice options more, b => .choice options (more.append b)

theorem Braces.append_text : ∀ a b : Braces, (a.append b).text = a.text ++ b.text
  | .nil, _ => rfl
  | .char c more, b => congrArg (c :: ·) (more.append_text b)
  | .choice options more, b => by
      rw [append, text, more.append_text b, text, List.cons_append, List.append_assoc, List.cons_append]

theorem Braces.append_reads {opened : Bool} : ∀ a b : Braces, a.Inside → b.Reads opened → (a.append b).Reads opened
  | .nil, _, _, reads => reads
  | .char c more, b, inside, reads => by
      rw [append, Reads, if_neg inside.1]
      exact ⟨fun closes => absurd closes inside.2.1, more.append_reads b inside.2.2.2 reads⟩
  | .choice _ more, b, inside, reads => ⟨inside.1, more.append_reads b inside.2 reads⟩

theorem Braces.append_alternatives : ∀ a b : Braces,
    (a.append b).alternatives = a.alternatives.flatMap fun front => b.alternatives.map (front ++ ·)
  | .nil, b => by
      rw [append, alternatives, List.flatMap_singleton]
      exact (List.map_id _).symm
  | .char c more, b => by
      rw [append, alternatives, more.append_alternatives b, alternatives, List.map_flatMap, List.flatMap_map]
      simp only [List.map_map, Function.comp_def, List.cons_append]
  | .choice options more, b => by
      rw [append, alternatives, more.append_alternatives b, alternatives, List.flatMap_assoc]
      simp only [List.map_flatMap, List.flatMap_map, List.map_map, Function.comp_def, List.append_assoc]

/-! The expansion -/

/-- No choice is left. -/
def Braces.Flat : Braces → Prop
  | .nil => True
  | .char _ more => more.Flat
  | .choice _ _ => False

/-- No choice behind a brace that is read as a character. -/
def Braces.Orderly : Braces → Prop
  | .nil => True
  | .char c more => if c = '{'.toUInt8 then more.Flat else more.Orderly
  | .choice _ more => more.Orderly

theorem Braces.append_orderly : ∀ a b : Braces, a.Inside → b.Orderly → (a.append b).Orderly
  | .nil, _, _, orderly => orderly
  | .char c more, b, inside, orderly => by
      rw [append, Orderly, if_neg inside.1]
      exact more.append_orderly b inside.2.2.2 orderly
  | .choice _ more, b, inside, orderly => more.append_orderly b inside.2 orderly

theorem Braces.flat_alternatives : ∀ b : Braces, b.Flat → b.alternatives = [b.text]
  | .nil, _ => rfl
  | .char c more, flat => by
      rw [alternatives, more.flat_alternatives flat]
      rfl

theorem Braces.flat_notMem : ∀ b : Braces, b.Flat → b.Reads true → '}'.toUInt8 ∉ b.text
  | .nil, _, _ => List.not_mem_nil
  | .char c more, flat, reads => by
      rw [Reads] at reads
      intro there
      split_ifs at reads with opens
      · rcases List.mem_cons.mp there with same | later
        · rw [opens] at same
          exact absurd same (by decide)
        · exact more.flat_notMem flat reads later
      · rcases List.mem_cons.mp there with same | later
        · exact absurd (reads.1 same.symm) (by decide)
        · exact more.flat_notMem flat reads.2 later

section
variable {front rest inner suffix : Bytes}

theorem expandFirst_notMem (solid : '{'.toUInt8 ∉ front) : expandFirst front = none := by
  have all : front.dropWhile (· ≠ '{'.toUInt8) = [] :=
    List.dropWhile_eq_nil_iff.mpr fun c there => decide_eq_true fun same => solid (same ▸ there)
  rw [expandFirst, all]

theorem span_front (solid : '{'.toUInt8 ∉ front) :
    (front ++ '{'.toUInt8 :: rest).dropWhile (· ≠ '{'.toUInt8) = '{'.toUInt8 :: rest ∧
      (front ++ '{'.toUInt8 :: rest).takeWhile (· ≠ '{'.toUInt8) = front := by
  have passes : ∀ c ∈ front, decide (c ≠ '{'.toUInt8) = true :=
    fun c there => decide_eq_true fun same => solid (same ▸ there)
  rw [List.dropWhile_append_of_pos passes, List.takeWhile_append_of_pos passes, List.dropWhile_cons_of_neg (by decide),
    List.takeWhile_cons_of_neg (by decide), List.append_nil]
  exact ⟨rfl, rfl⟩

theorem expandFirst_open (solid : '{'.toUInt8 ∉ front) (alone : closeBrace 1 rest = none) :
    expandFirst (front ++ '{'.toUInt8 :: rest) = none := by
  rw [expandFirst, (span_front solid).1]
  change (closeBrace 1 rest).map _ = none
  rw [alone]
  rfl

theorem expandFirst_closed (solid : '{'.toUInt8 ∉ front) (closed : closeBrace 1 rest = some (inner, suffix)) :
    expandFirst (front ++ '{'.toUInt8 :: rest) =
      some ((cutOptions 0 [] inner).map fun option => front ++ option ++ suffix) := by
  rw [expandFirst, (span_front solid).1, (span_front solid).2]
  change (closeBrace 1 rest).map _ = _
  rw [closed]
  rfl

end

theorem expandBraces_behind {n : Nat}
    (less : ∀ (b : Braces) (front : Bytes), '{'.toUInt8 ∉ front → b.Reads false → b.Orderly →
      (front ++ b.text).count '{'.toUInt8 < n → expandBraces (front ++ b.text) = b.alternatives.map (front ++ ·)) :
    ∀ (b : Braces) (front : Bytes), '{'.toUInt8 ∉ front → b.Reads false → b.Orderly →
      (front ++ b.text).count '{'.toUInt8 = n → expandBraces (front ++ b.text) = b.alternatives.map (front ++ ·)
  | .nil, front, solid, _, _, _ => by
      rw [Braces.text, List.append_nil, expandBraces_none (expandFirst_notMem solid), Braces.alternatives, List.map_singleton,
        List.append_nil]
  | .char c more, front, solid, reads, orderly, count => by
      rw [Braces.Reads] at reads
      rw [Braces.Orderly] at orderly
      split_ifs at reads orderly with opens
      · have alone := closeBrace_notMem (more.flat_notMem orderly reads) 1
        rw [Braces.text, opens, expandBraces_none (expandFirst_open solid alone), Braces.alternatives,
          more.flat_alternatives orderly, List.map_map]
        rfl
      · have solid' : '{'.toUInt8 ∉ front ++ [c] := by
          intro there
          rcases List.mem_append.mp there with there | same
          · exact solid there
          · exact opens (List.mem_singleton.mp same).symm
        rw [Braces.text, List.append_cons] at count ⊢
        rw [expandBraces_behind less more (front ++ [c]) solid' reads.2 orderly count, Braces.alternatives, List.map_map]
        simp only [Function.comp_def, List.append_assoc, List.singleton_append]
  | .choice options more, front, solid, reads, orderly, count => by
      have found := expandFirst_closed solid (closeBrace_choice reads.1 more.text)
      rw [options.cutOptions_list reads.1] at found
      have each : ∀ option ∈ options.list, expandBraces (front ++ option.text ++ more.text) =
          (option.append more).alternatives.map (front ++ ·) := by
        intro option there
        have inside := options.list_inside reads.1 option there
        have fewer := expandFirst_count found (List.mem_map_of_mem (List.mem_map_of_mem there))
        rw [Braces.text] at count
        rw [count, List.append_assoc, ← Braces.append_text] at fewer
        rw [List.append_assoc, ← Braces.append_text]
        exact less _ front solid (option.append_reads more inside reads.2) (option.append_orderly more inside orderly) fewer
      rw [Braces.text, expandBraces_some found, List.map_map, List.flatMap_map, Braces.alternatives,
        options.alternatives_list, List.flatMap_assoc, List.map_flatMap]
      refine List.flatMap_congr fun option there => ?_
      rw [Function.comp_apply, each option there, option.append_alternatives]

/-- The tool expands a pattern to the alternatives of its reading. -/
theorem expandBraces_read {pattern : Bytes} (orderly : (readBraces pattern).Orderly) :
    expandBraces pattern = (readBraces pattern).alternatives := by
  have all : ∀ (n : Nat) (b : Braces) (front : Bytes), '{'.toUInt8 ∉ front → b.Reads false → b.Orderly →
      (front ++ b.text).count '{'.toUInt8 = n → expandBraces (front ++ b.text) = b.alternatives.map (front ++ ·) := by
    intro n
    induction n using Nat.strong_induction_on with
    | _ n ih =>
        refine expandBraces_behind fun b front solid reads orderly fewer => ?_
        exact ih _ fewer b front solid reads orderly rfl
  obtain ⟨reads, whole⟩ := readBraces_reads pattern
  have := all _ (readBraces pattern) [] List.not_mem_nil reads orderly rfl
  rw [List.nil_append, whole] at this
  rw [this]
  exact List.map_id _

end Araya.Glob
