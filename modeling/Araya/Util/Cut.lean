import Mathlib.Data.List.Infix

/-!
A text cut at the first place of a mark, and what more text behind it changes; all the places of a mark, and the text
with something else in them.
-/

namespace Araya

section
variable {α : Type} [DecidableEq α] {mark text front back : List α}

/-- `find`: what stands before the first place of the mark, and what behind it. -/
def cut (mark : List α) : List α → Option (List α × List α)
  | [] => none
  | a :: text => if mark <+: a :: text then some ([], (a :: text).drop mark.length)
    else (cut mark text).map (Prod.map (a :: ·) id)

theorem cut_eq (found : cut mark text = some (front, back)) : text = front ++ (mark ++ back) := by
  induction text generalizing front with
  | nil => cases found
  | cons a text ih =>
      unfold cut at found
      split at found
      · rename_i here
        cases found
        exact (List.prefix_iff_eq_append.mp here).symm
      · obtain ⟨rest, later, same⟩ := Option.map_eq_some_iff.mp found
        cases same
        exact congrArg (a :: ·) (ih later)

theorem cut_length (found : cut mark text = some (front, back)) :
    text.length = front.length + mark.length + back.length := by
  rw [cut_eq found, List.length_append, List.length_append, Nat.add_assoc]

theorem cut_append (found : cut mark text = some (front, back)) (more : List α) :
    cut mark (text ++ more) = some (front, back ++ more) := by
  induction text generalizing front with
  | nil => cases found
  | cons a text ih =>
      unfold cut at found
      rw [List.cons_append, cut]
      split at found
      · rename_i here
        cases found
        rw [← List.cons_append, if_pos (here.trans (List.prefix_append _ more)),
          List.drop_append_of_le_length here.length_le]
      · rename_i away
        obtain ⟨⟨head, tail⟩, later, same⟩ := Option.map_eq_some_iff.mp found
        cases same
        rw [if_neg, ih later]
        · rfl
        · intro here
          have enough : mark.length ≤ (a :: text).length := by
            have := cut_length later
            rw [List.length_cons]
            omega
          exact away (List.prefix_of_prefix_length_le here (List.prefix_append (a :: text) more) enough)

/-- A text that ends before the mark does holds no place of it. -/
theorem cut_short (found : cut mark text = some (front, back)) {part : List α} (part_of : part <+: text)
    (short : part.length < front.length + mark.length) : cut mark part = none := by
  cases early : cut mark part with
  | none => rfl
  | some halves =>
      obtain ⟨more, rfl⟩ := part_of
      have same := (cut_append early more).symm.trans found
      cases same
      have := cut_length early
      omega

/-- The text behind the mark does not matter. -/
theorem cut_other (solid : mark ≠ []) (found : cut mark text = some (front, back)) (other : List α) :
    cut mark (front ++ (mark ++ other)) = some (front, other) := by
  induction text generalizing front with
  | nil => cases found
  | cons a text ih =>
      unfold cut at found
      split at found
      · cases found
        obtain ⟨b, mark, rfl⟩ := List.exists_cons_of_ne_nil solid
        rw [List.nil_append, List.cons_append, cut, if_pos ⟨other, rfl⟩, ← List.cons_append, List.drop_left]
      · rename_i away
        obtain ⟨⟨head, tail⟩, later, same⟩ := Option.map_eq_some_iff.mp found
        cases same
        change cut mark (a :: (head ++ (mark ++ other))) = some (a :: head, other)
        rw [cut, if_neg, ih later]
        · rfl
        · intro here
          have whole : a :: text = a :: head ++ mark ++ tail := by
            rw [List.append_assoc]
            exact congrArg (a :: ·) (cut_eq later)
          rw [← List.cons_append, ← List.append_assoc] at here
          have inside : mark <+: a :: head ++ mark :=
            List.prefix_of_prefix_length_le here (List.prefix_append _ other)
              (List.length_append ▸ Nat.le_add_left ..)
          exact away (whole ▸ inside.trans (List.prefix_append _ tail))

/-- A part that reaches behind the mark is cut there too. -/
theorem cut_part (solid : mark ≠ []) (found : cut mark text = some (front, back)) {part : List α} (part_of : part <+: text)
    (full : front.length + mark.length ≤ part.length) :
    ∃ rest, cut mark part = some (front, rest) ∧ rest <+: back := by
  rw [cut_eq found, ← List.append_assoc] at part_of
  obtain ⟨rest, rfl⟩ := List.prefix_of_prefix_length_le (List.prefix_append (front ++ mark) back) part_of
    (by rw [List.length_append]; exact full)
  rw [List.append_assoc]
  exact ⟨rest, cut_other solid found rest, (List.prefix_append_right_inj _).mp part_of⟩

/-- The first place is where the mark's first letter is. -/
theorem cut_of_notMem {a : α} {mark : List α} (off : a ∉ front) :
    cut (a :: mark) (front ++ (a :: mark ++ back)) = some (front, back) := by
  induction front with
  | nil =>
      rw [List.nil_append, List.cons_append, cut, if_pos ⟨back, rfl⟩]
      simp
  | cons b front ih =>
      have other : ¬ a :: mark <+: b :: (front ++ (a :: mark ++ back)) := by
        intro here
        exact off (List.mem_cons.mpr (.inl (List.cons_prefix_cons.mp here).1))
      rw [List.cons_append, cut, if_neg other, ih (fun member => off (List.mem_cons_of_mem b member))]
      rfl

theorem cut_none (solid : mark ≠ []) : cut mark text = none ↔ ¬ mark <:+: text := by
  induction text with
  | nil => exact ⟨fun _ inside => solid (List.infix_nil.mp inside), fun _ => rfl⟩
  | cons a text ih =>
      rw [cut, List.infix_cons_iff, not_or, ← ih]
      split
      · rename_i here
        exact ⟨fun found => (Option.some_ne_none _ found).elim, fun absent => absurd here absent.1⟩
      · rename_i away
        rw [Option.map_eq_none_iff]
        exact (and_iff_right away).symm

/-- The mark is not in what stands before it. -/
theorem cut_before (solid : mark ≠ []) (found : cut mark text = some (front, back)) : ¬ mark <:+: front := by
  refine (cut_none solid).mp (cut_short found (cut_eq found ▸ List.prefix_append front _) ?_)
  exact Nat.lt_add_of_pos_right (List.length_pos_iff.mpr solid)

/-! All places -/

/-- The mark stands at an offset of the text. -/
def Place (mark text : List α) (i : Nat) : Prop := mark <+: text.drop i

instance (mark text : List α) (i : Nat) : Decidable (Place mark text i) := inferInstanceAs (Decidable (mark <+: text.drop i))

theorem cut_place (found : cut mark text = some (front, back)) : Place mark text front.length := by
  rw [Place, cut_eq found, List.drop_left]
  exact List.prefix_append ..

theorem cut_least (found : cut mark text = some (front, back)) {i : Nat} (here : Place mark text i) : front.length ≤ i := by
  induction text generalizing front i with
  | nil => cases found
  | cons a text ih =>
      unfold cut at found
      split at found
      · cases found
        exact Nat.zero_le i
      · rename_i away
        obtain ⟨⟨head, tail⟩, later, same⟩ := Option.map_eq_some_iff.mp found
        cases same
        cases i with
        | zero => exact absurd here away
        | succ i => exact Nat.succ_le_succ (ih later here)

theorem place_behind (found : cut mark text = some (front, back)) (i : Nat) :
    Place mark text (front.length + mark.length + i) ↔ Place mark back i := by
  rw [Place, Place, cut_eq found, ← List.drop_drop, ← List.append_assoc, ← List.length_append, List.drop_left]

omit [DecidableEq α] in
theorem place_infix : (∃ i, Place mark text i) ↔ mark <:+: text := by
  refine ⟨fun ⟨i, here⟩ => here.isInfix.trans (List.drop_suffix i text).isInfix, ?_⟩
  rintro ⟨front, back, rfl⟩
  refine ⟨front.length, ?_⟩
  rw [Place, List.append_assoc, List.drop_left]
  exact List.prefix_append ..

theorem cut_none_places (solid : mark ≠ []) : cut mark text = none ↔ ∀ i, ¬ Place mark text i := by
  rw [cut_none solid, ← place_infix, not_exists]

/-- Two places that do not overlap. -/
def Twice (mark text : List α) : Prop := ∃ i j, Place mark text i ∧ Place mark text j ∧ i + mark.length ≤ j

theorem twice_iff (found : cut mark text = some (front, back)) : Twice mark text ↔ ∃ i, Place mark back i := by
  constructor
  · rintro ⟨i, j, here, there, apart⟩
    have first := cut_least found here
    have far : j = front.length + mark.length + (j - (front.length + mark.length)) := by omega
    rw [far, place_behind found] at there
    exact ⟨_, there⟩
  · rintro ⟨i, here⟩
    exact ⟨_, _, cut_place found, (place_behind found i).mpr here, Nat.le_add_right ..⟩

/-- The places from the left on, none overlapping the one before it, are taken by another text. -/
inductive Replaced (mark new : List α) : List α → List α → Prop
  | none {text : List α} : cut mark text = none → Replaced mark new text text
  | some {text front back rest : List α} : cut mark text = some (front, back) → Replaced mark new back rest →
      Replaced mark new text (front ++ new ++ rest)

/-! The first place from an offset on -/

/-- `find` from an offset on. -/
def findFrom (mark text : List α) (start : Nat) : Option Nat :=
  (cut mark (text.drop start)).map fun halves => start + halves.1.length

theorem findFrom_some {start i : Nat} (found : findFrom mark text start = some i) :
    start ≤ i ∧ Place mark text i ∧ ∀ j, start ≤ j → Place mark text j → i ≤ j := by
  obtain ⟨⟨front, back⟩, here, rfl⟩ := Option.map_eq_some_iff.mp found
  refine ⟨Nat.le_add_right .., ?_, ?_⟩
  · have place := cut_place here
    rw [Place, List.drop_drop] at place
    exact place
  · intro j later there
    have place : Place mark (text.drop start) (j - start) := by
      rw [Place, List.drop_drop, Nat.add_sub_cancel' later]
      exact there
    have := cut_least here place
    show start + front.length ≤ j
    omega

theorem findFrom_none (solid : mark ≠ []) {start : Nat} :
    findFrom mark text start = none ↔ ∀ j, start ≤ j → ¬ Place mark text j := by
  rw [findFrom, Option.map_eq_none_iff, cut_none_places solid]
  constructor
  · intro absent j later there
    apply absent (j - start)
    rw [Place, List.drop_drop, Nat.add_sub_cancel' later]
    exact there
  · intro absent i here
    rw [Place, List.drop_drop] at here
    exact absent (start + i) (Nat.le_add_right ..) here

/-! Marks whose first letter comes once -/

section
variable {a : α} {rest : List α}

omit [DecidableEq α] in
/-- Such a mark does not lie across a place of its first letter. -/
theorem infix_split (once : a ∉ rest) :
    a :: rest <:+: front ++ a :: back ↔ a :: rest <:+: front ∨ a :: rest <:+: a :: back := by
  constructor
  · rintro ⟨before, behind, whole⟩
    rw [List.append_assoc] at whole
    rcases List.append_eq_append_iff.mp whole with ⟨inner, rfl, tail⟩ | ⟨inner, rfl, tail⟩
    · rcases List.append_eq_append_iff.mp tail with ⟨more, same, _⟩ | ⟨more, same, inside⟩
      · exact .inl ⟨before, more, by rw [List.append_assoc, same]⟩
      · cases more with
        | nil =>
            rw [List.append_nil] at same
            exact .inl ⟨before, [], by rw [List.append_nil, same]⟩
        | cons b more =>
            obtain ⟨rfl, _⟩ := List.cons.inj (List.cons_append ▸ inside)
            cases inner with
            | nil =>
                rw [List.nil_append] at same
                exact .inr ⟨[], behind, by rw [List.nil_append, same, ← inside]⟩
            | cons c inner =>
                rw [List.cons_append] at same
                exact absurd ((List.cons.inj same).2 ▸ List.mem_append_right inner List.mem_cons_self) once
    · exact .inr ⟨inner, behind, by rw [List.append_assoc, tail]⟩
  · rintro (inside | inside)
    · exact inside.trans (List.prefix_append front _).isInfix
    · exact inside.trans (List.suffix_append front _).isInfix

omit [DecidableEq α] in
theorem infix_skip (off : a ∉ front) : a :: rest <:+: front ++ back ↔ a :: rest <:+: back := by
  induction front with
  | nil => rw [List.nil_append]
  | cons b front ih =>
      have other : ¬ a :: rest <+: b :: (front ++ back) := by
        intro here
        exact off (List.mem_cons.mpr (.inl (List.cons_prefix_cons.mp here).1))
      rw [List.cons_append, List.infix_cons_iff, ih fun member => off (List.mem_cons_of_mem b member)]
      exact or_iff_right other

omit [DecidableEq α] in
theorem places_apart (once : a ∉ rest) {i j : Nat} (here : Place (a :: rest) text i) (there : Place (a :: rest) text j)
    (later : i < j) : i + (a :: rest).length ≤ j := by
  by_contra near
  obtain ⟨behind, whole⟩ := here
  obtain ⟨more, tail⟩ := there
  have inner : text.drop j = rest.drop (j - i - 1) ++ behind := by
    have : j = i + (j - i - 1 + 1) := by omega
    rw [this, ← List.drop_drop, ← whole, List.cons_append, List.drop_succ_cons, List.drop_append_of_le_length]
    · congr 2
      omega
    · rw [List.length_cons] at near
      omega
  rw [inner] at tail
  cases left : rest.drop (j - i - 1) with
  | nil =>
      have := List.drop_eq_nil_iff.mp left
      rw [List.length_cons] at near
      omega
  | cons b left' =>
      rw [left, List.cons_append, List.cons_append] at tail
      obtain ⟨rfl, _⟩ := List.cons.inj tail
      exact once (List.drop_subset _ _ (left ▸ List.mem_cons_self))

/-- The mark stands in the text once, at its end. -/
def Sole (mark text : List α) : Prop := ∀ i, Place mark text i ↔ i + mark.length = text.length

omit [DecidableEq α] in
theorem sole_iff (once : a ∉ rest) : Sole (a :: rest) (front ++ a :: rest) ↔ ¬ a :: rest <:+: front := by
  have last : Place (a :: rest) (front ++ a :: rest) front.length := by
    rw [Place, List.drop_left]
  constructor
  · rintro sole ⟨before, behind, rfl⟩
    have early : Place (a :: rest) (before ++ a :: rest ++ behind ++ a :: rest) before.length := by
      rw [Place, List.append_assoc, List.append_assoc, List.drop_left]
      exact List.prefix_append ..
    have := (sole before.length).mp early
    simp only [List.length_append, List.length_cons] at this
    omega
  · intro absent i
    rw [List.length_append, Nat.add_right_cancel_iff]
    refine ⟨?_, fun same => same ▸ last⟩
    intro here
    rcases Nat.lt_trichotomy i front.length with early | same | late
    · have room := places_apart once here last early
      obtain ⟨behind, whole⟩ := here
      rw [List.drop_append_of_le_length (Nat.le_of_lt early)] at whole
      have inside : a :: rest <+: front.drop i := by
        refine List.prefix_of_prefix_length_le ⟨behind, whole⟩ (List.prefix_append _ _) ?_
        rw [List.length_drop]
        omega
      exact absurd (inside.isInfix.trans (List.drop_suffix i front).isInfix) absent
    · exact same
    · have size := here.length_le
      rw [List.length_drop, List.length_append, List.length_cons] at size
      omega

end

end
end Araya
