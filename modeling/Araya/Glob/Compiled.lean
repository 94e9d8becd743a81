import Araya.Glob.Translation
import Mathlib.Data.Bool.AllAny

/-!
What a translated pattern compiles to. The items compile one by one; a brace outside of a class and a range against the
order are errors. Names in classes are left out: there the copied text means something else to the expression.
-/

namespace Araya.Glob
open Llm (Bytes)
open RegularExpression
open Regex (byteWith optional)
open Utf8 (bytes)

/-! Classes -/

/-- Nothing in the class begins a name. -/
def Unnamed (body : Bytes) : Prop := ∀ mark ∈ nameMarks, ¬ ['['.toUInt8, mark] <:+: body

section
variable {tr : Traits} {c lo hi : UInt8} {body text behind : Bytes} {fuel : Nat}

theorem Unnamed.tail (h : Unnamed (c :: body)) : Unnamed body :=
  fun mark there inside => h mark there (List.infix_cons inside)

theorem classChar_cases (c : UInt8) :
    classChar c = ['\\'.toUInt8, c] ∨ c ≠ ']'.toUInt8 ∧ c ≠ '\\'.toUInt8 ∧ classChar c = [c] := by
  unfold classChar
  split_ifs with slash closes
  · subst slash
    exact .inl rfl
  · subst closes
    exact .inl rfl
  · exact .inr ⟨closes, slash, rfl⟩

theorem classChar_head (c : UInt8) (text : Bytes) : (classChar c ++ text).head? ≠ some ']'.toUInt8 := by
  intro same
  rcases classChar_cases c with form | ⟨other, -, form⟩
  · rw [form] at same
    exact absurd (Option.some.inj same) (by decide)
  · rw [form] at same
    exact other (Option.some.inj same)

theorem Unnamed.next (h : Unnamed (c :: body)) (behind : Bytes) (opens : c = '['.toUInt8) :
    ∀ mark ∈ nameMarks, (body.flatMap classChar ++ ']'.toUInt8 :: behind).head? ≠ some mark := by
  intro mark there same
  subst opens
  cases body with
  | nil =>
      obtain rfl := Option.some.inj same
      exact absurd there (by decide)
  | cons d body =>
      rw [List.flatMap_cons, List.append_assoc] at same
      rcases classChar_cases d with form | ⟨-, -, form⟩
      · rw [form] at same
        obtain rfl := Option.some.inj same
        exact absurd there (by decide)
      · rw [form] at same
        obtain rfl := Option.some.inj same
        exact h d there (List.IsPrefix.isInfix ⟨body, rfl⟩)

theorem classAtom_char (plain : c = '['.toUInt8 → ∀ mark ∈ nameMarks, text.head? ≠ some mark) :
    classAtom tr (classChar c ++ text) = some (.char c, text) := by
  unfold classChar
  split_ifs with slash closes
  · subst slash
    rfl
  · subst closes
    rfl
  · cases text with
    | nil => rw [List.singleton_append, classAtom, if_neg slash]
    | cons mark text =>
        rw [List.singleton_append, classAtom, if_neg slash, if_neg fun named => plain named.1 mark named.2 rfl]

theorem dashed_char (other : c ≠ '-'.toUInt8) (text : Bytes) : dashed (classChar c ++ text) = none := by
  rcases classChar_cases c with form | ⟨-, -, form⟩
  · rw [form]
    rfl
  · rw [form, List.singleton_append, dashed, if_neg fun dash => other dash.1]

theorem classBody_end (fuel : Nat) (behind : Bytes) :
    classBody tr (fuel + 1) (']'.toUInt8 :: behind) = some (fun _ => false, behind) := rfl

theorem classBody_one (plain : c = '['.toUInt8 → ∀ mark ∈ nameMarks, text.head? ≠ some mark)
    (single : dashed text = none) :
    classBody tr (fuel + 1) (classChar c ++ text) =
      (classBody tr fuel text).map (Prod.map (either ((ClassPart.one c).holds tr)) id) := by
  rw [classBody, if_neg (classChar_head c text), classAtom_char plain]
  dsimp only [Option.bind_eq_bind, Option.bind_some]
  rw [single]
  rfl

theorem classBody_range
    (plain : lo = '['.toUInt8 → ∀ mark ∈ nameMarks, ('-'.toUInt8 :: (classChar hi ++ text)).head? ≠ some mark)
    (plain' : hi = '['.toUInt8 → ∀ mark ∈ nameMarks, text.head? ≠ some mark) :
    classBody tr (fuel + 1) (classChar lo ++ '-'.toUInt8 :: (classChar hi ++ text)) =
      if tr.le lo hi then (classBody tr fuel text).map (Prod.map (either ((ClassPart.range lo hi).holds tr)) id)
      else none := by
  have dash : dashed ('-'.toUInt8 :: (classChar hi ++ text)) = some (classChar hi ++ text) :=
    if_pos ⟨rfl, classChar_head hi text⟩
  rw [classBody, if_neg (classChar_head lo _), classAtom_char plain]
  dsimp only [Option.bind_eq_bind, Option.bind_some]
  rw [dash]
  dsimp only
  rw [classAtom_char plain']
  dsimp only [Option.bind_some, rangeOf]
  split_ifs
  · rfl
  · rfl

theorem parts_step {part : ClassPart} {rest : Bytes} {read : Option ((UInt8 → Bool) × Bytes)}
    (parts : classParts body = part :: classParts rest)
    (ih : read = if (classParts rest).all (·.ordered tr) then some (inClass tr rest, behind) else none) :
    (if part.ordered tr then read.map (Prod.map (either (part.holds tr)) id) else none) =
      if (classParts body).all (·.ordered tr) then some (inClass tr body, behind) else none := by
  have lists : inClass tr body = either (part.holds tr) (inClass tr rest) := by
    funext c
    rw [inClass, parts]
    rfl
  rw [ih, parts, List.all_cons, lists]
  cases part.ordered tr with
  | false => rfl
  | true =>
      cases (classParts rest).all (·.ordered tr) with
      | false => rfl
      | true => rfl

theorem classBody_last (c : UInt8) (fuel : Nat) (behind : Bytes) :
    classBody tr (fuel + 2) (classChar c ++ ']'.toUInt8 :: behind) = some (inClass tr [c], behind) := by
  have plain : c = '['.toUInt8 → ∀ mark ∈ nameMarks, (']'.toUInt8 :: behind).head? ≠ some mark := by
    intro _ mark there same
    obtain rfl := Option.some.inj same
    exact absurd there (by decide)
  rw [classBody_one plain rfl, classBody_end]
  rfl

/-- The text of a class is read back as what the class lists. -/
theorem classBody_parts (unnamed : Unnamed body) (enough : body.length < fuel) (behind : Bytes) :
    classBody tr fuel (body.flatMap classChar ++ ']'.toUInt8 :: behind) =
      if (classParts body).all (·.ordered tr) then some (inClass tr body, behind) else none := by
  induction body using classParts.induct generalizing fuel with
  | case1 =>
      obtain ⟨fuel, rfl⟩ := Nat.exists_eq_add_of_lt enough
      exact classBody_end _ behind
  | case2 c =>
      obtain ⟨fuel, rfl⟩ := Nat.exists_eq_add_of_lt enough
      rw [List.flatMap_singleton, List.length_singleton, Nat.add_comm 1 fuel]
      exact classBody_last c fuel behind
  | case3 c d =>
      obtain ⟨fuel, rfl⟩ := Nat.exists_eq_add_of_lt enough
      have plain := unnamed.next behind
      rw [List.flatMap_singleton] at plain
      have single : dashed (classChar d ++ ']'.toUInt8 :: behind) = none := by
        by_cases dash : d = '-'.toUInt8
        · rw [dash]
          rfl
        · exact dashed_char dash _
      have form : [c, d].flatMap classChar ++ ']'.toUInt8 :: behind =
          classChar c ++ (classChar d ++ ']'.toUInt8 :: behind) := by
        rw [List.flatMap_cons, List.flatMap_singleton, List.append_assoc]
      have fuels : [c, d].length + fuel + 1 = fuel + 2 + 1 := by
        change 2 + fuel + 1 = _
        omega
      rw [form, fuels, classBody_one plain single, classBody_last]
      rfl
  | case4 c hi rest ih =>
      obtain ⟨fuel, rfl⟩ := Nat.exists_eq_succ_of_ne_zero (Nat.ne_zero_of_lt enough)
      have less : rest.length < fuel := by
        simp only [List.length_cons] at enough
        omega
      have form : (c :: '-'.toUInt8 :: hi :: rest).flatMap classChar ++ ']'.toUInt8 :: behind =
          classChar c ++ '-'.toUInt8 :: (classChar hi ++ (rest.flatMap classChar ++ ']'.toUInt8 :: behind)) := by
        simp only [List.flatMap_cons, List.append_assoc]
        rfl
      have plain := unnamed.next behind
      rw [List.flatMap_cons, List.flatMap_cons, List.append_assoc, List.append_assoc] at plain
      rw [form, Nat.succ_eq_add_one, classBody_range plain (unnamed.tail.tail.next behind)]
      have parts : classParts (c :: '-'.toUInt8 :: hi :: rest) = .range c hi :: classParts rest := if_pos rfl
      exact parts_step parts (ih unnamed.tail.tail.tail less)
  | case5 c dash hi rest other ih =>
      obtain ⟨fuel, rfl⟩ := Nat.exists_eq_succ_of_ne_zero (Nat.ne_zero_of_lt enough)
      have less : (dash :: hi :: rest).length < fuel := by
        simp only [List.length_cons] at enough ⊢
        omega
      have single : dashed ((dash :: hi :: rest).flatMap classChar ++ ']'.toUInt8 :: behind) = none := by
        rw [List.flatMap_cons, List.append_assoc]
        exact dashed_char other _
      rw [List.flatMap_cons, List.append_assoc, Nat.succ_eq_add_one, classBody_one (unnamed.next behind) single]
      have parts : classParts (c :: dash :: hi :: rest) = .one c :: classParts (dash :: hi :: rest) := if_neg other
      exact parts_step parts (ih unnamed.tail less)

end

/-! Items -/

/-- Items as they are read from a pattern. -/
def Item.Read : Item → Prop
  | .char c => c ≠ '*'.toUInt8 ∧ c ≠ '?'.toUInt8
  | .set negated body => negated = false → body.head? ≠ some '^'.toUInt8
  | _ => True

def Item.Plain : Item → Prop
  | .set _ body => Unnamed body
  | _ => True

section
variable (tr : Traits)

/-- What the grammar accepts of an item. -/
def Item.wellFormed : Item → Bool
  | .char c => c != '{'.toUInt8
  | .set _ body => (classParts body).all (·.ordered tr)
  | _ => true

def Item.regex : Item → RegularExpression UInt8
  | .char c => .char c
  | .any => byteWith fun c => !inClass tr (bytes "/") c
  | .run => (byteWith fun c => !inClass tr (bytes "/") c).star
  | .wild => (byteWith fun c => !lineBreak c).star
  | .dirs => optional ((byteWith fun c => !lineBreak c).star * (.char '/'.toUInt8 * 1))
  | .set negated body => if negated then byteWith fun c => !inClass tr body c else byteWith (inClass tr body)

def regexOf : List Item → RegularExpression UInt8
  | [] => 1
  | i :: is => i.regex tr * regexOf is

end

section
variable {tr : Traits} {i : Item} {c : UInt8} {body text rest : Bytes} {negated : Bool} {fuel : Nat}

theorem items_read (pattern : Bytes) : ∀ i ∈ items pattern, i.Read := by
  induction pattern using items.induct with
  | case1 =>
      rw [items]
      exact fun _ none => absurd none List.not_mem_nil
  | case2 c rest ih =>
      rw [items]
      intro i there
      rcases List.mem_cons.mp there with rfl | later
      · unfold item
        split_ifs with star second slash any opens
        · trivial
        · trivial
        · trivial
        · trivial
        · split
          · next negated body behind found =>
              intro plain same
              unfold bracket at found
              split at found
              · cases found
              · next first more whole =>
                  split_ifs at found with closed
                  cases found
                  rw [if_neg (Bool.eq_false_iff.mp plain)] at whole
                  obtain rfl := Option.some.inj same
                  rw [negates, whole] at plain
                  have both : true = false := plain
                  cases both
          · exact ⟨star, any⟩
        · exact ⟨star, any⟩
      · exact ih i later

theorem classChars_length (body : Bytes) : body.length ≤ (body.flatMap classChar).length := by
  induction body with
  | nil => exact Nat.le_refl 0
  | cons c body ih =>
      rw [List.flatMap_cons, List.length_append, List.length_cons]
      rcases classChar_cases c with form | ⟨-, -, form⟩
      · rw [form, List.length_cons, List.length_singleton]
        omega
      · rw [form, List.length_singleton]
        omega

theorem classText_head (h : body.head? ≠ some '^'.toUInt8) (rest : Bytes) :
    (body.flatMap classChar ++ ']'.toUInt8 :: rest).head? ≠ some '^'.toUInt8 := by
  intro same
  cases body with
  | nil => exact absurd (Option.some.inj same) (by decide)
  | cons c body =>
      rw [List.flatMap_cons, List.append_assoc] at same
      rcases classChar_cases c with form | ⟨-, -, form⟩
      · rw [form] at same
        exact absurd (Option.some.inj same) (by decide)
      · rw [form] at same
        exact h same

theorem atom_set (read : (Item.set negated body).Read) (unnamed : Unnamed body) (rest : Bytes) :
    atom tr ((Item.set negated body).text ++ rest) =
      if (Item.set negated body).wellFormed tr then some ((Item.set negated body).regex tr, rest) else none := by
  have whole : (body.flatMap classChar ++ bytes "]") ++ rest = body.flatMap classChar ++ ']'.toUInt8 :: rest := by
    rw [List.append_assoc]
    rfl
  have room : body.length ≤ (body.flatMap classChar ++ ']'.toUInt8 :: rest).length := by
    rw [List.length_append]
    exact Nat.le_trans (classChars_length body) (Nat.le_add_right _ _)
  rw [Item.text, List.append_assoc, whole, Item.wellFormed]
  cases negated with
  | true =>
      change (classBody tr ((body.flatMap classChar ++ ']'.toUInt8 :: rest).length + 1)
        (body.flatMap classChar ++ ']'.toUInt8 :: rest)).map (Prod.map (fun p => byteWith fun c => !p c) id) = _
      rw [classBody_parts unnamed (Nat.lt_succ_of_le room) rest]
      split_ifs
      · rfl
      · rfl
  | false =>
      change bracketExpression tr (body.flatMap classChar ++ ']'.toUInt8 :: rest) = _
      rw [bracketExpression, if_neg (classText_head (read rfl) rest),
        classBody_parts unnamed (Nat.lt_succ_of_le room) rest]
      split_ifs
      · rfl
      · rfl

/-- Every syntax character is escaped, but for those that begin an item and for the open brace. -/
theorem syntax_escaped (there : c ∈ syntaxCharacters) :
    c ∈ bytes ".+()|^$\\]\x7d" ∨ c = '*'.toUInt8 ∨ c = '?'.toUInt8 ∨ c = '['.toUInt8 ∨ c = '{'.toUInt8 := by
  have each : syntaxCharacters.all (fun d => decide (d ∈ bytes ".+()|^$\\]\x7d" ∨ d = '*'.toUInt8 ∨ d = '?'.toUInt8 ∨
      d = '['.toUInt8 ∨ d = '{'.toUInt8)) = true := by decide
  exact List.all_iff_forall_prop.mp each c there

theorem escaped_syntax (there : c ∈ bytes ".+()|^$\\]\x7d") : c ∈ syntaxCharacters ∧ c ≠ '{'.toUInt8 := by
  have each : (bytes ".+()|^$\\]\x7d").all (fun d => decide (d ∈ syntaxCharacters ∧ d ≠ '{'.toUInt8)) = true := by
    decide
  exact List.all_iff_forall_prop.mp each c there

theorem char_text (c : UInt8) :
    (Item.char c).text = ['\\'.toUInt8, c] ∧ c ∈ syntaxCharacters ∧ c ≠ '{'.toUInt8 ∨
      (Item.char c).text = [c] ∧ (c ∈ syntaxCharacters → c = '*'.toUInt8 ∨ c = '?'.toUInt8 ∨ c = '{'.toUInt8) := by
  rw [Item.text, escaped]
  split_ifs with opens marked
  · subst opens
    exact .inl ⟨rfl, by decide, by decide⟩
  · exact .inl ⟨rfl, escaped_syntax marked⟩
  · refine .inr ⟨rfl, fun there => ?_⟩
    rcases syntax_escaped there with escapes | star | any | same | brace
    · exact absurd escapes marked
    · exact .inl star
    · exact .inr (.inl any)
    · exact absurd same opens
    · exact .inr (.inr brace)

theorem atom_char (read : (Item.char c).Read) (rest : Bytes) :
    atom tr ((Item.char c).text ++ rest) = if (Item.char c).wellFormed tr then some (.char c, rest) else none := by
  rcases char_text c with ⟨form, special, brace⟩ | ⟨form, plain⟩
  · have good : (Item.char c).wellFormed tr = true := bne_iff_ne.mpr brace
    rw [form, if_pos good]
    change (escape (c :: rest)).map (Prod.map char id) = _
    rw [escape, if_pos special]
    rfl
  · rw [form, List.singleton_append]
    by_cases brace : c = '{'.toUInt8
    · subst brace
      rfl
    · have good : (Item.char c).wellFormed tr = true := bne_iff_ne.mpr brace
      have normal : c ∉ syntaxCharacters := by
        intro there
        rcases plain there with star | any | same
        · exact read.1 star
        · exact read.2 any
        · exact brace same
      have other : ∀ d ∈ syntaxCharacters, c ≠ d := fun d there same => normal (same ▸ there)
      rw [if_pos good, atom, if_neg (other _ (by decide)), if_neg (other _ (by decide)), if_neg (other _ (by decide)),
        if_neg normal]

/-- How the text of an item begins. -/
theorem text_start (read : i.Read) :
    ∃ first tail, i.text = first :: tail ∧ first ∉ bytes "*+?" ∧ (i ≠ .dirs → first ∉ bytes "()$") := by
  cases i with
  | char c =>
      rcases char_text c with ⟨form, -, -⟩ | ⟨form, special⟩
      · exact ⟨_, _, form, by decide, fun _ => by decide⟩
      · have each : (bytes "()$*+?").all (fun d => decide (d ∈ syntaxCharacters ∧ d ≠ '{'.toUInt8)) = true := by decide
        have normal : c ∉ bytes "()$" ++ bytes "*+?" := by
          intro there
          obtain ⟨reserved, solid⟩ := List.all_iff_forall_prop.mp each c there
          rcases special reserved with star | any | brace
          · exact read.1 star
          · exact read.2 any
          · exact solid brace
        exact ⟨c, [], form, fun there => normal (List.mem_append_right _ there),
          fun _ there => normal (List.mem_append_left _ there)⟩
  | any => exact ⟨_, _, rfl, by decide, fun _ => by decide⟩
  | run => exact ⟨_, _, rfl, by decide, fun _ => by decide⟩
  | wild => exact ⟨_, _, rfl, by decide, fun _ => by decide⟩
  | dirs => exact ⟨_, _, rfl, by decide, fun other => absurd rfl other⟩
  | set negated body =>
      cases negated with
      | true => exact ⟨_, _, rfl, by decide, fun _ => by decide⟩
      | false => exact ⟨_, _, rfl, by decide, fun _ => by decide⟩

theorem text_head (read : i.Read) (rest : Bytes) : ∀ d ∈ bytes "*+?", (i.text ++ rest).head? ≠ some d := by
  intro d there same
  obtain ⟨first, tail, form, other, -⟩ := text_start read
  rw [form] at same
  obtain rfl := Option.some.inj same
  exact other there

theorem text_solid (read : i.Read) : 0 < i.text.length := by
  obtain ⟨first, tail, form, -⟩ := text_start read
  rw [form]
  exact Nat.zero_lt_succ _

/-! Terms -/

theorem ended_cons (closes : c ≠ ')'.toUInt8) (last : c ≠ '$'.toUInt8) : ended (c :: text) = false := by
  have closing : ((c :: text).head? == some ')'.toUInt8) = false :=
    beq_eq_false_iff_ne.mpr fun same => closes (Option.some.inj same)
  have dollar : ((c :: text) == ['$'.toUInt8]) = false := beq_eq_false_iff_ne.mpr fun same => last (List.cons.inj same).1
  change (false || ((c :: text).head? == some ')'.toUInt8) || ((c :: text) == ['$'.toUInt8])) = false
  rw [closing, dollar]
  rfl

theorem single_cons (opens : c ≠ '('.toUInt8) : (bytes "(?:").isPrefixOf (c :: text) = false := by
  change ('('.toUInt8 == c && _) = false
  rw [beq_eq_false_iff_ne.mpr (Ne.symm opens), Bool.false_and]

/-- A term with an atom in front. -/
theorem terms_atom (closes : c ≠ ')'.toUInt8) (last : c ≠ '$'.toUInt8) (opens : c ≠ '('.toUInt8) :
    terms tr (fuel + 1) (c :: text) = (atom tr (c :: text)).bind fun first =>
      (terms tr fuel (quantified first.1 first.2).2).map (Prod.map ((quantified first.1 first.2).1 * ·) id) := by
  rw [terms, ended_cons closes last, single_cons opens]
  rfl

theorem quantified_none (next : ∀ d ∈ bytes "*+?", rest.head? ≠ some d) (r : RegularExpression UInt8) :
    quantified r rest = (r, rest) := by
  cases rest with
  | nil => rfl
  | cons c rest =>
      have other : ∀ d ∈ bytes "*+?", c ≠ d := fun d there same => next d there (congrArg some same)
      rw [quantified, if_neg (other _ (by decide)), if_neg (other _ (by decide)), if_neg (other _ (by decide))]

theorem terms_dirs (enough : 2 < fuel) (rest : Bytes) : terms tr (fuel + 1) (Item.dirs.text ++ rest) =
    (terms tr fuel rest).map (Prod.map (Item.dirs.regex tr * ·) id) := by
  obtain ⟨n, rfl⟩ : ∃ n, fuel = n + 3 := ⟨fuel - 3, by omega⟩
  have closing : terms tr (n + 1) (bytes ")?" ++ rest) = some (1, bytes ")?" ++ rest) := rfl
  have slash : terms tr (n + 2) (bytes "/)?" ++ rest) = some (.char '/'.toUInt8 * 1, bytes ")?" ++ rest) := by
    change terms tr (n + 1 + 1) ('/'.toUInt8 :: (bytes ")?" ++ rest)) = _
    rw [terms_atom (by decide) (by decide) (by decide)]
    change (terms tr (n + 1) (bytes ")?" ++ rest)).map _ = _
    rw [closing]
    rfl
  have inner : terms tr (n + 3) (bytes ".*/)?" ++ rest) =
      some ((byteWith fun c => !lineBreak c).star * (.char '/'.toUInt8 * 1), bytes ")?" ++ rest) := by
    change terms tr (n + 2 + 1) ('.'.toUInt8 :: (bytes "*/)?" ++ rest)) = _
    rw [terms_atom (by decide) (by decide) (by decide)]
    change (terms tr (n + 2) (bytes "/)?" ++ rest)).map _ = _
    rw [slash]
    rfl
  have going : ended ('('.toUInt8 :: (bytes "?:.*/)?" ++ rest)) = false := ended_cons (by decide) (by decide)
  change terms tr (n + 3 + 1) ('('.toUInt8 :: (bytes "?:.*/)?" ++ rest)) = _
  have opening : (bytes "(?:").isPrefixOf ('('.toUInt8 :: (bytes "?:.*/)?" ++ rest)) = true := rfl
  have content : ('('.toUInt8 :: (bytes "?:.*/)?" ++ rest)).drop 3 = bytes ".*/)?" ++ rest := rfl
  rw [terms, going, opening, if_neg Bool.false_ne_true, if_pos rfl, content, inner]
  rfl

/-- An item that is one atom and that no quantifier follows. -/
theorem terms_single {r : RegularExpression UInt8} {good : Bool} (read : i.Read) (single : i ≠ .dirs)
    (first : atom tr (i.text ++ rest) = if good then some (r, rest) else none)
    (next : ∀ d ∈ bytes "*+?", rest.head? ≠ some d) : terms tr (fuel + 1) (i.text ++ rest) =
      if good then (terms tr fuel rest).map (Prod.map (r * ·) id) else none := by
  obtain ⟨c, tail, form, -, start⟩ := text_start read
  have other : ∀ d ∈ bytes "()$", c ≠ d := fun d there same => start single (same ▸ there)
  rw [form, List.cons_append] at first ⊢
  rw [terms_atom (other _ (by decide)) (other _ (by decide)) (other _ (by decide)), first]
  cases good with
  | false => rfl
  | true =>
      rw [if_pos rfl, if_pos rfl, Option.bind_some, quantified_none next]

theorem unnamed_slash : Unnamed (bytes "/") := by
  intro mark _ inside
  have short : 2 ≤ 1 := inside.length_le
  omega

theorem atom_any (rest : Bytes) : atom tr (Item.any.text ++ rest) = some (Item.any.regex tr, rest) := by
  have read : (Item.set true (bytes "/")).Read := fun plain => by cases plain
  exact atom_set read unnamed_slash rest

theorem terms_item (read : i.Read) (plain : i.Plain) (next : ∀ d ∈ bytes "*+?", rest.head? ≠ some d)
    (enough : i.text.length ≤ fuel) : terms tr (fuel + 1) (i.text ++ rest) =
      if i.wellFormed tr then (terms tr fuel rest).map (Prod.map (i.regex tr * ·) id) else none := by
  cases i with
  | char c => exact terms_single read (by intro same; cases same) (atom_char read rest) next
  | any =>
      have first : atom tr (Item.any.text ++ rest) = if true then some (Item.any.regex tr, rest) else none :=
        atom_any rest
      exact terms_single read (by intro same; cases same) first next
  | run =>
      have first : atom tr (Item.any.text ++ '*'.toUInt8 :: rest) = some (Item.any.regex tr, '*'.toUInt8 :: rest) :=
        atom_any _
      change terms tr (fuel + 1) ('['.toUInt8 :: (bytes "^/]*" ++ rest)) = _
      rw [terms_atom (by decide) (by decide) (by decide)]
      change (atom tr (Item.any.text ++ '*'.toUInt8 :: rest)).bind _ = _
      rw [first]
      rfl
  | wild =>
      change terms tr (fuel + 1) ('.'.toUInt8 :: '*'.toUInt8 :: rest) = _
      rw [terms_atom (by decide) (by decide) (by decide)]
      rfl
  | dirs => exact terms_dirs (Nat.lt_of_lt_of_le (by decide) enough) rest
  | set negated body => exact terms_single read (by intro same; cases same) (atom_set read plain rest) next

end

/-- A translated pattern compiles where every item does. -/
theorem terms_items {tr : Traits} {is : List Item} {fuel : Nat} (each : ∀ i ∈ is, i.Read ∧ i.Plain)
    (enough : (is.flatMap Item.text).length < fuel) : terms tr fuel (is.flatMap Item.text ++ bytes "$") =
      if is.all (·.wellFormed tr) then some (regexOf tr is, bytes "$") else none := by
  induction is generalizing fuel with
  | nil =>
      obtain ⟨fuel, rfl⟩ := Nat.exists_eq_succ_of_ne_zero (Nat.ne_zero_of_lt enough)
      rfl
  | cons i is ih =>
      obtain ⟨fuel, rfl⟩ := Nat.exists_eq_succ_of_ne_zero (Nat.ne_zero_of_lt enough)
      obtain ⟨read, plain⟩ := each i List.mem_cons_self
      have others := fun j there => each j (List.mem_cons_of_mem i there)
      have solid := text_solid read
      rw [List.flatMap_cons, List.length_append] at enough
      have next : ∀ d ∈ bytes "*+?", (is.flatMap Item.text ++ bytes "$").head? ≠ some d := by
        cases is with
        | nil =>
            intro d there same
            obtain rfl := Option.some.inj same
            exact absurd there (by decide)
        | cons j is =>
            rw [List.flatMap_cons, List.append_assoc]
            exact text_head (others j List.mem_cons_self).1 _
      rw [List.flatMap_cons, List.append_assoc, Nat.succ_eq_add_one, terms_item read plain next (by omega),
        ih others (by omega), List.all_cons]
      cases i.wellFormed tr with
      | false => rfl
      | true =>
          rw [if_pos rfl, Bool.true_and]
          split_ifs
          · rfl
          · rfl

/-- No class of the pattern begins a name. -/
def PlainPattern (pattern : Bytes) : Prop := ∀ i ∈ items pattern, i.Plain

def wellFormed (tr : Traits) (pattern : Bytes) : Bool := (items pattern).all (·.wellFormed tr)

theorem compile_pattern {tr : Traits} {pattern : Bytes} (plain : PlainPattern pattern) :
    compile tr (bytes "^" ++ globFragmentToRegex pattern ++ bytes "$") =
      if wellFormed tr pattern then some (regexOf tr (items pattern)) else none := by
  have each : ∀ i ∈ items pattern, i.Read ∧ i.Plain := fun i there => ⟨items_read pattern i there, plain i there⟩
  have enough : ((items pattern).flatMap Item.text).length <
      ('^'.toUInt8 :: ((items pattern).flatMap Item.text ++ bytes "$")).length := by
    rw [List.length_cons, List.length_append]
    omega
  have whole : terms tr _ ((items pattern).flatMap Item.text ++ bytes "$") = _ := terms_items each enough
  have form : bytes "^" ++ (items pattern).flatMap Item.text ++ bytes "$" =
      '^'.toUInt8 :: ((items pattern).flatMap Item.text ++ bytes "$") := rfl
  have start : ('^'.toUInt8 :: ((items pattern).flatMap Item.text ++ bytes "$")).head? = some '^'.toUInt8 := rfl
  rw [globFragmentToRegex_items, form, compile, if_pos start, List.tail_cons, whole, wellFormed]
  split_ifs
  · rfl
  · rfl

/-! Languages -/

/-- What `.` admits. -/
def Line (c : UInt8) : Prop := lineBreak c = false

section
variable {tr : Traits} {text : Bytes}

theorem mem_line : text ∈ (byteWith fun c => !lineBreak c).star.matches' ↔ ∀ c ∈ text, Line c := by
  rw [Regex.mem_byteRun]
  simp only [Bool.not_eq_true', Line]

theorem slash_iff (c : UInt8) : (!inClass tr (bytes "/") c) = true ↔ c ≠ '/'.toUInt8 := by
  change (!(c == '/'.toUInt8 || false)) = true ↔ _
  rw [Bool.or_false, Bool.not_eq_true', beq_eq_false_iff_ne]

theorem regex_language (i : Item) : text ∈ (i.regex tr).matches' ↔ text ∈ i.language tr Line := by
  cases i with
  | char c => exact Iff.rfl
  | any =>
      rw [Item.regex, Regex.mem_byteWith]
      simp only [slash_iff]
      exact Iff.rfl
  | run =>
      rw [Item.regex, Regex.mem_byteRun]
      simp only [slash_iff]
      exact Iff.rfl
  | wild => exact mem_line
  | dirs =>
      rw [Item.regex, Regex.mem_optional, matches'_mul, matches'_mul, matches'_epsilon, mul_one, Language.mem_mul]
      refine or_congr Iff.rfl ⟨?_, ?_⟩
      · rintro ⟨front, inside, slash, rfl, rfl⟩
        exact ⟨front, mem_line.mp inside, rfl⟩
      · rintro ⟨front, inside, rfl⟩
        exact ⟨front, mem_line.mpr inside, _, rfl, rfl⟩
  | set negated body =>
      cases negated with
      | true =>
          change text ∈ (byteWith fun c => !inClass tr body c).matches' ↔ _
          rw [Regex.mem_byteWith]
          refine exists_congr fun c => and_congr_left' ?_
          rw [Bool.not_eq_true', ← Bool.not_eq_true]
          simp only [reduceCtorEq, iff_false]
      | false =>
          change text ∈ (byteWith (inClass tr body)).matches' ↔ _
          rw [Regex.mem_byteWith]
          refine exists_congr fun c => and_congr_left' ?_
          simp only [iff_true]

theorem regexOf_language (is : List Item) : text ∈ (regexOf tr is).matches' ↔ text ∈ languageOf tr Line is := by
  induction is generalizing text with
  | nil => exact Iff.rfl
  | cons i is ih =>
      rw [regexOf, matches'_mul, languageOf, Language.mem_mul, Language.mem_mul]
      simp only [regex_language, ih]

end

end Araya.Glob
