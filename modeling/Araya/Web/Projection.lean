import Araya.Util.Cut
import Araya.Util.Lists
import Araya.Web.Scan

/-!
What a page shows as text: comments, tags and the elements that are never shown stand for white space, the known
entities for their characters, and everything else for itself. A `<` that begins no tag, a tag that does not end and an
`&` that begins no known entity are text.
-/

namespace Araya.Web
open Llm (Bytes)
open Utf8 (bytes)

/-! Markup -/

def lower (c : UInt8) : UInt8 := if 'A'.toUInt8 ≤ c ∧ c ≤ 'Z'.toUInt8 then c + 32 else c

/-- Where an attribute value may stand in quotes. -/
inductive AttributeMode where
  | name
  | value
  | double
  | single

/-- The mode behind a byte of a tag, or none where it ends the tag. -/
def AttributeMode.next : AttributeMode → UInt8 → Option AttributeMode
  | .name, c => if c = '>'.toUInt8 then none else if c = '='.toUInt8 then some .value else some .name
  | .value, c =>
    if c = '>'.toUInt8 then none
    else if c = '"'.toUInt8 then some .double
    else if c = '\''.toUInt8 then some .single
    else if blank c then some .value
    else some .name
  | .double, c => if c = '"'.toUInt8 then some .name else some .double
  | .single, c => if c = '\''.toUInt8 then some .name else some .single

/-- What follows a tag; a `>` in a quoted value does not end it. -/
def tagEnd (mode : AttributeMode) : Bytes → Option Bytes
  | [] => none
  | c :: rest =>
    match mode.next c with
    | none => some rest
    | some mode => tagEnd mode rest

/-- A `<` begins a tag in front of one of these. -/
def beginsTag (rest : Bytes) : Bool :=
  match rest with
  | [] => false
  | c :: _ => letter c || c == '/'.toUInt8 || c == '!'.toUInt8 || c == '?'.toUInt8

def endsName (c : UInt8) : Bool := blank c || c == '/'.toUInt8 || c == '>'.toUInt8

/-- The elements whose content is never shown. -/
def hidden : List Bytes := [bytes "script", bytes "style", bytes "noscript"]

def hiddenName (rest : Bytes) : Option Bytes :=
  let name := (rest.takeWhile fun c => !endsName c).map lower
  if name ∈ hidden then some name else none

/-- A closing tag, in any case of letters. -/
def closes (name text : Bytes) : Bool :=
  (text.take 2 == bytes "</") && (((text.drop 2).take name.length).map lower == name) &&
    ((text.drop (2 + name.length)).head?.all endsName)

/-- What follows an element of hidden content; without a closing tag, nothing does. -/
def elementEnd (name : Bytes) : Bytes → Bytes
  | [] => []
  | c :: rest => if closes name (c :: rest) then afterTag rest else elementEnd name rest

/-- What follows a comment; one that does not end goes on to the end. -/
def commentEnd (rest : Bytes) : Bytes :=
  match cut (bytes "-->") rest with
  | some (_, rest) => rest
  | none => []

/-- What follows the markup behind a `<`, if it begins any. -/
def markupEnd (rest : Bytes) : Option Bytes :=
  if bytes "!--" <+: rest then some (commentEnd (rest.drop 1))
  else if beginsTag rest then
    (tagEnd .name rest).map fun behind =>
      match hiddenName rest with
      | some name => elementEnd name behind
      | none => behind
  else none

/-- The characters of a known entity behind a `&`, and what follows it. -/
def entityAt (rest : Bytes) : Option (Bytes × Bytes) :=
  match cut [';'.toUInt8] rest with
  | some (name, rest) => if decodeEntity name = [] then none else some (decodeEntity name, rest)
  | none => none

/-! The text -/

/-- The first character of a text, or markup, as it is shown, and what follows. -/
def shown (c : UInt8) (rest : Bytes) : Bytes × Bytes :=
  if c = '<'.toUInt8 then
    match markupEnd rest with
    | some behind => ([' '.toUInt8], behind)
    | none => ([c], rest)
  else if c = '&'.toUInt8 then (entityAt rest).getD ([c], rest)
  else ([c], rest)

section
variable {rest behind : Bytes}

theorem afterTag_length (text : Bytes) : (afterTag text).length ≤ text.length := by
  induction text with
  | nil => exact Nat.le_refl 0
  | cons c text ih =>
      unfold afterTag
      split_ifs
      · exact Nat.le_succ _
      · exact Nat.le_succ_of_le ih

theorem tagEnd_length {mode : AttributeMode} (found : tagEnd mode rest = some behind) : behind.length ≤ rest.length := by
  induction rest generalizing mode with
  | nil => cases found
  | cons c rest ih =>
      rw [tagEnd] at found
      split at found
      · obtain rfl := Option.some.inj found
        exact Nat.le_succ _
      · exact Nat.le_succ_of_le (ih found)

theorem elementEnd_length (name text : Bytes) : (elementEnd name text).length ≤ text.length := by
  induction text with
  | nil => exact Nat.le_refl 0
  | cons c text ih =>
      unfold elementEnd
      split_ifs
      · exact Nat.le_succ_of_le (afterTag_length text)
      · exact Nat.le_succ_of_le ih

theorem commentEnd_length (text : Bytes) : (commentEnd text).length ≤ text.length := by
  unfold commentEnd
  split
  · next found =>
      rw [cut_length found]
      omega
  · exact Nat.zero_le _

theorem markupEnd_length (found : markupEnd rest = some behind) : behind.length ≤ rest.length := by
  unfold markupEnd at found
  split_ifs at found
  · obtain rfl := Option.some.inj found
    have short := commentEnd_length (rest.drop 1)
    rw [List.length_drop] at short
    exact Nat.le_trans short (Nat.sub_le _ 1)
  · obtain ⟨text, ended, same⟩ := Option.map_eq_some_iff.mp found
    have short := tagEnd_length ended
    subst same
    split
    · exact Nat.le_trans (elementEnd_length _ text) short
    · exact short

theorem entityAt_length {text : Bytes} (found : entityAt rest = some (text, behind)) : behind.length ≤ rest.length := by
  unfold entityAt at found
  split at found
  · next name left here =>
      split_ifs at found
      obtain ⟨_, rfl⟩ := Prod.mk.inj (Option.some.inj found)
      rw [cut_length here]
      omega
  · cases found

theorem shown_length (c : UInt8) (rest : Bytes) : (shown c rest).2.length ≤ rest.length := by
  unfold shown
  split_ifs
  · split
    · next found => exact markupEnd_length found
    · exact Nat.le_refl _
  · cases found : entityAt rest with
    | none => exact Nat.le_refl _
    | some read =>
        obtain ⟨text, behind⟩ := read
        exact entityAt_length found
  · exact Nat.le_refl _

end

def visible : Bytes → Bytes
  | [] => []
  | c :: rest => (shown c rest).1 ++ visible (shown c rest).2
termination_by text => text.length
decreasing_by exact Nat.lt_succ_of_le (shown_length c rest)

def wordsOf (text : Bytes) : List Bytes := (text.splitOnP blank).filter (· ≠ [])

/-- The visible text, its words set apart by single spaces. -/
def project (html : Bytes) : Bytes := List.intercalate [' '.toUInt8] (wordsOf (visible html))

/-! White space -/

/-- What the collapse writes: the rest of a word and the words behind it, the words behind a gap, or all the words. -/
theorem collapse_words (text : Bytes) : ∃ word more, text.splitOnP blank = word :: more ∧
    collapse false true text = word ++ (more.filter (· ≠ [])).flatMap ([' '.toUInt8] ++ ·) ∧
    collapse true true text = (wordsOf text).flatMap ([' '.toUInt8] ++ ·) ∧
    ∀ pending, collapse pending false text = List.intercalate [' '.toUInt8] (wordsOf text) := by
  unfold wordsOf
  induction text with
  | nil => exact ⟨[], [], rfl, rfl, rfl, fun _ => rfl⟩
  | cons c text ih =>
      obtain ⟨word, more, parts, inside, behind, all⟩ := ih
      rw [List.splitOnP_cons_eq_if_modifyHead]
      cases gap : blank c with
      | true =>
          refine ⟨[], text.splitOnP blank, rfl, ?_, ?_, fun pending => ?_⟩
          · rw [collapse, if_pos gap, behind, List.nil_append]
          · rw [collapse, if_pos gap, behind]
            rfl
          · rw [collapse, if_pos gap, all]
            rfl
      | false =>
          have solid : ¬ blank c = true := by rw [gap]; exact Bool.false_ne_true
          have kept : ((c :: word) :: more).filter (· ≠ []) = (c :: word) :: more.filter (· ≠ []) :=
            List.filter_cons_of_pos (by simp)
          have spread : (if false = true then [] :: List.splitOnP blank text
              else (List.splitOnP blank text).modifyHead (List.cons c)) = (c :: word) :: more := by
            rw [if_neg Bool.false_ne_true, parts]
            rfl
          rw [spread]
          refine ⟨c :: word, more, rfl, ?_, ?_, fun pending => ?_⟩
          · rw [collapse, if_neg solid, inside]
            rfl
          · rw [collapse, if_neg solid, inside, kept, List.flatMap_cons]
            rfl
          · rw [collapse, if_neg solid, inside, kept, intercalate_cons, Bool.and_false, if_neg Bool.false_ne_true]
            rfl

theorem collapse_eq (text : Bytes) : collapse false false text = List.intercalate [' '.toUInt8] (wordsOf text) := by
  obtain ⟨_, _, _, _, _, all⟩ := collapse_words text
  exact all false

/-! Pages that the scanner reads right -/

/-- Markup ends where the scanner leaves it, and an ampersand of the text is followed, at most eleven letters, digits and
number signs on, by a byte that stands for itself. -/
inductive Regular : Bytes → Prop
  | nil : Regular []
  | text {c : UInt8} {rest : Bytes} (plain : c ≠ '<'.toUInt8) (single : c ≠ '&'.toUInt8) (more : Regular rest) :
    Regular (c :: rest)
  | markup {rest : Bytes} (found : markupEnd rest = some (scannerEnd rest)) (more : Regular (scannerEnd rest)) :
    Regular ('<'.toUInt8 :: rest)
  | entity {rest text behind : Bytes} (found : entityAt rest = some (text, behind)) (more : Regular behind) :
    Regular ('&'.toUInt8 :: rest)
  | ampersand {name rest : Bytes} {c : UInt8} (chars : ∀ c ∈ name, entityChar c = true) (short : name.length ≤ 11)
    (full : name.length = 11 ∨ entityChar c = false) (other : c ≠ ';'.toUInt8) (itself : shown c rest = ([c], rest))
    (more : Regular rest) : Regular ('&'.toUInt8 :: (name ++ c :: rest))

section
variable {name rest text behind : Bytes} {c : UInt8}

theorem visible_itself (itself : shown c rest = ([c], rest)) : visible (c :: rest) = c :: visible rest := by
  rw [visible, itself, List.singleton_append]

theorem shown_text (plain : c ≠ '<'.toUInt8) (single : c ≠ '&'.toUInt8) : shown c rest = ([c], rest) := by
  rw [shown, if_neg plain, if_neg single]

theorem visible_markup (found : markupEnd rest = some behind) :
    visible ('<'.toUInt8 :: rest) = ' '.toUInt8 :: visible behind := by
  rw [visible, shown, if_pos rfl, found, List.singleton_append]

theorem visible_entity (found : entityAt rest = some (text, behind)) :
    visible ('&'.toUInt8 :: rest) = text ++ visible behind := by
  rw [visible, shown, if_neg (by decide), if_pos rfl, found, Option.getD_some]

theorem shown_ampersand (none : entityAt rest = none) : shown '&'.toUInt8 rest = (['&'.toUInt8], rest) := by
  rw [shown, if_neg (by decide), if_pos rfl, none, Option.getD_none]

theorem entityChar_text (inside : entityChar c = true) : c ≠ '<'.toUInt8 ∧ c ≠ '&'.toUInt8 := by
  constructor
  · rintro rfl
    exact absurd inside (by decide)
  · rintro rfl
    exact absurd inside (by decide)

theorem visible_name (chars : ∀ c ∈ name, entityChar c = true) : visible (name ++ rest) = name ++ visible rest := by
  induction name with
  | nil => rfl
  | cons c name ih =>
      obtain ⟨plain, single⟩ := entityChar_text (chars c List.mem_cons_self)
      rw [List.cons_append, visible_itself (shown_text plain single),
        ih fun d there => chars d (List.mem_cons_of_mem c there), List.cons_append]

theorem decodeEntity_known (known : decodeEntity name ≠ []) :
    (∀ c ∈ name, entityChar c = true) ∧ name.length ≤ 4 := by
  suffices small : name.all entityChar = true ∧ name.length ≤ 4 from ⟨List.all_eq_true.mp small.1, small.2⟩
  unfold decodeEntity at known
  split_ifs at known with h₁ h₂ h₃ h₄ h₅ h₆
  · subst h₁
    decide
  · subst h₂
    decide
  · subst h₃
    decide
  · subst h₄
    decide
  · rcases h₅ with rfl | rfl
    · decide
    · decide
  · subst h₆
    decide
  · exact absurd rfl known

theorem entityAt_known (found : entityAt rest = some (text, behind)) :
    ∃ name, rest = name ++ ';'.toUInt8 :: behind ∧ text = decodeEntity name ∧ decodeEntity name ≠ [] := by
  unfold entityAt at found
  split at found
  · next name left here =>
      split_ifs at found with unknown
      obtain ⟨rfl, rfl⟩ := Prod.mk.inj (Option.some.inj found)
      exact ⟨name, cut_eq here, rfl, unknown⟩
  · cases found

theorem entityAt_none (chars : ∀ c ∈ name, entityChar c = true) (full : name.length = 11 ∨ entityChar c = false)
    (other : c ≠ ';'.toUInt8) : entityAt (name ++ c :: rest) = none := by
  cases found : entityAt (name ++ c :: rest) with
  | none => rfl
  | some read =>
      obtain ⟨text, behind⟩ := read
      obtain ⟨known, whole, _, decoded⟩ := entityAt_known found
      obtain ⟨inside, short⟩ := decodeEntity_known decoded
      rcases List.append_eq_append_iff.mp whole with ⟨more, rfl, tail⟩ | ⟨more, rfl, tail⟩
      · cases more with
        | nil => exact absurd (List.cons.inj tail).1 other
        | cons d more =>
            obtain ⟨rfl, _⟩ := List.cons.inj tail
            rcases full with full | ended
            · rw [List.length_append] at short
              omega
            · have := inside c (List.mem_append_right _ List.mem_cons_self)
              exact absurd (this.symm.trans ended) (by decide)
      · cases more with
        | nil => exact absurd (List.cons.inj tail).1.symm other
        | cons d more =>
            obtain ⟨rfl, _⟩ := List.cons.inj tail
            exact absurd (chars _ (List.mem_append_right _ List.mem_cons_self)) (by decide)

theorem scan_visible (regular : Regular text) (out : Bytes) :
    (({ out } : Scan).run text).out = out ++ visible text := by
  induction regular generalizing out with
  | nil => rw [visible, List.append_nil]; rfl
  | text plain single more ih =>
      rw [run_text plain single, ih, visible_itself (shown_text plain single), List.append_assoc, List.singleton_append]
  | markup found more ih =>
      rw [run_markup, ih, visible_markup found, List.append_assoc, List.singleton_append]
  | entity found more ih =>
      rw [visible_entity found]
      obtain ⟨name, rfl, rfl, known⟩ := entityAt_known found
      obtain ⟨chars, short⟩ := decodeEntity_known known
      rw [run_entity chars (by omega), ih, List.append_assoc]
  | ampersand chars short full other itself more ih =>
      rw [run_no_entity chars short other full, ih, visible_itself (shown_ampersand (entityAt_none chars full other)),
        visible_name chars, visible_itself itself]
      simp only [List.append_assoc, List.cons_append, List.nil_append]

end

/-- On the pages that the scanner reads right, the text is the projection. -/
theorem stripHtml_project (html : Bytes) (regular : Regular html) : stripHtml html = project html := by
  unfold stripHtml project
  rw [collapse_eq, scan_visible regular, List.nil_append]

theorem stripHtml_project_break : stripHtml (bytes "hi<br>&amp;") = project (bytes "hi<br>&amp;") := by
  have regular : Regular (bytes "hi<br>&amp;") := by
    have form : bytes "hi<br>&amp;" = 'h'.toUInt8 :: 'i'.toUInt8 :: '<'.toUInt8 :: bytes "br>&amp;" := by decide
    rw [form]
    refine .text (by decide) (by decide) (.text (by decide) (by decide) (.markup (by decide) ?_))
    have behind : scannerEnd (bytes "br>&amp;") = '&'.toUInt8 :: bytes "amp;" := by decide
    rw [behind]
    have known : entityAt (bytes "amp;") = some (['&'.toUInt8], []) := by decide
    exact .entity known .nil
  exact stripHtml_project (bytes "hi<br>&amp;") regular

/-- An ampersand near the end takes text with it, and the content of a hidden element is shown. -/
theorem text_lost : stripHtml (bytes "AT&T") ≠ project (bytes "AT&T") ∧
    stripHtml (bytes "<noscript>x</noscript>") ≠ project (bytes "<noscript>x</noscript>") := by
  constructor
  · have form : bytes "AT&T" = 'A'.toUInt8 :: 'T'.toUInt8 :: '&'.toUInt8 :: 'T'.toUInt8 :: [] := by decide
    have all : visible (bytes "AT&T") = bytes "AT&T" := by
      rw [form, visible_itself (shown_text (by decide) (by decide)), visible_itself (shown_text (by decide) (by decide)),
        visible_itself (shown_ampersand (by decide)), visible_itself (shown_text (by decide) (by decide)), visible]
    rw [project, all]
    decide
  · have form : bytes "<noscript>x</noscript>" = '<'.toUInt8 :: bytes "noscript>x</noscript>" := by decide
    have ended : markupEnd (bytes "noscript>x</noscript>") = some [] := by decide
    have none : visible (bytes "<noscript>x</noscript>") = [' '.toUInt8] := by
      rw [form, visible_markup ended, visible]
    rw [project, none]
    decide

end Araya.Web
