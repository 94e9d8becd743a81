import Araya.Llm.Sse
import Araya.Util.Utf8
import Mathlib.Tactic.SplitIfs

/-!
The scanner of fetched pages: one pass over the bytes with three modes, and then the white space. An opening script or
style tag enters two modes at once, so that what follows the closing mark is skipped as a tag.
-/

namespace Araya.Web
open Llm (Bytes)
open Utf8 (bytes)

def decodeEntity (name : Bytes) : Bytes :=
  if name = bytes "amp" then bytes "&"
  else if name = bytes "lt" then bytes "<"
  else if name = bytes "gt" then bytes ">"
  else if name = bytes "quot" then bytes "\""
  else if name = bytes "apos" ∨ name = bytes "#39" then bytes "'"
  else if name = bytes "nbsp" then bytes " "
  else []

def letter (c : UInt8) : Bool :=
  ('A'.toUInt8 ≤ c && c ≤ 'Z'.toUInt8) || ('a'.toUInt8 ≤ c && c ≤ 'z'.toUInt8)

def alnum (c : UInt8) : Bool := letter c || ('0'.toUInt8 ≤ c && c ≤ '9'.toUInt8)

def entityChar (c : UInt8) : Bool := alnum c || c == '#'.toUInt8

structure Scan where
  out : Bytes := []
  inTag : Bool := false
  inScript : Bool := false
  inEntity : Bool := false
  entity : Bytes := []

def opensScript (rest : Bytes) : Bool :=
  (bytes "script>").isPrefixOf rest || (bytes "script ").isPrefixOf rest || (bytes "style>").isPrefixOf rest ||
    (bytes "style ").isPrefixOf rest

def closesScript (text : Bytes) : Bool := (bytes "</script").isPrefixOf text || (bytes "</style").isPrefixOf text

def Scan.step (st : Scan) (c : UInt8) (rest : Bytes) : Scan :=
  if st.inScript then
    if closesScript (c :: rest) then { st with inScript := false } else st
  else if st.inEntity then
    if c = ';'.toUInt8 then { st with out := st.out ++ decodeEntity st.entity, entity := [], inEntity := false }
    else if 10 < st.entity.length ∨ ¬ entityChar c then
      { st with out := st.out ++ '&'.toUInt8 :: (st.entity ++ [c]), entity := [], inEntity := false }
    else { st with entity := st.entity ++ [c] }
  else if st.inTag then
    if c = '>'.toUInt8 then { st with inTag := false } else st
  else if c = '<'.toUInt8 then
    { st with inScript := opensScript rest, inTag := true, out := st.out ++ [' '.toUInt8] }
  else if c = '&'.toUInt8 then { st with inEntity := true, entity := [] }
  else { st with out := st.out ++ [c] }

def Scan.run (st : Scan) : Bytes → Scan
  | [] => st
  | c :: rest => (st.step c rest).run rest

def blank (c : UInt8) : Bool := c == ' '.toUInt8 || c == '\t'.toUInt8 || c == '\r'.toUInt8 || c == '\n'.toUInt8

/-- The white space: whether a space is pending, and whether anything was written. -/
def collapse (pending written : Bool) : Bytes → Bytes
  | [] => []
  | c :: rest =>
    if blank c then collapse true written rest
    else (if pending && written then [' '.toUInt8] else []) ++ c :: collapse false true rest

def stripHtml (html : Bytes) : Bytes := collapse false false (({} : Scan).run html).out

/-! The modes -/

/-- What is left behind the next `>`. -/
def afterTag : Bytes → Bytes
  | [] => []
  | c :: rest => if c = '>'.toUInt8 then rest else afterTag rest

/-- What is left behind the `<` of the next closing mark. -/
def afterClose : Bytes → Bytes
  | [] => []
  | c :: rest => if closesScript (c :: rest) then rest else afterClose rest

/-- Where the scanner goes on from a `<`. -/
def scannerEnd (rest : Bytes) : Bytes := if opensScript rest then afterTag (afterClose rest) else afterTag rest

section
variable {out entity name text : Bytes} {c : UInt8}

theorem Scan.run_cons (st : Scan) (c : UInt8) (rest : Bytes) : st.run (c :: rest) = (st.step c rest).run rest := rfl

theorem run_tag : (({ out, inTag := true } : Scan).run text).out = (({ out } : Scan).run (afterTag text)).out := by
  induction text with
  | nil => rfl
  | cons c text ih =>
      rw [Scan.run_cons, afterTag]
      simp only [Scan.step, Bool.false_eq_true, if_false, if_true]
      split_ifs
      · rfl
      · exact ih

theorem run_script : (({ out, inTag := true, inScript := true } : Scan).run text).out =
    (({ out, inTag := true } : Scan).run (afterClose text)).out := by
  induction text with
  | nil => rfl
  | cons c text ih =>
      rw [Scan.run_cons, afterClose]
      simp only [Scan.step, if_true]
      split_ifs
      · rfl
      · exact ih

theorem run_markup : (({ out } : Scan).run ('<'.toUInt8 :: text)).out =
    (({ out := out ++ [' '.toUInt8] } : Scan).run (scannerEnd text)).out := by
  rw [Scan.run_cons, scannerEnd]
  simp only [Scan.step, Bool.false_eq_true, if_false, if_true]
  cases opensScript text with
  | true => exact run_script.trans run_tag
  | false => exact run_tag

theorem run_text (tag : c ≠ '<'.toUInt8) (entity : c ≠ '&'.toUInt8) :
    ({ out } : Scan).run (c :: text) = ({ out := out ++ [c] } : Scan).run text := by
  rw [Scan.run_cons]
  simp only [Scan.step, Bool.false_eq_true, if_false, if_neg tag, if_neg entity]

theorem entityChar_not_end (inside : entityChar c = true) : c ≠ ';'.toUInt8 := by
  rintro rfl
  exact absurd inside (by decide)

/-- The name of an entity is kept while it is one. -/
theorem run_name (chars : ∀ c ∈ name, entityChar c = true) (short : entity.length + name.length ≤ 11) :
    ({ out, inEntity := true, entity } : Scan).run (name ++ text) =
      ({ out, inEntity := true, entity := entity ++ name } : Scan).run text := by
  induction name generalizing entity with
  | nil => rw [List.nil_append, List.append_nil]
  | cons c name ih =>
      have inside := chars c List.mem_cons_self
      rw [List.length_cons] at short
      have room : ¬ (10 < entity.length ∨ ¬ entityChar c = true) := by
        rw [not_or, not_not]
        exact ⟨by omega, inside⟩
      rw [List.cons_append, Scan.run_cons]
      simp only [Scan.step, Bool.false_eq_true, if_false, if_true, if_neg (entityChar_not_end inside), if_neg room]
      have less : (entity ++ [c]).length + name.length ≤ 11 := by
        rw [List.length_append, List.length_singleton]
        omega
      rw [ih (fun d there => chars d (List.mem_cons_of_mem c there)) less, List.append_assoc, List.singleton_append]

theorem run_ampersand : ({ out } : Scan).run ('&'.toUInt8 :: text) = ({ out, inEntity := true } : Scan).run text := rfl

theorem run_entity (chars : ∀ c ∈ name, entityChar c = true) (short : name.length ≤ 11) :
    ({ out } : Scan).run ('&'.toUInt8 :: (name ++ ';'.toUInt8 :: text)) =
      ({ out := out ++ decodeEntity name } : Scan).run text := by
  rw [run_ampersand, run_name chars (by rw [List.length_nil]; omega), List.nil_append]
  rfl

/-- What is no entity is written as it stands, with the byte that showed it. -/
theorem run_no_entity (chars : ∀ c ∈ name, entityChar c = true) (short : name.length ≤ 11) (other : c ≠ ';'.toUInt8)
    (shown : name.length = 11 ∨ entityChar c = false) :
    ({ out } : Scan).run ('&'.toUInt8 :: (name ++ c :: text)) =
      ({ out := out ++ '&'.toUInt8 :: (name ++ [c]) } : Scan).run text := by
  have flushed : 10 < name.length ∨ ¬ entityChar c = true := by
    rcases shown with full | ended
    · exact .inl (by omega)
    · exact .inr (by rw [ended]; exact Bool.false_ne_true)
  rw [run_ampersand, run_name chars (by rw [List.length_nil]; omega), List.nil_append]
  rw [Scan.run_cons]
  simp only [Scan.step, Bool.false_eq_true, if_false, if_true, if_neg other, if_pos flushed]

end

end Araya.Web
