import Araya.Llm.Sse
import Araya.Util.Regex
import Araya.Util.Utf8

/-!
The ECMAScript grammar of `std::regex`, as far as translated globs are written in it: classes with ranges and names,
escapes of syntax characters, groups that capture nothing, and the quantifiers. An expression that does not follow the
grammar is a `regex_error`, here none. No interval is read: a translation escapes the `}` that would close one.
-/

namespace Araya.Glob
open Llm (Bytes)
open RegularExpression
open Regex (byteWith optional)
open Utf8 (bytes)

/-- What the traits of the regular expressions answer: the order of `char` and the names known in classes. -/
structure Traits where
  le : UInt8 → UInt8 → Bool
  className : Bytes → Option (UInt8 → Bool)
  collateName : Bytes → Option UInt8
  equivalence : Bytes → Option (UInt8 → Bool)

def syntaxCharacters : Bytes := bytes "^$\\.*+?()[]\x7b\x7d|"

/-- The marks that begin a name behind a `[` in a class. -/
def nameMarks : Bytes := bytes ":.="

def lineBreak (c : UInt8) : Bool := c == '\n'.toUInt8 || c == '\r'.toUInt8

/-! Classes -/

inductive ClassAtom where
  | char (c : UInt8)
  | set (p : UInt8 → Bool)

def ClassAtom.holds : ClassAtom → UInt8 → Bool
  | .char c => fun d => d == c
  | .set p => p

/-- The name in front of its mark and a `]`. -/
def nameBefore (mark : UInt8) : Bytes → Option (Bytes × Bytes)
  | [] => none
  | c :: rest =>
    if c = mark then
      if rest.head? = some ']'.toUInt8 then some ([], rest.tail) else none
    else (nameBefore mark rest).map (Prod.map (c :: ·) id)

section
variable (tr : Traits)

def named (mark : UInt8) (rest : Bytes) : Option (ClassAtom × Bytes) := do
  let (name, behind) ← nameBefore mark rest
  if mark = ':'.toUInt8 then
    let p ← tr.className name
    pure (.set p, behind)
  else if mark = '.'.toUInt8 then
    let c ← tr.collateName name
    pure (.char c, behind)
  else
    let p ← tr.equivalence name
    pure (.set p, behind)

/-- The escape of a syntax character. -/
def escape : Bytes → Option (UInt8 × Bytes)
  | [] => none
  | c :: rest => if c ∈ syntaxCharacters then some (c, rest) else none

def classAtom : Bytes → Option (ClassAtom × Bytes)
  | [] => none
  | c :: rest =>
    if c = '\\'.toUInt8 then (escape rest).map (Prod.map .char id)
    else
      match rest with
      | [] => some (.char c, rest)
      | mark :: behind =>
        if c = '['.toUInt8 ∧ mark ∈ nameMarks then named tr mark behind else some (.char c, rest)

/-- What follows a `-` that makes a range, which is not the last of its class. -/
def dashed : Bytes → Option Bytes
  | [] => none
  | c :: rest => if c = '-'.toUInt8 ∧ rest.head? ≠ some ']'.toUInt8 then some rest else none

def rangeOf : ClassAtom → ClassAtom → Option (UInt8 → Bool)
  | .char lo, .char hi => if tr.le lo hi then some fun c => tr.le lo c && tr.le c hi else none
  | _, _ => none

def either (p q : UInt8 → Bool) (c : UInt8) : Bool := p c || q c

/-- What a class lists up to its `]`, and what follows that. -/
def classBody : Nat → Bytes → Option ((UInt8 → Bool) × Bytes)
  | 0, _ => none
  | fuel + 1, text =>
    if text.head? = some ']'.toUInt8 then some (fun _ => false, text.tail)
    else do
      let (first, behind) ← classAtom tr text
      match dashed behind with
      | some text =>
        let (last, behind) ← classAtom tr text
        let p ← rangeOf tr first last
        (classBody fuel behind).map (Prod.map (either p) id)
      | none => (classBody fuel behind).map (Prod.map (either first.holds) id)

/-- A class behind its `[`. -/
def bracketExpression (text : Bytes) : Option (RegularExpression UInt8 × Bytes) :=
  if text.head? = some '^'.toUInt8 then
    (classBody tr text.length text.tail).map (Prod.map (fun p => byteWith fun c => !p c) id)
  else (classBody tr (text.length + 1) text).map (Prod.map byteWith id)

/-! Terms -/

/-- An atom other than a group. -/
def atom : Bytes → Option (RegularExpression UInt8 × Bytes)
  | [] => none
  | c :: rest =>
    if c = '.'.toUInt8 then some (byteWith fun c => !lineBreak c, rest)
    else if c = '\\'.toUInt8 then (escape rest).map (Prod.map char id)
    else if c = '['.toUInt8 then bracketExpression tr rest
    else if c ∈ syntaxCharacters then none
    else some (char c, rest)

def quantified (r : RegularExpression UInt8) : Bytes → RegularExpression UInt8 × Bytes
  | [] => (r, [])
  | c :: rest =>
    if c = '*'.toUInt8 then (r.star, rest)
    else if c = '+'.toUInt8 then (r * r.star, rest)
    else if c = '?'.toUInt8 then (optional r, rest)
    else (r, c :: rest)

/-- The terms end at the bracket of their group, or at the `$` behind everything. -/
def ended (text : Bytes) : Bool :=
  text.isEmpty || text.head? == some ')'.toUInt8 || text == bytes "$"

def closed : RegularExpression UInt8 × Bytes → Option (RegularExpression UInt8 × Bytes)
  | (r, behind) => if behind.head? = some ')'.toUInt8 then some (r, behind.tail) else none

def terms : Nat → Bytes → Option (RegularExpression UInt8 × Bytes)
  | 0, _ => none
  | fuel + 1, text =>
    if ended text then some (1, text)
    else
      let first := if (bytes "(?:").isPrefixOf text then (terms fuel (text.drop 3)).bind closed else atom tr text
      first.bind fun (r, behind) =>
        let (term, behind) := quantified r behind
        (terms fuel behind).map (Prod.map (term * ·) id)

/-- The expression between `^` and `$`. -/
def compile (text : Bytes) : Option (RegularExpression UInt8) :=
  if text.head? = some '^'.toUInt8 then
    match terms tr text.length text.tail with
    | some (r, behind) => if behind = bytes "$" then some r else none
    | none => none
  else none

end

end Araya.Glob
