import Mathlib.Data.List.Basic

/-!
Conditions of an SQL query over the columns of a row. A condition is true, false or unknown; its
parameters are bound by position, and a row is accepted when every condition is true.
-/

namespace Araya

universe u

inductive SqlValue where
  | null
  | int (value : Int)
  | text (value : String)
  deriving DecidableEq

namespace SqlValue

/-- `=`: values of different storage classes differ. -/
def eq : SqlValue → SqlValue → Option Bool
  | .null, _ | _, .null => none
  | a, b => some (a = b)

/-- `<=`: an integer is less than any text. -/
def le : SqlValue → SqlValue → Option Bool
  | .null, _ | _, .null => none
  | .int m, .int n => some (m ≤ n)
  | .int _, .text _ => some true
  | .text _, .int _ => some false
  | .text s, .text t => some (s ≤ t)

def toText : SqlValue → Option String
  | .null => none
  | .int n => some (toString n)
  | .text s => some s

end SqlValue

/-- `instr`: where the needle first occurs, counted from one, or zero. -/
def instr (needle : List Char) : List Char → Nat
  | [] => if needle.isEmpty then 1 else 0
  | c :: rest =>
    if needle.isPrefixOf (c :: rest) then 1
    else match instr needle rest with
      | 0 => 0
      | k + 1 => k + 2

/-- `lower`: only the letters of ASCII. -/
def sqlLower (text : String) : List Char := text.toList.map Char.toLower

/-- The conditions, with `?` for a parameter: `0`, `c IN (?, …)`, `c >= ?`, `c <= ?`, `c IS NULL`, `c = 1`,
`a OR b` and `instr(lower(c), lower(?)) > 0`. -/
inductive SqlExpr (κ : Type u) where
  | zero
  | isIn (c : κ) (count : Nat)
  | atLeast (c : κ)
  | atMost (c : κ)
  | isNull (c : κ)
  | isOne (c : κ)
  | or (a b : SqlExpr κ)
  | contains (c : κ)

namespace SqlExpr
variable {κ : Type u}

/-- `OR` of truth values. -/
def disjunction : Option Bool → Option Bool → Option Bool
  | some true, _ | _, some true => some true
  | some false, some false => some false
  | _, _ => none

/-- `IN`: true when some value is equal, unknown when one could be. -/
def member (v : SqlValue) (values : List SqlValue) : Option Bool :=
  values.foldr (fun w rest => disjunction (v.eq w) rest) (some false)

/-- How many parameters a condition has. -/
def params : SqlExpr κ → Nat
  | .isIn _ count => count
  | .atLeast _ | .atMost _ | .contains _ => 1
  | .or a b => a.params + b.params
  | _ => 0

/-- The truth of a condition with its own parameters. -/
def eval (row : κ → SqlValue) : SqlExpr κ → List SqlValue → Option Bool
  | .zero, _ => some false
  | .isIn c _, binds => member (row c) binds
  | .atLeast c, binds => (binds.headD .null).le (row c)
  | .atMost c, binds => (row c).le (binds.headD .null)
  | .isNull c, _ => some (row c = .null)
  | .isOne c, _ => (row c).eq (.int 1)
  | .or a b, binds => disjunction (a.eval row (binds.take a.params)) (b.eval row (binds.drop a.params))
  | .contains c, binds =>
    match (row c).toText, (binds.headD .null).toText with
    | some text, some needle => some (0 < instr (sqlLower needle) (sqlLower text))
    | _, _ => none

end SqlExpr

/-- The parameters of conditions that are taken together. -/
def SqlExpr.paramsOf {κ : Type u} : List (SqlExpr κ) → Nat
  | [] => 0
  | e :: terms => e.params + paramsOf terms

theorem SqlExpr.paramsOf_concat {κ : Type u} (terms : List (SqlExpr κ)) (e : SqlExpr κ) :
    paramsOf (terms ++ [e]) = paramsOf terms + e.params := by
  induction terms with
  | nil => exact Nat.add_comm e.params 0
  | cons d terms ih => exact (congrArg (d.params + ·) ih).trans (Nat.add_assoc ..).symm

/-- Conditions joined by `AND`, with a bound value for every parameter. -/
structure Where (κ : Type u) where
  terms : List (SqlExpr κ) := []
  binds : List SqlValue := []
  bound : binds.length = SqlExpr.paramsOf terms := by rfl

namespace Where
variable {κ : Type u}

/-- One more condition is appended, and its values to the bound ones. -/
def append (w : Where κ) (e : SqlExpr κ) (values : List SqlValue) (bound : values.length = e.params) : Where κ where
  terms := w.terms ++ [e]
  binds := w.binds ++ values
  bound := by rw [List.length_append, w.bound, bound, SqlExpr.paramsOf_concat]

/-- The conditions take their parameters one after the other. -/
def holds (row : κ → SqlValue) : List (SqlExpr κ) → List SqlValue → Bool
  | [], _ => true
  | e :: terms, binds => e.eval row (binds.take e.params) = some true && holds row terms (binds.drop e.params)

def accepts (w : Where κ) (row : κ → SqlValue) : Bool := holds row w.terms w.binds

theorem holds_append {row : κ → SqlValue} {terms : List (SqlExpr κ)} {binds : List SqlValue}
    (bound : binds.length = SqlExpr.paramsOf terms) (more : List (SqlExpr κ)) (values : List SqlValue) :
    holds row (terms ++ more) (binds ++ values) = (holds row terms binds && holds row more values) := by
  induction terms generalizing binds with
  | nil =>
      rw [List.length_eq_zero_iff.mp bound]
      rfl
  | cons e terms ih =>
      rw [SqlExpr.paramsOf] at bound
      have enough : e.params ≤ binds.length := bound ▸ Nat.le_add_right _ _
      have rest : (binds.drop e.params).length = SqlExpr.paramsOf terms := by
        rw [List.length_drop, bound, Nat.add_sub_cancel_left]
      rw [List.cons_append, holds, holds, List.take_append_of_le_length enough, List.drop_append_of_le_length enough,
        ih rest, Bool.and_assoc]

@[simp] theorem accepts_empty (row : κ → SqlValue) : ({} : Where κ).accepts row = true := rfl

/-- A condition is true of its own values, wherever it stands. -/
theorem accepts_append (w : Where κ) (e : SqlExpr κ) (values : List SqlValue) (bound : values.length = e.params)
    (row : κ → SqlValue) : (w.append e values bound).accepts row = (w.accepts row && e.eval row values = some true) := by
  unfold accepts append
  rw [holds_append w.bound, holds, holds, Bool.and_true, List.take_of_length_le (Nat.le_of_eq bound)]

end Where

namespace SqlExpr
variable {κ : Type u} {row : κ → SqlValue}

theorem disjunction_true {a b : Option Bool} : disjunction a b = some true ↔ a = some true ∨ b = some true := by
  rcases a with - | - | - <;> rcases b with - | - | - <;> decide

/-- `IN` is true when the value is one of those bound. -/
theorem member_true {v : SqlValue} {values : List SqlValue} :
    member v values = some true ↔ ∃ w ∈ values, v.eq w = some true := by
  induction values with
  | nil => exact ⟨fun h => (by cases h), fun ⟨_, member, _⟩ => (by cases member)⟩
  | cons w values ih =>
      refine disjunction_true.trans ((or_congr_right ih).trans ?_)
      rw [List.exists_mem_cons_iff]

theorem eq_text {v : SqlValue} {s : String} : v.eq (.text s) = some true ↔ v = .text s := by
  cases v with
  | null => exact ⟨fun h => (by cases h), fun h => (by cases h)⟩
  | int n => exact ⟨fun h => (by cases h), fun h => (by cases h)⟩
  | text t => exact Option.some_inj.trans decide_eq_true_iff

theorem isIn_text {c : κ} {count : Nat} {texts : List String} :
    eval row (.isIn c count) (texts.map .text) = some true ↔ ∃ s ∈ texts, row c = .text s := by
  refine member_true.trans ⟨?_, ?_⟩
  · rintro ⟨w, member, same⟩
    obtain ⟨s, there, rfl⟩ := List.mem_map.mp member
    exact ⟨s, there, eq_text.mp same⟩
  · rintro ⟨s, there, same⟩
    exact ⟨.text s, List.mem_map_of_mem there, eq_text.mpr same⟩

/-- Conditions joined by `OR`; none is never true. -/
def anyOf : List (SqlExpr κ) → SqlExpr κ
  | [] => .zero
  | e :: es => es.foldl .or e

theorem params_foldl (es : List (SqlExpr κ)) (e : SqlExpr κ) (none : ∀ e' ∈ e :: es, e'.params = 0) :
    (es.foldl SqlExpr.or e).params = 0 := by
  induction es generalizing e with
  | nil => exact none e List.mem_cons_self
  | cons e' es ih =>
      refine ih (.or e e') fun x member => ?_
      rcases List.mem_cons.mp member with rfl | later
      · show e.params + e'.params = 0
        rw [none e List.mem_cons_self, none e' (List.mem_cons_of_mem _ List.mem_cons_self)]
      · exact none x (List.mem_cons_of_mem _ (List.mem_cons_of_mem _ later))

theorem eval_foldl (es : List (SqlExpr κ)) (e : SqlExpr κ) :
    eval row (es.foldl .or e) [] = some true ↔ ∃ e' ∈ e :: es, eval row e' [] = some true := by
  induction es generalizing e with
  | nil => simp only [List.foldl_nil, List.mem_singleton, exists_eq_left]
  | cons e' es ih =>
      have pair : eval row (.or e e') [] = some true ↔ eval row e [] = some true ∨ eval row e' [] = some true := by
        rw [eval, List.take_nil, List.drop_nil]
        exact disjunction_true
      rw [List.foldl_cons, ih, List.exists_mem_cons_iff, pair, List.exists_mem_cons_iff, List.exists_mem_cons_iff, or_assoc]

theorem params_anyOf {es : List (SqlExpr κ)} (none : ∀ e ∈ es, e.params = 0) : (anyOf es).params = 0 := by
  cases es with
  | nil => rfl
  | cons e es => exact params_foldl es e none

theorem eval_anyOf {es : List (SqlExpr κ)} : eval row (anyOf es) [] = some true ↔ ∃ e ∈ es, eval row e [] = some true := by
  cases es with
  | nil => exact ⟨fun h => (by cases h), fun ⟨_, member, _⟩ => (by cases member)⟩
  | cons e es => exact eval_foldl es e

end SqlExpr

/-- `instr` finds what is there. -/
theorem instr_pos {needle hay : List Char} : 0 < instr needle hay ↔ needle <:+: hay := by
  induction hay with
  | nil =>
      unfold instr
      rw [List.infix_nil]
      cases needle <;> simp
  | cons c rest ih =>
      unfold instr
      rw [List.infix_cons_iff]
      split
      · next found => exact iff_of_true Nat.one_pos (.inl (List.isPrefixOf_iff_prefix.mp found))
      · next missing =>
          have absent : ¬ needle <+: c :: rest := fun found => missing (List.isPrefixOf_iff_prefix.mpr found)
          rw [or_iff_right absent, ← ih]
          split
          · next zero => rw [zero]
          · next k there =>
              rw [there]
              exact iff_of_true (Nat.succ_pos _) (Nat.succ_pos _)

end Araya
