import Araya.Query.Classify
import Araya.Util.Sql
import Araya.Util.Strings

/-!
The filters of the session queries, twice: as the predicates of the in-memory engine, and as the `WHERE`
clause of the index. A string stands for its bytes, one character each.
-/

namespace Araya.Query

open Sessions

/-! The filters -/

inductive SessionClause where
  | id
  | cwd
  | createdAt
  | parent
  | availability
  deriving DecidableEq

structure SessionFilter where
  clause : SessionClause := .id
  values : List String := []
  allowRoot : Bool := false
  fromBound : Option Int := none
  toBound : Option Int := none
  deriving DecidableEq

inductive EventClause where
  | seq
  | time
  | type
  | surface
  | text
  deriving DecidableEq

structure EventFilter where
  clause : EventClause := .seq
  values : List String := []
  fromBound : Option Int := none
  toBound : Option Int := none
  text : String := ""
  deriving DecidableEq

structure EventRecord where
  session : SessionId
  seq : Nat := 0
  type : String
  time : Int := 0
  surface : EventSurface := .logOnly
  deriving DecidableEq

def surfaceName : EventSurface → String
  | .current => "current"
  | .shadowed => "shadowed"
  | .logOnly => "log-only"

/-- The cast of an unsigned number to int64. -/
def toInt64 (n : Nat) : Int := Int.bmod n (2 ^ 64)

/-! Text matching -/

/-- The words of a text; the word being read is kept backwards. -/
def splitWordsFrom : List Char → List Char → List (List Char)
  | word, [] => if word.isEmpty then [] else [word.reverse]
  | word, c :: rest =>
    if blank c then
      if word.isEmpty then splitWordsFrom [] rest else word.reverse :: splitWordsFrom [] rest
    else splitWordsFrom (c :: word) rest

def splitWords (text : String) : List (List Char) := splitWordsFrom [] text.toList

/-- `word_at`: what follows the word. -/
def wordAt : List Char → List Char → Option (List Char)
  | [], text => some text
  | _ :: _, [] => none
  | w :: word, c :: text => if c.toLower = w.toLower then wordAt word text else none

/-- The words with white space between them, at the front of a text; what follows them. -/
def wordsAt : List (List Char) → List Char → Option (List Char)
  | [], text => some text
  | [word], text => wordAt word text
  | word :: words, text =>
    match wordAt word text with
    | some (c :: rest) => if blank c then wordsAt words (rest.dropWhile blank) else none
    | _ => none

structure MatchInfo where
  count : Nat := 0
  first : Option Nat := none
  length : Nat := 0
  deriving DecidableEq

/-- The loop of `find_matches` at a position; `skip` characters belong to the last match. -/
def findFrom (words : List (List Char)) : Nat → Nat → List Char → MatchInfo → MatchInfo
  | _, _, [], info => info
  | i, skip + 1, _ :: rest, info => findFrom words (i + 1) skip rest info
  | i, 0, c :: rest, info =>
    match wordsAt words (c :: rest) with
    | none => findFrom words (i + 1) 0 rest info
    | some after =>
      let length := rest.length + 1 - after.length
      findFrom words (i + 1) (length - 1) rest
        (if info.count = 0 then { count := 1, first := some i, length } else { info with count := info.count + 1 })

def findMatches (text : String) (words : List (List Char)) : MatchInfo :=
  if words.isEmpty then {} else findFrom words 0 0 text.toList {}

/-! The in-memory engine -/

def sessionMatch (header : Header) (live persisted : Bool) (filter : SessionFilter) : Bool :=
  match filter.clause with
  | .id => filter.values.contains header.id
  | .cwd => header.cwd.any filter.values.contains
  | .createdAt => filter.fromBound.all (· ≤ header.createdAt) && filter.toBound.all (header.createdAt ≤ ·)
  | .parent =>
    match header.parentSession with
    | none => filter.allowRoot
    | some parent => filter.values.contains parent
  | .availability => filter.values.any fun value => value == "live" && live || value == "persisted" && persisted

def sessionMatches (filters : List SessionFilter) (header : Header) (live persisted : Bool) : Bool :=
  filters.all (sessionMatch header live persisted)

def eventMatch (record : EventRecord) (text : String) (filter : EventFilter) : Bool :=
  match filter.clause with
  | .seq => filter.fromBound.all (· ≤ toInt64 record.seq) && filter.toBound.all (toInt64 record.seq ≤ ·)
  | .time => filter.fromBound.all (· ≤ record.time) && filter.toBound.all (record.time ≤ ·)
  | .type => filter.values.contains record.type
  | .surface => filter.values.contains (surfaceName record.surface)
  | .text => (findMatches text (splitWords filter.text)).count ≠ 0

def eventMatches (filters : List EventFilter) (record : EventRecord) (text : String) : Bool :=
  filters.all (eventMatch record text)

/-! The index -/

/-- The columns the filters look at. -/
inductive Column where
  | sessionId
  | cwd
  | createdAt
  | parentSession
  | live
  | persisted
  | seq
  | time
  | type
  | surface
  | text
  deriving DecidableEq

def orNull (value : Option String) : SqlValue := (value.map SqlValue.text).getD .null

def ofBool (b : Bool) : SqlValue := .int (if b then 1 else 0)

/-- The row of an event joined with the row of its session. -/
def indexedRow (header : Header) (live persisted : Bool) (record : EventRecord) (text : String) : Column → SqlValue
  | .sessionId => .text header.id
  | .cwd => orNull header.cwd
  | .createdAt => .int header.createdAt
  | .parentSession => orNull header.parentSession
  | .live => ofBool live
  | .persisted => ofBool persisted
  | .seq => .int (toInt64 record.seq)
  | .time => .int record.time
  | .type => .text record.type
  | .surface => .text (surfaceName record.surface)
  | .text => .text text

def andZero (w : Where Column) : Where Column := w.append .zero [] rfl

/-- `c IN (?, …)` with the values of a filter, or `0` without any. -/
def andIn (w : Where Column) (c : Column) (values : List String) : Where Column :=
  if values.isEmpty then andZero w
  else w.append (.isIn c values.length) (values.map .text) (List.length_map _)

/-- The bounds of a range that are given. -/
def andRange (w : Where Column) (c : Column) (fromBound toBound : Option Int) : Where Column :=
  let w := match fromBound with
    | none => w
    | some bound => w.append (.atLeast c) [.int bound] rfl
  match toBound with
  | none => w
  | some bound => w.append (.atMost c) [.int bound] rfl

/-- The condition on one value of an availability filter. -/
def availabilityTerm (value : String) : Option (SqlExpr Column) :=
  if value = "live" then some (.isOne .live)
  else if value = "persisted" then some (.isOne .persisted)
  else none

theorem availabilityTerm_params {values : List String} : ∀ e ∈ values.filterMap availabilityTerm, e.params = 0 := by
  intro e member
  obtain ⟨value, -, term⟩ := List.mem_filterMap.mp member
  unfold availabilityTerm at term
  split at term
  · cases term
    rfl
  · split at term <;> cases term
    rfl

def appendSessionFilter (w : Where Column) (filter : SessionFilter) : Where Column :=
  match filter.clause with
  | .id => andIn w .sessionId filter.values
  | .cwd => andIn w .cwd filter.values
  | .createdAt => andRange w .createdAt filter.fromBound filter.toBound
  | .parent =>
    if filter.values.isEmpty then
      if filter.allowRoot then w.append (.isNull .parentSession) [] rfl else andZero w
    else if filter.allowRoot then
      w.append (.or (.isIn .parentSession filter.values.length) (.isNull .parentSession)) (filter.values.map .text)
        (List.length_map _)
    else w.append (.isIn .parentSession filter.values.length) (filter.values.map .text) (List.length_map _)
  | .availability =>
    w.append (.anyOf (filter.values.filterMap availabilityTerm)) [] (SqlExpr.params_anyOf availabilityTerm_params).symm

def appendSessionFilters (w : Where Column) (filters : List SessionFilter) : Where Column :=
  filters.foldl appendSessionFilter w

def appendEventFilter (w : Where Column) (filter : EventFilter) : Where Column :=
  match filter.clause with
  | .seq => andRange w .seq filter.fromBound filter.toBound
  | .time => andRange w .time filter.fromBound filter.toBound
  | .type => andIn w .type filter.values
  | .surface => andIn w .surface filter.values
  | .text => w.append (.contains .text) [.text filter.text] rfl

def appendEventFilters (w : Where Column) (filters : List EventFilter) : Where Column :=
  filters.foldl appendEventFilter w

/-- The clause of a search. -/
def whereClause (sessionFilters : List SessionFilter) (eventFilters : List EventFilter) : Where Column :=
  appendEventFilters (appendSessionFilters {} sessionFilters) eventFilters

end Araya.Query
