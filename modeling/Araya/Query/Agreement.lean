import Araya.Query.Filters

/-!
The two readings of the filters. Clause by clause the index accepts what the in-memory engine accepts, but
for the text: one looks for the term as it stands, the other for its words with any white space between.
-/

namespace Araya.Query

open Sessions

/-- A term of one word with nothing around it. -/
def Bare (text : String) : Prop := text ≠ "" ∧ ∀ c ∈ text.toList, blank c = false

instance (text : String) : Decidable (Bare text) := inferInstanceAs (Decidable (_ ∧ _))

/-- An event of the index: its record, and a text that is not empty. -/
structure Document where
  record : EventRecord
  text : String
  given : text ≠ ""

/-- The clause accepts the rows that the engine's predicates accept. -/
def Agree (sessionFilters : List SessionFilter) (eventFilters : List EventFilter) : Prop :=
  ∀ (header : Header) (live persisted : Bool) (doc : Document),
    (whereClause sessionFilters eventFilters).accepts (indexedRow header live persisted doc.record doc.text) =
      (sessionMatches sessionFilters header live persisted && eventMatches eventFilters doc.record doc.text)

/-- Some session and event pass every filter but those on the text. -/
def Satisfiable (sessionFilters : List SessionFilter) (eventFilters : List EventFilter) : Prop :=
  ∃ (header : Header) (live persisted : Bool) (record : EventRecord),
    sessionMatches sessionFilters header live persisted = true ∧
      ∀ filter ∈ eventFilters, filter.clause ≠ .text → eventMatch record "" filter = true

/-! The clauses -/

section
variable {w : Where Column} {row : Column → SqlValue} {header : Header} {live persisted : Bool} {record : EventRecord}
  {text : String}

theorem accepts_andZero : (andZero w).accepts row = false := (Where.accepts_append w .zero [] rfl row).trans (Bool.and_false _)

theorem accepts_andIn (c : Column) (values : List String) :
    (andIn w c values).accepts row = (w.accepts row && decide (∃ s ∈ values, row c = .text s)) := by
  unfold andIn
  split
  · next empty =>
      rw [accepts_andZero, List.isEmpty_iff.mp empty]
      exact (Bool.and_false _).symm
  · exact (Where.accepts_append ..).trans (congrArg _ (decide_eq_decide.mpr SqlExpr.isIn_text))

theorem accepts_andRange {c : Column} {n : Int} (here : row c = .int n) (fromBound toBound : Option Int) :
    (andRange w c fromBound toBound).accepts row = (w.accepts row && (fromBound.all (· ≤ n) && toBound.all (n ≤ ·))) := by
  have low : ∀ bound : Int, decide (SqlExpr.eval row (.atLeast c) [.int bound] = some true) = decide (bound ≤ n) := by
    intro bound
    rw [SqlExpr.eval, here]
    exact decide_eq_decide.mpr (Option.some_inj.trans decide_eq_true_iff)
  have high : ∀ bound : Int, decide (SqlExpr.eval row (.atMost c) [.int bound] = some true) = decide (n ≤ bound) := by
    intro bound
    rw [SqlExpr.eval, here]
    exact decide_eq_decide.mpr (Option.some_inj.trans decide_eq_true_iff)
  unfold andRange
  cases fromBound with
  | none =>
      cases toBound with
      | none => exact (Bool.and_true _).symm
      | some bound => exact (Where.accepts_append ..).trans (congrArg _ (high bound))
  | some bound =>
      have first : (w.append (.atLeast c) [.int bound] rfl).accepts row = (w.accepts row && decide (bound ≤ n)) :=
        (Where.accepts_append ..).trans (congrArg _ (low bound))
      cases toBound with
      | none => exact first.trans (congrArg _ (Bool.and_true _).symm)
      | some bound' =>
          refine (Where.accepts_append ..).trans ?_
          rw [first, high, Bool.and_assoc]
          rfl

theorem orNull_eq {value : Option String} {s : String} : orNull value = .text s ↔ value = some s := by
  cases value with
  | none => exact ⟨fun h => (by cases h), fun h => (by cases h)⟩
  | some t => exact ⟨fun h => congrArg some (SqlValue.text.inj h), fun h => congrArg SqlValue.text (Option.some.inj h)⟩

theorem any_orNull (value : Option String) (values : List String) :
    decide (∃ s ∈ values, orNull value = .text s) = value.any values.contains := by
  refine Bool.eq_iff_iff.mpr (decide_eq_true_iff.trans ?_)
  rw [Option.any_eq_true]
  constructor
  · rintro ⟨s, member, same⟩
    exact ⟨s, orNull_eq.mp same, List.contains_iff_mem.mpr member⟩
  · rintro ⟨s, same, member⟩
    exact ⟨s, List.contains_iff_mem.mp member, orNull_eq.mpr same⟩

theorem any_text (t : String) (values : List String) :
    decide (∃ s ∈ values, SqlValue.text t = .text s) = values.contains t := any_orNull (some t) values

theorem eval_isOne (c : Column) {b : Bool} (here : row c = ofBool b) : SqlExpr.eval row (.isOne c) [] = some true ↔ b = true := by
  rw [SqlExpr.eval, here]
  cases b <;> decide

theorem eval_parent (values : List String) (allowRoot : Bool) :
    (decide (∃ s ∈ values, orNull header.parentSession = .text s) || allowRoot && decide (orNull header.parentSession = .null)) =
      sessionMatch header live persisted { clause := .parent, values, allowRoot } := by
  unfold sessionMatch
  rw [any_orNull]
  cases header.parentSession with
  | none => cases allowRoot <;> rfl
  | some parent => exact (congrArg _ (Bool.and_false _)).trans (Bool.or_false _)

theorem accepts_parent (values : List String) (allowRoot : Bool) :
    (appendSessionFilter w { clause := .parent, values, allowRoot }).accepts (indexedRow header live persisted record text) =
      (w.accepts (indexedRow header live persisted record text) &&
        sessionMatch header live persisted { clause := .parent, values, allowRoot }) := by
  rw [← eval_parent]
  unfold appendSessionFilter
  dsimp only
  have root : decide (SqlExpr.eval (indexedRow header live persisted record text) (.isNull .parentSession) [] = some true) =
      decide (orNull header.parentSession = .null) := decide_eq_decide.mpr (Option.some_inj.trans decide_eq_true_iff)
  have among : decide (SqlExpr.eval (indexedRow header live persisted record text) (.isIn .parentSession values.length)
      (values.map .text) = some true) = decide (∃ s ∈ values, orNull header.parentSession = .text s) :=
    decide_eq_decide.mpr SqlExpr.isIn_text
  split
  · next empty =>
      have none : decide (∃ s ∈ values, orNull header.parentSession = .text s) = false := by
        rw [List.isEmpty_iff.mp empty]
        rfl
      rw [none, Bool.false_or]
      cases allowRoot with
      | false => exact accepts_andZero.trans (Bool.and_false _).symm
      | true => exact (Where.accepts_append w (.isNull .parentSession) [] rfl _).trans (congrArg _ root)
  · cases allowRoot with
    | false => exact (Where.accepts_append w _ _ (List.length_map _) _).trans (congrArg _ (among.trans (Bool.or_false _).symm))
    | true =>
        refine (Where.accepts_append w _ _ (List.length_map _) _).trans (congrArg _ ?_)
        rw [Bool.true_and, ← root, ← among, ← Bool.decide_or]
        refine decide_eq_decide.mpr ?_
        rw [SqlExpr.eval]
        refine SqlExpr.disjunction_true.trans ?_
        have whole : (values.map SqlValue.text).take (SqlExpr.params (κ := Column) (.isIn .parentSession values.length)) =
            values.map .text := List.take_of_length_le (List.length_map _).le
        rw [whole]
        exact Iff.rfl

theorem availability_holds (values : List String) :
    (∃ e ∈ values.filterMap availabilityTerm, SqlExpr.eval (indexedRow header live persisted record text) e [] = some true) ↔
      ∃ value ∈ values, (value == "live" && live || value == "persisted" && persisted) = true := by
  have row (c : Column) (b : Bool) (here : indexedRow header live persisted record text c = ofBool b) := eval_isOne c here
  constructor
  · rintro ⟨e, member, holds⟩
    obtain ⟨value, there, term⟩ := List.mem_filterMap.mp member
    refine ⟨value, there, ?_⟩
    unfold availabilityTerm at term
    split at term
    · next is =>
        cases term
        rw [(row .live live rfl).mp holds, is]
        rfl
    · split at term <;> cases term
      next is =>
        rw [(row .persisted persisted rfl).mp holds, is]
        exact Bool.or_true _
  · rintro ⟨value, there, holds⟩
    rcases Bool.or_eq_true_iff.mp holds with is | is
    · obtain ⟨is, up⟩ := Bool.and_eq_true_iff.mp is
      refine ⟨.isOne .live, List.mem_filterMap.mpr ⟨value, there, ?_⟩, (row .live live rfl).mpr up⟩
      exact if_pos (eq_of_beq is)
    · obtain ⟨is, up⟩ := Bool.and_eq_true_iff.mp is
      refine ⟨.isOne .persisted, List.mem_filterMap.mpr ⟨value, there, ?_⟩, (row .persisted persisted rfl).mpr up⟩
      rw [eq_of_beq is]
      rfl

/-- The session clauses of the index are those of the engine. -/
theorem accepts_sessionFilter (filter : SessionFilter) :
    (appendSessionFilter w filter).accepts (indexedRow header live persisted record text) =
      (w.accepts (indexedRow header live persisted record text) && sessionMatch header live persisted filter) := by
  obtain ⟨clause, values, allowRoot, fromBound, toBound⟩ := filter
  cases clause with
  | id => exact (accepts_andIn ..).trans (congrArg _ (any_text header.id values))
  | cwd => exact (accepts_andIn ..).trans (congrArg _ (any_orNull header.cwd values))
  | createdAt => exact accepts_andRange rfl fromBound toBound
  | parent => exact accepts_parent values allowRoot
  | availability =>
      refine (Where.accepts_append w _ [] (SqlExpr.params_anyOf availabilityTerm_params).symm _).trans (congrArg _ ?_)
      refine Bool.eq_iff_iff.mpr (decide_eq_true_iff.trans (SqlExpr.eval_anyOf.trans ?_))
      exact (availability_holds values).trans List.any_eq_true.symm

/-- What the index asks of an event: the text clause looks for its term as it stands. -/
def indexMatch (record : EventRecord) (text : String) (filter : EventFilter) : Bool :=
  match filter.clause with
  | .text => 0 < instr (sqlLower filter.text) (sqlLower text)
  | _ => eventMatch record text filter

theorem accepts_eventFilter (filter : EventFilter) :
    (appendEventFilter w filter).accepts (indexedRow header live persisted record text) =
      (w.accepts (indexedRow header live persisted record text) && indexMatch record text filter) := by
  obtain ⟨clause, values, fromBound, toBound, term⟩ := filter
  cases clause with
  | seq => exact accepts_andRange rfl fromBound toBound
  | time => exact accepts_andRange rfl fromBound toBound
  | type => exact (accepts_andIn ..).trans (congrArg _ (any_text record.type values))
  | surface => exact (accepts_andIn ..).trans (congrArg _ (any_text (surfaceName record.surface) values))
  | text =>
      refine (Where.accepts_append w _ _ rfl _).trans (congrArg _ (decide_eq_decide.mpr ?_))
      exact Option.some_inj.trans decide_eq_true_iff

theorem accepts_sessionFilters (filters : List SessionFilter) :
    (appendSessionFilters w filters).accepts (indexedRow header live persisted record text) =
      (w.accepts (indexedRow header live persisted record text) && sessionMatches filters header live persisted) := by
  induction filters generalizing w with
  | nil => exact (Bool.and_true _).symm
  | cons filter filters ih =>
      refine (ih (w := appendSessionFilter w filter)).trans ?_
      rw [accepts_sessionFilter, Bool.and_assoc]
      rfl

theorem accepts_eventFilters (filters : List EventFilter) :
    (appendEventFilters w filters).accepts (indexedRow header live persisted record text) =
      (w.accepts (indexedRow header live persisted record text) && filters.all (indexMatch record text)) := by
  induction filters generalizing w with
  | nil => exact (Bool.and_true _).symm
  | cons filter filters ih =>
      refine (ih (w := appendEventFilter w filter)).trans ?_
      rw [accepts_eventFilter, Bool.and_assoc]
      rfl

theorem accepts_whereClause (sessionFilters : List SessionFilter) (eventFilters : List EventFilter) :
    (whereClause sessionFilters eventFilters).accepts (indexedRow header live persisted record text) =
      (sessionMatches sessionFilters header live persisted && eventFilters.all (indexMatch record text)) := by
  unfold whereClause
  rw [accepts_eventFilters, accepts_sessionFilters, Where.accepts_empty, Bool.true_and]

end

/-! Words -/

section
variable {word text rest after : List Char} {words more : List (List Char)}

theorem splitWordsFrom_words (word text : List Char) (plain : ∀ c ∈ word, blank c = false) :
    ∀ w ∈ splitWordsFrom word text, w ≠ [] ∧ ∀ c ∈ w, blank c = false := by
  have done : ∀ {l : List Char}, (∀ c ∈ l, blank c = false) → l.isEmpty = false →
      l.reverse ≠ [] ∧ ∀ c ∈ l.reverse, blank c = false := by
    intro l plain given
    refine ⟨fun empty => ?_, fun c member => plain c (List.mem_reverse.mp member)⟩
    rw [List.reverse_eq_nil_iff.mp empty] at given
    cases given
  induction text generalizing word with
  | nil =>
      intro w member
      unfold splitWordsFrom at member
      split at member
      · cases member
      · next given =>
          cases List.mem_singleton.mp member
          exact done plain (Bool.eq_false_iff.mpr given)
  | cons c rest ih =>
      intro w member
      unfold splitWordsFrom at member
      split at member
      · split at member
        · exact ih [] (fun _ none => (by cases none)) w member
        · next given =>
            rcases List.mem_cons.mp member with rfl | later
            · exact done plain (Bool.eq_false_iff.mpr given)
            · exact ih [] (fun _ none => (by cases none)) w later
      · next inside =>
          refine ih (c :: word) (fun d there => ?_) w member
          rcases List.mem_cons.mp there with rfl | old
          · exact Bool.eq_false_iff.mpr inside
          · exact plain d old

theorem splitWordsFrom_plain (word text : List Char) (plain : ∀ c ∈ text, blank c = false) :
    splitWordsFrom word text = if (word.reverse ++ text).isEmpty then [] else [word.reverse ++ text] := by
  induction text generalizing word with
  | nil =>
      unfold splitWordsFrom
      rw [List.append_nil, List.isEmpty_reverse]
  | cons c rest ih =>
      unfold splitWordsFrom
      rw [plain c List.mem_cons_self, if_neg Bool.false_ne_true, ih (c :: word) fun d there => plain d (List.mem_cons_of_mem _ there)]
      rw [List.reverse_cons, List.append_assoc]
      rfl

theorem splitWords_bare {term : String} (bare : Bare term) : splitWords term = [term.toList] := by
  unfold splitWords
  rw [splitWordsFrom_plain [] term.toList bare.2]
  refine if_neg fun empty => bare.1 (String.toList_eq_nil_iff.mp (List.isEmpty_iff.mp empty))

/-! Matching -/

theorem wordAt_iff (word text : List Char) : (wordAt word text).isSome = true ↔ word.map Char.toLower <+: text.map Char.toLower := by
  induction word generalizing text with
  | nil => exact iff_of_true rfl List.nil_prefix
  | cons w word ih =>
      cases text with
      | nil => exact ⟨fun h => (by cases h), fun h => (by cases List.prefix_nil.mp h)⟩
      | cons c text =>
          unfold wordAt
          rw [List.map_cons, List.map_cons, List.cons_prefix_cons, ← ih text]
          by_cases same : c.toLower = w.toLower
          · rw [if_pos same]
            exact (and_iff_right same.symm).symm
          · rw [if_neg same]
            exact iff_of_false (fun h => (by cases h)) fun both => same both.1.symm

theorem wordAt_self (word rest : List Char) : wordAt word (word ++ rest) = some rest := by
  induction word with
  | nil => rfl
  | cons w word ih => exact (if_pos rfl).trans ih

theorem findFrom_grows (words : List (List Char)) (i skip : Nat) (text : List Char) (info : MatchInfo) :
    info.count ≤ (findFrom words i skip text info).count := by
  induction text generalizing i skip info with
  | nil => cases skip <;> exact Nat.le_refl _
  | cons c rest ih =>
      cases skip with
      | succ skip => exact ih (i + 1) skip info
      | zero =>
          unfold findFrom
          split
          · exact ih (i + 1) 0 info
          · refine Nat.le_trans ?_ (ih _ _ _)
            split
            · next none => exact none ▸ Nat.zero_le _
            · exact Nat.le_succ _

/-- There is a match when the words stand somewhere. -/
theorem findFrom_pos (words : List (List Char)) (i : Nat) (text : List Char) :
    (findFrom words i 0 text {}).count ≠ 0 ↔ ∃ s, s <:+ text ∧ s ≠ [] ∧ (wordsAt words s).isSome = true := by
  induction text generalizing i with
  | nil =>
      refine iff_of_false (fun h => h rfl) ?_
      rintro ⟨s, suffix, given, -⟩
      exact given (List.suffix_nil.mp suffix)
  | cons c rest ih =>
      unfold findFrom
      split
      · next missing =>
          refine (ih (i + 1)).trans ⟨?_, ?_⟩
          · rintro ⟨s, suffix, found⟩
            exact ⟨s, suffix.trans (List.suffix_cons c rest), found⟩
          · rintro ⟨s, suffix, given, found⟩
            rcases List.suffix_cons_iff.mp suffix with rfl | later
            · rw [missing] at found
              cases found
            · exact ⟨s, later, given, found⟩
      · next after found =>
          refine iff_of_true ?_ ⟨c :: rest, List.suffix_refl _, List.cons_ne_nil _ _, by rw [found]; rfl⟩
          exact Nat.one_le_iff_ne_zero.mp (findFrom_grows words (i + 1) _ rest { count := 1, first := some i, length := _ })

theorem findMatches_pos {text : String} {words : List (List Char)} (given : words ≠ []) :
    (findMatches text words).count ≠ 0 ↔ ∃ s, s <:+ text.toList ∧ s ≠ [] ∧ (wordsAt words s).isSome = true := by
  unfold findMatches
  rw [if_neg fun empty => given (List.isEmpty_iff.mp empty)]
  exact findFrom_pos words 0 text.toList

/-- One bare word: where it stands is where its letters stand. -/
theorem bare_agrees {term text : String} (bare : Bare term) :
    0 < instr (sqlLower term) (sqlLower text) ↔ (findMatches text (splitWords term)).count ≠ 0 := by
  rw [splitWords_bare bare, findMatches_pos (List.cons_ne_nil _ _), instr_pos, List.infix_iff_prefix_suffix]
  constructor
  · rintro ⟨s, front, suffix⟩
    obtain ⟨before, whole⟩ := suffix
    obtain ⟨u, v, split, rfl, rfl⟩ := List.map_eq_append_iff.mp whole.symm
    refine ⟨v, ⟨u, split.symm⟩, fun empty => ?_, (wordAt_iff term.toList v).mpr front⟩
    rw [empty] at front
    exact bare.1 (String.toList_eq_nil_iff.mp (List.map_eq_nil_iff.mp (List.prefix_nil.mp front)))
  · rintro ⟨s, ⟨u, whole⟩, -, found⟩
    refine ⟨s.map Char.toLower, (wordAt_iff term.toList s).mp found, u.map Char.toLower, ?_⟩
    unfold sqlLower
    rw [← whole, List.map_append]

theorem blank_toLower {c : Char} (space : blank c.toLower = true) : c.toLower = c := by
  unfold Char.toLower at space ⊢
  split
  · next upper =>
      exfalso
      rw [dif_pos upper] at space
      simp only [blank, Bool.or_eq_true, beq_iff_eq, Char.ext_iff] at space
      have low : 65 ≤ c.val.toNat := UInt32.le_iff_toNat_le.mp upper.1
      have high : c.val.toNat ≤ 90 := UInt32.le_iff_toNat_le.mp upper.2
      have shifted : (c.val + ('a'.val - 'A'.val)).toNat = c.val.toNat + 32 := by
        have shift : ('a'.val - 'A'.val).toNat = 32 := by decide
        rw [UInt32.toNat_add, shift]
        omega
      rcases space with ((space | space) | space) | space <;>
      · have value := shifted.symm.trans (congrArg UInt32.toNat space)
        have small : c.val.toNat + 32 ≤ 32 := value.trans_le (by decide)
        omega
  · rfl

/-- Words with a blank behind each. -/
def spaced (sep : Char) (words : List (List Char)) : List Char := words.flatMap (· ++ [sep])

theorem wordsAt_spaced {sep : Char} (space : blank sep = true) (words : List (List Char))
    (plain : ∀ w ∈ words, w ≠ [] ∧ ∀ c ∈ w, blank c = false) (rest : List Char) :
    (wordsAt words (spaced sep words ++ rest)).isSome = true := by
  induction words with
  | nil => rfl
  | cons word words ih =>
      have first : wordAt word (spaced sep (word :: words) ++ rest) = some (sep :: (spaced sep words ++ rest)) := by
        unfold spaced
        rw [List.flatMap_cons, List.append_assoc, List.append_assoc, wordAt_self]
        rfl
      cases words with
      | nil => exact (congrArg Option.isSome first).trans rfl
      | cons next words =>
          unfold wordsAt
          rw [first]
          dsimp only
          rw [if_pos space]
          have kept : (spaced sep (next :: words) ++ rest).dropWhile blank = spaced sep (next :: words) ++ rest := by
            obtain ⟨given, letters⟩ := plain next (List.mem_cons_of_mem _ List.mem_cons_self)
            obtain ⟨c, tail, rfl⟩ := List.exists_cons_of_ne_nil given
            exact List.dropWhile_cons_of_neg (by rw [letters c List.mem_cons_self]; exact Bool.false_ne_true)
          rw [kept]
          exact ih fun w member => plain w (List.mem_cons_of_mem _ member)

end

/-! Agreement -/

section
variable {sessionFilters : List SessionFilter} {eventFilters : List EventFilter} {header : Header} {live persisted : Bool}

theorem eventMatch_text {filter : EventFilter} (other : filter.clause ≠ .text) (record : EventRecord) (text text' : String) :
    eventMatch record text filter = eventMatch record text' filter := by
  unfold eventMatch
  cases clause : filter.clause with
  | text => exact absurd clause other
  | _ => rfl

theorem indexMatch_other {filter : EventFilter} (other : filter.clause ≠ .text) (record : EventRecord) (text : String) :
    indexMatch record text filter = eventMatch record text filter := by
  unfold indexMatch
  cases clause : filter.clause with
  | text => exact absurd clause other
  | _ => rfl

theorem indexMatch_term {filter : EventFilter} (clause : filter.clause = .text) (record : EventRecord) (text : String) :
    indexMatch record text filter = decide (0 < instr (sqlLower filter.text) (sqlLower text)) := by
  unfold indexMatch
  rw [clause]

theorem eventMatch_term {filter : EventFilter} (clause : filter.clause = .text) (record : EventRecord) (text : String) :
    eventMatch record text filter = decide ((findMatches text (splitWords filter.text)).count ≠ 0) := by
  unfold eventMatch
  rw [clause]

theorem agree_of_bare (bare : ∀ filter ∈ eventFilters, filter.clause = .text → Bare filter.text) :
    Agree sessionFilters eventFilters := by
  intro header live persisted doc
  rw [accepts_whereClause]
  have same : ∀ filter ∈ eventFilters, indexMatch doc.record doc.text filter = eventMatch doc.record doc.text filter := by
    intro filter member
    by_cases clause : filter.clause = .text
    · rw [indexMatch_term clause, eventMatch_term clause]
      exact decide_eq_decide.mpr (bare_agrees (bare filter member clause))
    · exact indexMatch_other clause _ _
  refine congrArg _ (Bool.eq_iff_iff.mpr ?_)
  unfold eventMatches
  rw [List.all_eq_true, List.all_eq_true]
  exact forall₂_congr fun filter member => by rw [same filter member]

theorem agree_of_unsatisfiable (none : ¬ Satisfiable sessionFilters eventFilters) : Agree sessionFilters eventFilters := by
  intro header live persisted doc
  rw [accepts_whereClause]
  refine Bool.eq_iff_iff.mpr (iff_of_false (fun both => none ?_) fun both => none ?_)
  · obtain ⟨session, events⟩ := Bool.and_eq_true_iff.mp both
    refine ⟨header, live, persisted, doc.record, session, fun filter member other => ?_⟩
    rw [eventMatch_text other _ "" doc.text, ← indexMatch_other other]
    exact List.all_eq_true.mp events filter member
  · obtain ⟨session, events⟩ := Bool.and_eq_true_iff.mp both
    refine ⟨header, live, persisted, doc.record, session, fun filter member other => ?_⟩
    rw [eventMatch_text other _ "" doc.text]
    exact List.all_eq_true.mp events filter member

/-- Every term as it stands, and something more. -/
def allTerms (filters : List EventFilter) : List Char := filters.flatMap (·.text.toList) ++ ['x']

theorem allTerms_found {filter : EventFilter} (member : filter ∈ eventFilters) :
    0 < instr (sqlLower filter.text) (sqlLower (String.ofList (allTerms eventFilters))) := by
  refine instr_pos.mpr ?_
  unfold sqlLower
  rw [String.toList_ofList]
  obtain ⟨before, after, rfl⟩ := List.append_of_mem member
  refine List.IsInfix.map _ ⟨before.flatMap (·.text.toList), after.flatMap (·.text.toList) ++ ['x'], ?_⟩
  unfold allTerms
  rw [List.flatMap_append, List.flatMap_cons, List.append_assoc, List.append_assoc, List.append_assoc]

/-- The words of every term, with a blank behind each. -/
def allWords (sep : Char) (filters : List EventFilter) : List Char := spaced sep (filters.flatMap fun f => splitWords f.text)

theorem splitWords_words (term : String) : ∀ w ∈ splitWords term, w ≠ [] ∧ ∀ c ∈ w, blank c = false :=
  splitWordsFrom_words [] term.toList fun _ none => (by cases none)

theorem allWords_found {sep : Char} (space : blank sep = true) {filter : EventFilter} (member : filter ∈ eventFilters)
    (given : splitWords filter.text ≠ []) :
    (findMatches (String.ofList (allWords sep eventFilters)) (splitWords filter.text)).count ≠ 0 := by
  refine (findMatches_pos given).mpr ?_
  rw [String.toList_ofList]
  obtain ⟨before, after, rfl⟩ := List.append_of_mem member
  have split : allWords sep (before ++ filter :: after) = allWords sep before ++
      (spaced sep (splitWords filter.text) ++ allWords sep after) := by
    unfold allWords spaced
    rw [List.flatMap_append, List.flatMap_cons, List.flatMap_append, List.flatMap_append]
  refine ⟨_, ⟨_, split.symm⟩, fun empty => ?_, wordsAt_spaced space _ (splitWords_words filter.text) _⟩
  obtain ⟨word, words, cons⟩ := List.exists_cons_of_ne_nil given
  have front := (List.append_eq_nil_iff.mp empty).1
  rw [cons, spaced, List.flatMap_cons] at front
  cases (List.append_eq_nil_iff.mp (List.append_eq_nil_iff.mp front).1).2

theorem mem_allWords {sep c : Char} (member : c ∈ allWords sep eventFilters) : c = sep ∨ blank c = false := by
  obtain ⟨word, there, inside⟩ := List.mem_flatMap.mp member
  obtain ⟨filter, -, split⟩ := List.mem_flatMap.mp there
  rcases List.mem_append.mp inside with letter | last
  · exact .inr ((splitWords_words filter.text word split).2 c letter)
  · exact .inl (List.mem_singleton.mp last)

/-- A term with a blank that no document of words has. -/
theorem allWords_missing {sep space : Char} (blanks : blank sep = true ∧ blank space = true) (other : sep ≠ space)
    {term : String} (inside : space ∈ term.toList) :
    ¬ 0 < instr (sqlLower term) (sqlLower (String.ofList (allWords sep eventFilters))) := by
  intro found
  have lowered {c : Char} (b : blank c = true) : c.toLower = c := by
    rcases (by simpa [blank] using b : ((c = ' ' ∨ c = '\t') ∨ c = '\r') ∨ c = '\n') with ((rfl | rfl) | rfl) | rfl <;> decide
  have there : space ∈ sqlLower (String.ofList (allWords sep eventFilters)) := by
    refine (instr_pos.mp found).subset ?_
    exact List.mem_map.mpr ⟨space, inside, lowered blanks.2⟩
  unfold sqlLower at there
  rw [String.toList_ofList] at there
  obtain ⟨c, member, same⟩ := List.mem_map.mp there
  have whole : c.toLower = c := blank_toLower (same ▸ blanks.2)
  rcases mem_allWords member with rfl | letter
  · exact other (whole.symm.trans same)
  · rw [← whole, same, blanks.2] at letter
    cases letter

/-- A term that is not bare, where every term has a word, has a blank. -/
theorem blank_of_not_bare {term : String} (words : splitWords term ≠ []) (bare : ¬ Bare term) :
    ∃ c ∈ term.toList, blank c = true := by
  by_contra none
  refine bare ⟨?_, fun c member => Bool.eq_false_iff.mpr fun space => none ⟨c, member, space⟩⟩
  rintro rfl
  exact words rfl

theorem bare_of_agree (agree : Agree sessionFilters eventFilters) (satisfiable : Satisfiable sessionFilters eventFilters) :
    ∀ filter ∈ eventFilters, filter.clause = .text → Bare filter.text := by
  obtain ⟨header, live, persisted, record, session, others⟩ := satisfiable
  have same : ∀ text : String, text ≠ "" → ((∀ filter ∈ eventFilters, indexMatch record text filter = true) ↔
      ∀ filter ∈ eventFilters, eventMatch record text filter = true) := by
    intro text given
    have both := agree header live persisted ⟨record, text, given⟩
    rw [accepts_whereClause, session, Bool.true_and, Bool.true_and] at both
    rw [← List.all_eq_true, ← List.all_eq_true]
    exact Bool.eq_iff_iff.mp both
  have worded : ∀ filter ∈ eventFilters, filter.clause = .text → splitWords filter.text ≠ [] := by
    intro filter member clause empty
    have given : String.ofList (allTerms eventFilters) ≠ "" := by
      intro none
      have letters := String.toList_eq_nil_iff.mpr none
      rw [String.toList_ofList] at letters
      cases (List.append_eq_nil_iff.mp letters).2
    have found : ∀ f ∈ eventFilters, indexMatch record (String.ofList (allTerms eventFilters)) f = true := by
      intro f there
      by_cases text : f.clause = .text
      · rw [indexMatch_term text]
        exact decide_eq_true (allTerms_found there)
      · rw [indexMatch_other text, eventMatch_text text _ _ ""]
        exact others f there text
    have engine := (same _ given).mp found filter member
    rw [eventMatch_term clause, empty] at engine
    cases engine
  intro filter member clause
  by_contra bare
  obtain ⟨space, inside, blank⟩ := blank_of_not_bare (worded filter member clause) bare
  obtain ⟨sep, separates, other⟩ : ∃ sep, Araya.blank sep = true ∧ sep ≠ space := by
    by_cases is : space = ' '
    · exact ⟨'\t', rfl, fun tab => by rw [is] at tab; cases tab⟩
    · exact ⟨' ', rfl, fun same => is same.symm⟩
  have engine : ∀ f ∈ eventFilters, eventMatch record (String.ofList (allWords sep eventFilters)) f = true := by
    intro f there
    by_cases text : f.clause = .text
    · rw [eventMatch_term text]
      exact decide_eq_true (allWords_found separates there (worded f there text))
    · rw [eventMatch_text text _ _ ""]
      exact others f there text
  have given : String.ofList (allWords sep eventFilters) ≠ "" := by
    intro none
    have found := allWords_found separates member (worded filter member clause)
    rw [none] at found
    unfold findMatches at found
    split at found <;> exact found rfl
  have index := (same _ given).mpr engine filter member
  rw [indexMatch_term clause] at index
  exact allWords_missing ⟨separates, blank⟩ other inside (of_decide_eq_true index)

end

/-- The two backends agree on every session and event exactly when every text clause is one bare word, or when
nothing passes the other clauses. -/
theorem filters_agree_iff (sessionFilters : List SessionFilter) (eventFilters : List EventFilter) :
    Agree sessionFilters eventFilters ↔
      (∀ filter ∈ eventFilters, filter.clause = .text → Bare filter.text) ∨ ¬ Satisfiable sessionFilters eventFilters := by
  constructor
  · intro agree
    by_cases satisfiable : Satisfiable sessionFilters eventFilters
    · exact .inl (bare_of_agree agree satisfiable)
    · exact .inr satisfiable
  · rintro (bare | none)
    · exact agree_of_bare bare
    · exact agree_of_unsatisfiable none

/-- A text with another space than the term has. -/
theorem filters_disagree : ¬ ∀ (sessionFilters : List SessionFilter) (eventFilters : List EventFilter),
    Agree sessionFilters eventFilters := by
  intro agree
  have both := agree [] [{ clause := .text, text := "lost update" }] { id := "s" } true false
    ⟨{ session := "s", type := "user/message" }, "a lost  update", by decide⟩
  revert both
  decide +kernel

end Araya.Query
