import Araya.Instructions.Render

/-!
What the budget keeps: the longest run of files up to the last one that fits, or else the longest part of the last one
that ends between two characters. The search for it halves the range, and so relies on larger cuts fitting less.
-/

namespace Araya.Instructions
open Llm (Bytes)
open Utf8 (bytes Encoded Continues)

/-! Cuts -/

/-- A cut that splits no character. -/
def Between (text : Bytes) (n : Nat) : Prop := n = 0 ∨ n = text.length ∨ ¬ Continues (text.getD n 0)

/-- Where `truncate_utf8` cuts. -/
def cutPoint (text : Bytes) (n : Nat) : Nat := if text.length ≤ n then text.length else boundary text n

section
variable {text : Bytes} {n m : Nat}

theorem boundary_le : boundary text n ≤ n := by
  induction n with
  | zero => exact Nat.le_refl 0
  | succ n ih =>
      unfold boundary
      split_ifs
      · omega
      · exact Nat.le_refl _

theorem boundary_between : boundary text n = 0 ∨ ¬ Continues (text.getD (boundary text n) 0) := by
  induction n with
  | zero => exact .inl rfl
  | succ n ih =>
      unfold boundary
      split_ifs with inside
      · exact ih
      · exact .inr inside

theorem boundary_greatest (below : m ≤ n) (between : m = 0 ∨ ¬ Continues (text.getD m 0)) : m ≤ boundary text n := by
  induction n with
  | zero => omega
  | succ n ih =>
      unfold boundary
      split_ifs with inside
      · rcases Nat.le_succ_iff.mp below with lower | rfl
        · exact ih lower
        · rcases between with zero | starts
          · omega
          · exact absurd inside starts
      · exact below

theorem truncateUtf8_eq : truncateUtf8 text n = text.take (cutPoint text n) := by
  unfold truncateUtf8 cutPoint
  split_ifs
  · rw [List.take_length]
  · rfl

theorem cutPoint_le : cutPoint text n ≤ text.length := by
  unfold cutPoint
  split_ifs with short
  · exact Nat.le_refl _
  · have : boundary text n ≤ n := boundary_le
    omega

theorem cutPoint_between : Between text (cutPoint text n) := by
  unfold cutPoint
  split_ifs
  · exact .inr (.inl rfl)
  · have cut : boundary text n = 0 ∨ ¬ Continues (text.getD (boundary text n) 0) := boundary_between
    rcases cut with zero | starts
    · exact .inl zero
    · exact .inr (.inr starts)

theorem cutPoint_of_between (inside : n ≤ text.length) (between : Between text n) : cutPoint text n = n := by
  unfold cutPoint
  split_ifs with short
  · omega
  · refine Nat.le_antisymm boundary_le (boundary_greatest (Nat.le_refl n) ?_)
    rcases between with zero | whole | starts
    · exact .inl zero
    · omega
    · exact .inr starts

theorem cutPoint_mono (below : m ≤ n) : cutPoint text m ≤ cutPoint text n := by
  unfold cutPoint
  split_ifs with short long long
  · exact Nat.le_refl _
  · omega
  · have : boundary text m ≤ m := boundary_le
    omega
  · exact boundary_greatest (Nat.le_trans boundary_le below) boundary_between

end

/-! The search -/

/-- Where no larger number fits than one that does not, the search finds the largest. -/
theorem bisect_spec {fits : Nat → Bool} {size : Nat}
    (down : ∀ m n, m ≤ n → n ≤ size → fits n = true → fits m = true) (low high best : Nat) (inside : high ≤ size)
    (near : low ≤ high + 1) (below : low = 0 ∧ best = 0 ∨ fits best = true ∧ best + 1 = low)
    (above : ∀ n, high < n → n ≤ size → fits n = false) :
    ∀ n, n ≤ size → fits n = true → n ≤ bisect fits low high best ∧ fits (bisect fits low high best) = true := by
  induction low, high, best using bisect.induct fits with
  | case1 low high best range mid fit ih =>
      rw [bisect, if_pos range, if_pos fit]
      exact ih inside (by omega) (.inr ⟨fit, rfl⟩) above
  | case2 low high best range mid unfit zero =>
      intro n small fit
      exact absurd (down mid n (by omega) small fit) unfit
  | case3 low high best range mid unfit positive ih =>
      rw [bisect, if_pos range, if_neg unfit, if_neg positive]
      refine ih (by omega) (by omega) below ?_
      intro n larger small
      by_contra fit
      exact unfit (down mid n (by omega) small (Bool.not_eq_false _ ▸ fit))
  | case4 low high best range =>
      rw [bisect, if_neg range]
      intro n small fit
      rcases below with ⟨rfl, _⟩ | ⟨found, same⟩
      · omega
      · refine ⟨?_, found⟩
        by_contra larger
        exact absurd fit (Bool.eq_false_iff.mp (above n (by omega) small))

/-! Encoded texts -/

def LoadedFile.Valid (file : LoadedFile) : Prop := Encoded file.display ∧ Encoded file.content

theorem truncateUtf8_encoded {text : Bytes} (valid : Encoded text) (n : Nat) : Encoded (truncateUtf8 text n) := by
  rw [truncateUtf8_eq]
  have cuts : Between text (cutPoint text n) := cutPoint_between
  rcases cuts with zero | whole | starts
  · rw [zero, List.take_zero]
    exact .nil
  · rw [whole, List.take_length]
    exact valid
  · cases behind : text.drop (cutPoint text n) with
    | nil =>
        have whole := List.take_append_drop (cutPoint text n) text
        rw [behind, List.append_nil] at whole
        rw [whole]
        exact valid
    | cons b rest =>
        have byte : text.getD (cutPoint text n) 0 = b := by
          have := congrArg (·.head?) behind
          rw [List.head?_drop] at this
          rw [List.getD_eq_getElem?_getD, this]
          rfl
        rw [byte] at starts
        rw [← List.take_append_drop (cutPoint text n) text, behind] at valid
        exact (valid.split starts).1

theorem join_encoded {items : List Bytes} {separator : Bytes} (valid : ∀ item ∈ items, Encoded item)
    (apart : Encoded separator) : Encoded (join items separator) := by
  have run : ∀ (items : List Bytes) (out : Bytes), Encoded out → (∀ item ∈ items, Encoded item) →
      Encoded (items.foldl (fun out item => (if out = [] then out else out ++ separator) ++ item) out) := by
    intro items
    induction items with
    | nil => exact fun _ done _ => done
    | cons item items ih =>
        intro out done valid
        rw [List.foldl_cons]
        refine ih _ ?_ fun other there => valid other (List.mem_cons_of_mem _ there)
        have last := valid item List.mem_cons_self
        split_ifs
        · exact done.append last
        · exact (done.append apart).append last
  exact run items [] .nil valid

theorem budgetMarker_encoded {omitted : List Bytes} {truncated : Option Bytes} (valid : ∀ item ∈ omitted, Encoded item)
    (note : ∀ text ∈ truncated, Encoded text) (maxBytes : Nat) : Encoded (budgetMarker maxBytes omitted truncated) := by
  unfold budgetMarker
  refine (((Utf8.encoded_bytes _).append (Utf8.encoded_bytes _)).append (Utf8.encoded_bytes _)).append
    (join_encoded ?_ (Utf8.encoded_bytes _))
  intro part there
  rcases List.mem_append.mp there with first | second
  · split_ifs at first with none
    · exact absurd first List.not_mem_nil
    · rw [List.mem_singleton.mp first]
      exact (Utf8.encoded_bytes _).append (join_encoded valid (Utf8.encoded_bytes _))
  · exact note part (Option.mem_toList.mp second)

theorem body_encoded {kept : List LoadedFile} {marker : Bytes} (valid : ∀ file ∈ kept, file.Valid)
    (note : Encoded marker) : Encoded (body kept marker) := by
  refine join_encoded ?_ (Utf8.encoded_bytes _)
  intro item there
  rcases List.mem_append.mp there with first | second
  · split_ifs at first with none
    · exact absurd first List.not_mem_nil
    · rw [List.mem_singleton.mp first]
      exact note
  · rcases List.mem_cons.mp second with rfl | section_
    · exact Utf8.encoded_bytes _
    · obtain ⟨file, here, rfl⟩ := List.mem_map.mp section_
      obtain ⟨display, content⟩ := valid file here
      exact (((Utf8.encoded_bytes _).append display).append (Utf8.encoded_bytes _)).append content

theorem escapeFrom_encoded {text : Bytes} (start : Nat) (valid : Encoded text) : Encoded (escapeFrom text start) := by
  induction text, start using escapeFrom.induct with
  | case1 text start found =>
      rw [escapeFrom_none found]
      exact valid
  | case2 text start i found ih =>
      obtain ⟨_, ⟨behind, whole⟩, _⟩ := findFrom_some found
      have parts : text = text.take i ++ (closing ++ behind) := by rw [whole, List.take_append_drop]
      have rest : text.drop (i + closing.length) = behind := by
        rw [← List.drop_drop, ← whole, List.drop_left]
      rw [escapeFrom_some found]
      rw [rest] at ih ⊢
      rw [parts, closing_cons, List.cons_append] at valid
      obtain ⟨before, after⟩ := valid.split (by decide)
      rw [← List.cons_append, ← closing_cons] at after
      have ascii : closing.all (fun b => decide (b < 0x80)) = true := by decide
      have rest := after.drop_ascii fun b there => of_decide_eq_true (List.all_eq_true.mp ascii b there)
      exact before.append ((Utf8.encoded_bytes _).append (ih rest))

theorem wrap_encoded {text : Bytes} (valid : Encoded text) : Encoded (wrap text) :=
  ((Utf8.encoded_bytes _).append (escapeFrom_encoded 0 valid)).append (Utf8.encoded_bytes _)

section
variable {files : List LoadedFile} (valid : ∀ file ∈ files, file.Valid) (maxBytes : Nat)
include valid

theorem displays_encoded {some : List LoadedFile} (part : some ⊆ files) :
    ∀ item ∈ some.map LoadedFile.display, Encoded item := by
  intro item there
  obtain ⟨file, here, rfl⟩ := List.mem_map.mp there
  exact (valid file (part here)).1

theorem bodyFrom_encoded (start : Nat) : Encoded (bodyFrom files maxBytes start) := by
  unfold bodyFrom
  split_ifs
  · exact body_encoded valid .nil
  · exact body_encoded (fun file there => valid file (List.mem_of_mem_drop there))
      (budgetMarker_encoded (displays_encoded valid (List.take_subset start files))
        (fun _ none => absurd none (Option.not_mem_none _)) maxBytes)

theorem lastFile_valid : (lastFile files).Valid := by
  unfold lastFile
  rw [List.getLastD_eq_getLast?]
  cases last : files.getLast? with
  | none => exact ⟨.nil, .nil⟩
  | some file => exact valid file (List.mem_of_getLast? last)

theorem bodyCut_encoded (n : Nat) : Encoded (bodyCut files maxBytes n) := by
  obtain ⟨display, content⟩ := lastFile_valid valid
  unfold bodyCut
  refine body_encoded ?_ (budgetMarker_encoded (displays_encoded valid (List.dropLast_subset files)) ?_ maxBytes)
  · intro file there
    rw [List.mem_singleton.mp there]
    exact ⟨display, truncateUtf8_encoded content n⟩
  · intro note there
    obtain rfl := Option.mem_some.mp there
    exact ((((((Utf8.encoded_bytes _).append display).append (Utf8.encoded_bytes _)).append
      (Utf8.encoded_bytes _)).append (Utf8.encoded_bytes _)).append (Utf8.encoded_bytes _)).append (Utf8.encoded_bytes _)

theorem render_encoded : Encoded (render files maxBytes) := by
  unfold render chosen
  split_ifs
  · exact .nil
  · split
    · exact wrap_encoded (bodyFrom_encoded valid maxBytes _)
    · exact wrap_encoded (bodyCut_encoded valid maxBytes _)

end

/-! What is kept -/

/-- What the budget promises. -/
structure KeepsMost (files : List LoadedFile) (maxBytes : Nat) (out : Bytes) : Prop where
  bounded : out.length ≤ maxBytes
  run : ∀ start, start < files.length → fits maxBytes (bodyFrom files maxBytes start) = true →
    (∀ earlier, earlier < start → fits maxBytes (bodyFrom files maxBytes earlier) = false) →
    out = wrap (bodyFrom files maxBytes start)
  part : files ≠ [] → (∀ start, start < files.length → fits maxBytes (bodyFrom files maxBytes start) = false) →
    ∀ n, n ≤ (lastFile files).content.length → Between (lastFile files).content n →
      fits maxBytes (bodyCut files maxBytes n) = true →
      (∀ m, n < m → m ≤ (lastFile files).content.length → Between (lastFile files).content m →
        fits maxBytes (bodyCut files maxBytes m) = false) →
      out = wrap (bodyCut files maxBytes n)
  valid : (∀ file ∈ files, file.Valid) → Encoded out

def SomeRunFits (files : List LoadedFile) (maxBytes : Nat) : Prop :=
  ∃ start, start < files.length ∧ fits maxBytes (bodyFrom files maxBytes start) = true

def SomeCutFits (files : List LoadedFile) (maxBytes : Nat) : Prop :=
  ∃ n, n ≤ (lastFile files).content.length ∧ Between (lastFile files).content n ∧
    fits maxBytes (bodyCut files maxBytes n) = true

/-- No larger cut fits than one that does not. -/
def CutsShrink (files : List LoadedFile) (maxBytes : Nat) : Prop :=
  ∀ m n, m ≤ n → n ≤ (lastFile files).content.length → Between (lastFile files).content m →
    Between (lastFile files).content n → fits maxBytes (bodyCut files maxBytes n) = true →
    fits maxBytes (bodyCut files maxBytes m) = true

section
variable {files : List LoadedFile} {maxBytes : Nat}

theorem fold_join (items : List Bytes) (out separator : Bytes) (begun : out ≠ []) :
    items.foldl (fun out item => (if out = [] then out else out ++ separator) ++ item) out =
      out ++ items.flatMap (separator ++ ·) := by
  induction items generalizing out with
  | nil => exact (List.append_nil out).symm
  | cons item items ih =>
      rw [List.foldl_cons, if_neg begun, ih _ (List.append_ne_nil_of_left_ne_nil
        (List.append_ne_nil_of_left_ne_nil begun _) _), List.flatMap_cons, List.append_assoc, List.append_assoc,
        List.append_assoc]

theorem join_cons {item : Bytes} (solid : item ≠ []) (items : List Bytes) (separator : Bytes) :
    join (item :: items) separator = item ++ items.flatMap (separator ++ ·) := by
  unfold join
  rw [List.foldl_cons, if_pos rfl, List.nil_append, fold_join _ _ _ solid]

theorem budgetMarker_form (omitted : List Bytes) (maxBytes : Nat) : ∃ lead, ∀ note, note ≠ [] →
    budgetMarker maxBytes omitted (some note) = bytes "Workspace instruction budget " ++ (lead ++ note) := by
  by_cases none : omitted = []
  · refine ⟨bytes (toString maxBytes) ++ bytes " bytes: ", ?_⟩
    intro note solid
    simp only [budgetMarker, if_pos none, List.nil_append, Option.toList_some, join_cons solid, List.flatMap_nil,
      List.append_nil, List.append_assoc]
  · refine ⟨bytes (toString maxBytes) ++ bytes " bytes: " ++
      (bytes "omitted " ++ join omitted (bytes ", ") ++ bytes "; "), ?_⟩
    intro note solid
    have first : bytes "omitted " ++ join omitted (bytes ", ") ≠ [] := List.append_ne_nil_of_left_ne_nil (by decide) _
    simp only [budgetMarker, if_neg none, Option.toList_some, List.singleton_append, join_cons first, List.flatMap_cons,
      List.flatMap_nil, List.append_nil, List.append_assoc]

theorem body_single (file : LoadedFile) {marker : Bytes} (solid : marker ≠ []) : body [file] marker =
    marker ++ (bytes "\n\n" ++ intro ++ (bytes "\n\n" ++ sectionText file)) := by
  unfold body
  rw [if_neg solid, List.singleton_append, join_cons solid]
  simp only [List.map_cons, List.map_nil, List.flatMap_cons, List.flatMap_nil, List.append_nil]

/-- The body of a cut differs from that of another in the number and in the end of the text. -/
theorem bodyCut_form (files : List LoadedFile) (maxBytes : Nat) : ∃ front back, ∀ n, bodyCut files maxBytes n =
    front ++ (bytes (toString (cutPoint (lastFile files).content n)) ++
      (back ++ (lastFile files).content.take (cutPoint (lastFile files).content n))) := by
  obtain ⟨lead, form⟩ := budgetMarker_form (files.dropLast.map LoadedFile.display) maxBytes
  refine ⟨bytes "Workspace instruction budget " ++ (lead ++ (bytes "truncated " ++ (lastFile files).display ++
    bytes " from " ++ bytes (toString (lastFile files).content.length) ++ bytes " to ")),
    bytes " bytes" ++ (bytes "\n\n" ++ intro ++ (bytes "\n\n" ++ (bytes "Instructions from: " ++
      (lastFile files).display ++ bytes "\n\n"))), ?_⟩
  intro n
  have size : (truncateUtf8 (lastFile files).content n).length = cutPoint (lastFile files).content n := by
    rw [truncateUtf8_eq, List.length_take]
    exact Nat.min_eq_left cutPoint_le
  have named : bytes "truncated " ≠ [] := by decide
  have solid : bytes "truncated " ++ (lastFile files).display ++ bytes " from " ++
      bytes (toString (lastFile files).content.length) ++ bytes " to " ++
      bytes (toString (cutPoint (lastFile files).content n)) ++ bytes " bytes" ≠ [] := by
    simp only [List.append_assoc]
    exact List.append_ne_nil_of_left_ne_nil named _
  have marker : bytes "Workspace instruction budget " ≠ [] := by decide
  unfold bodyCut
  simp only [size]
  rw [form _ solid, body_single _ (List.append_ne_nil_of_left_ne_nil marker _), truncateUtf8_eq]
  simp only [sectionText, List.append_assoc]

theorem escape_unmarked {text : Bytes} (unmarked : cut closing text = none) : escape text = text := by
  unfold escape
  apply escapeFrom_none
  rw [findFrom, List.drop_zero, unmarked]
  rfl

/-- Without a closing marker in what is cut, larger cuts give longer blocks. -/
theorem cutsShrink_unmarked (unmarked : ∀ n, cut closing (bodyCut files maxBytes n) = none) :
    CutsShrink files maxBytes := by
  intro m n below inside between between' fit
  obtain ⟨front, back, form⟩ := bodyCut_form files maxBytes
  have size (k : Nat) : (wrap (bodyCut files maxBytes k)).length = opening.length + (front.length +
      ((bytes (toString (cutPoint (lastFile files).content k))).length + (back.length +
        cutPoint (lastFile files).content k))) + (bytes "\n</system-reminder>").length := by
    have part : ((lastFile files).content.take (cutPoint (lastFile files).content k)).length =
        cutPoint (lastFile files).content k := by
      rw [List.length_take]
      exact Nat.min_eq_left cutPoint_le
    unfold wrap
    rw [escape_unmarked (unmarked k), form k]
    simp only [List.length_append, part]
  have mono : cutPoint (lastFile files).content m ≤ cutPoint (lastFile files).content n := cutPoint_mono below
  have digits := Utf8.decimal_length_mono mono
  have small : (wrap (bodyCut files maxBytes n)).length ≤ maxBytes := of_decide_eq_true fit
  apply decide_eq_true
  rw [size] at small ⊢
  omega

theorem chosen_run {start : Nat} (inside : start < files.length) (fit : fits maxBytes (bodyFrom files maxBytes start) = true)
    (least : ∀ earlier, earlier < start → fits maxBytes (bodyFrom files maxBytes earlier) = false) :
    chosen files maxBytes = bodyFrom files maxBytes start := by
  have found : (List.range files.length).find? (fun start => fits maxBytes (bodyFrom files maxBytes start)) =
      some start := by
    rw [List.find?_range_eq_some]
    refine ⟨fit, List.mem_range.mpr inside, ?_⟩
    intro earlier before
    rw [least earlier before]
    rfl
  unfold chosen
  rw [found]

theorem chosen_cut (none : ¬ SomeRunFits files maxBytes) : chosen files maxBytes = bodyCut files maxBytes
    (bisect (fun n => fits maxBytes (bodyCut files maxBytes n)) 0 (lastFile files).content.length 0) := by
  have absent : (List.range files.length).find? (fun start => fits maxBytes (bodyFrom files maxBytes start)) =
      Option.none := by
    rw [List.find?_range_eq_none]
    intro start inside
    rw [Bool.not_eq_true', ← Bool.not_eq_true]
    exact fun fit => none ⟨start, inside, fit⟩
  unfold chosen
  rw [absent]

theorem bodyCut_cutPoint (n : Nat) :
    bodyCut files maxBytes (cutPoint (lastFile files).content n) = bodyCut files maxBytes n := by
  have same : truncateUtf8 (lastFile files).content (cutPoint (lastFile files).content n) =
      truncateUtf8 (lastFile files).content n := by
    rw [truncateUtf8_eq, truncateUtf8_eq, cutPoint_of_between cutPoint_le cutPoint_between]
  unfold bodyCut
  simp only [same]

/-- The search comes to the largest cut that fits, if one does. -/
theorem chosen_largest (none : ¬ SomeRunFits files maxBytes) (shrink : CutsShrink files maxBytes) {n : Nat}
    (inside : n ≤ (lastFile files).content.length) (between : Between (lastFile files).content n)
    (fit : fits maxBytes (bodyCut files maxBytes n) = true) :
    ∃ m, n ≤ m ∧ m ≤ (lastFile files).content.length ∧ Between (lastFile files).content m ∧
      fits maxBytes (bodyCut files maxBytes m) = true ∧ chosen files maxBytes = bodyCut files maxBytes m := by
  have down : ∀ m n, m ≤ n → n ≤ (lastFile files).content.length → fits maxBytes (bodyCut files maxBytes n) = true →
      fits maxBytes (bodyCut files maxBytes m) = true := by
    intro m n below _ fit
    rw [← bodyCut_cutPoint] at fit ⊢
    exact shrink _ _ (cutPoint_mono below) cutPoint_le cutPoint_between cutPoint_between fit
  obtain ⟨larger, found⟩ := bisect_spec down 0
    (lastFile files).content.length 0 (Nat.le_refl _) (Nat.zero_le _) (.inl ⟨rfl, rfl⟩)
    (fun n larger small => absurd small (by omega)) n inside fit
  have mono : cutPoint (lastFile files).content n ≤ cutPoint (lastFile files).content _ := cutPoint_mono larger
  rw [cutPoint_of_between inside between] at mono
  refine ⟨_, mono, cutPoint_le, cutPoint_between, ?_, ?_⟩
  · rw [bodyCut_cutPoint]
    exact found
  · rw [bodyCut_cutPoint, chosen_cut none]

theorem wrap_positive (text : Bytes) : 0 < (wrap text).length := by
  unfold wrap
  rw [List.append_assoc, List.length_append]
  have : 0 < opening.length := by decide
  omega

theorem render_bounded (some : files ≠ []) (budget : maxBytes ≠ 0)
    (bounded : (render files maxBytes).length ≤ maxBytes) : fits maxBytes (chosen files maxBytes) = true := by
  unfold render at bounded
  rw [if_neg (not_or.mpr ⟨some, budget⟩)] at bounded
  exact decide_eq_true bounded

/-- A part that is kept is one that fits. -/
theorem something_fits (fit : fits maxBytes (chosen files maxBytes) = true) :
    SomeRunFits files maxBytes ∨ SomeCutFits files maxBytes := by
  by_cases run : SomeRunFits files maxBytes
  · exact .inl run
  · rw [chosen_cut run, ← bodyCut_cutPoint] at fit
    exact .inr ⟨_, cutPoint_le, cutPoint_between, fit⟩

theorem least_run (run : SomeRunFits files maxBytes) : ∃ start, start < files.length ∧
    fits maxBytes (bodyFrom files maxBytes start) = true ∧
    ∀ earlier, earlier < start → fits maxBytes (bodyFrom files maxBytes earlier) = false := by
  obtain ⟨start, inside, fit⟩ := run
  cases found : (List.range files.length).find? fun start => fits maxBytes (bodyFrom files maxBytes start) with
  | none =>
      have unfit := List.find?_range_eq_none.mp found start inside
      rw [fit] at unfit
      exact absurd unfit (by decide)
  | some first =>
      obtain ⟨fit, inside, least⟩ := List.find?_range_eq_some.mp found
      refine ⟨first, List.mem_range.mp inside, fit, ?_⟩
      intro earlier before
      exact (Bool.not_eq_true' _).mp (least earlier before)

/-- Of nothing, nothing is kept. -/
theorem keepsMost_nothing (nothing : files = [] ∨ maxBytes = 0) : KeepsMost files maxBytes (render files maxBytes) := by
  have empty : render files maxBytes = [] := if_pos nothing
  have unfit : files ≠ [] → ∀ text, fits maxBytes text ≠ true := by
    intro some text fit
    have zero := nothing.resolve_left some
    have small : (wrap text).length ≤ maxBytes := of_decide_eq_true fit
    have := wrap_positive text
    omega
  refine ⟨?_, ?_, ?_, fun valid => render_encoded valid maxBytes⟩
  · rw [empty]
    exact Nat.zero_le _
  · intro start inside fit _
    exact absurd fit (unfit (List.ne_nil_of_length_pos (Nat.zero_lt_of_lt inside)) _)
  · intro some _ n _ _ fit _
    exact absurd fit (unfit some _)

theorem keepsMost_run (some : files ≠ []) (budget : maxBytes ≠ 0) (run : SomeRunFits files maxBytes) :
    KeepsMost files maxBytes (render files maxBytes) := by
  obtain ⟨start, inside, fit, least⟩ := least_run run
  have out : render files maxBytes = wrap (bodyFrom files maxBytes start) := by
    unfold render
    rw [if_neg (not_or.mpr ⟨some, budget⟩), chosen_run inside fit least]
  refine ⟨?_, ?_, ?_, fun valid => render_encoded valid maxBytes⟩
  · rw [out]
    exact of_decide_eq_true fit
  · intro other inside' fit' least'
    have same : start = other := by
      rcases Nat.lt_trichotomy start other with before | same | after
      · exact absurd fit (Bool.eq_false_iff.mp (least' start before))
      · exact same
      · exact absurd fit' (Bool.eq_false_iff.mp (least other after))
    rw [out, same]
  · intro _ unfit
    exact absurd fit (Bool.eq_false_iff.mp (unfit start inside))

theorem keepsMost_cut (some : files ≠ []) (budget : maxBytes ≠ 0) (none : ¬ SomeRunFits files maxBytes)
    (cut : SomeCutFits files maxBytes) (shrink : CutsShrink files maxBytes) :
    KeepsMost files maxBytes (render files maxBytes) := by
  have out : render files maxBytes = wrap (chosen files maxBytes) := by
    unfold render
    rw [if_neg (not_or.mpr ⟨some, budget⟩)]
  refine ⟨?_, ?_, ?_, fun valid => render_encoded valid maxBytes⟩
  · obtain ⟨n, inside, between, fit⟩ := cut
    obtain ⟨m, _, _, _, found, same⟩ := chosen_largest none shrink inside between fit
    rw [out, same]
    exact of_decide_eq_true found
  · intro start inside fit _
    exact absurd ⟨start, inside, fit⟩ none
  · intro _ _ n inside between fit largest
    obtain ⟨m, larger, inside', between', found, same⟩ := chosen_largest none shrink inside between fit
    rcases Nat.lt_or_eq_of_le larger with above | rfl
    · exact absurd found (Bool.eq_false_iff.mp (largest m above inside' between'))
    · rw [out, same]

end

/-- The budget is kept only if something fits it, and it is then when a run of files fits, or when the fitting cuts
are those up to the largest. -/
theorem render_keepsMost (files : List LoadedFile) (maxBytes : Nat) :
    (KeepsMost files maxBytes (render files maxBytes) →
      files = [] ∨ maxBytes = 0 ∨ SomeRunFits files maxBytes ∨ SomeCutFits files maxBytes) ∧
    (files = [] ∨ maxBytes = 0 ∨ SomeRunFits files maxBytes ∨
        SomeCutFits files maxBytes ∧ CutsShrink files maxBytes →
      KeepsMost files maxBytes (render files maxBytes)) := by
  by_cases nothing : files = [] ∨ maxBytes = 0
  · refine ⟨?_, fun _ => keepsMost_nothing nothing⟩
    intro _
    exact nothing.imp_right Or.inl
  · obtain ⟨some, budget⟩ := not_or.mp nothing
    constructor
    · intro keeps
      exact .inr (.inr (something_fits (render_bounded some budget keeps.bounded)))
    · rintro (none | zero | run | ⟨cut, shrink⟩)
      · exact absurd none some
      · exact absurd zero budget
      · exact keepsMost_run some budget run
      · by_cases run : SomeRunFits files maxBytes
        · exact keepsMost_run some budget run
        · exact keepsMost_cut some budget run cut shrink

/-- A budget smaller than the block around the shortest text. -/
theorem budget_passed : ¬ KeepsMost [twoMarkers] 16 (render [twoMarkers] 16) := by
  intro keeps
  have out : render [twoMarkers] 16 = wrap (chosen [twoMarkers] 16) := if_neg (by decide)
  have bounded := keeps.bounded
  rw [out] at bounded
  unfold wrap at bounded
  have frame : opening.length = 18 := by decide
  rw [List.append_assoc, List.length_append, frame] at bounded
  omega

end Araya.Instructions
