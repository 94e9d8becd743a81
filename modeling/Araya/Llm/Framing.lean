import Araya.Llm.Sse

/-!
The events of a stream against the pieces it comes in. A parser that has begun reads the lines of all its
pieces; only the byte order mark is looked for in the first piece alone.
-/

namespace Araya.Llm
namespace SseParser

/-- One `feed` for each piece. -/
def feedAll : List Bytes → SseParser → SseParser × List SseEvent
  | [], p => (p, [])
  | piece :: pieces, p =>
    let (p, events) := p.feed piece
    let (p, later) := feedAll pieces p
    (p, events ++ later)

/-- What a new parser delivers. -/
def delivered (pieces : List Bytes) : List SseEvent := (feedAll pieces {}).2

/-- The lines that the bytes end, behind a line that has begun. -/
def lines : Bytes → Bytes → List Bytes
  | _, [] => []
  | begun, b :: bytes => if b = newline then trimmed begun :: lines [] bytes else lines (begun ++ [b]) bytes

def readLines : List Bytes → SseParser → List SseEvent
  | [], _ => []
  | line :: rest, p =>
    if line.isEmpty then p.dispatch.2 ++ readLines rest p.dispatch.1 else readLines rest (p.takeLine line)

def IsField (name : String) (line : Bytes) : Prop := line.head? ≠ some colon ∧ fieldOf line = ascii name

instance (name : String) (line : Bytes) : Decidable (IsField name line) := inferInstanceAs (Decidable (_ ∧ _))

/-- The lines up to the first blank one. -/
def block (rest : List Bytes) : List Bytes := rest.takeWhile (!·.isEmpty)

/-- Some event of the stream is another one without the line: the line is data, or it names the event of a block that
has data and no other name. -/
def Heard (line : Bytes) (rest : List Bytes) : Prop :=
  [] ∈ rest ∧ (IsField "data" line ∨ IsField "event" line ∧ valueOf line ≠ [] ∧ (∃ l ∈ block rest, IsField "data" l) ∧
    ∀ l ∈ block rest, ¬ IsField "event" l)

instance (line : Bytes) (rest : List Bytes) : Decidable (Heard line rest) := inferInstanceAs (Decidable (_ ∧ _))

/-- The stream begins with the mark, but its first piece does not. -/
def SplitMark (pieces : List Bytes) : Prop :=
  byteOrderMark <+: pieces.flatten ∧ ¬ byteOrderMark <+: pieces.headD []

/-- The line behind the mark. -/
def Lost (pieces : List Bytes) : Prop :=
  ∃ line ∈ (lines [] (pieces.flatten.drop 3)).head?, Heard line (lines [] (pieces.flatten.drop 3)).tail

/-! Pieces -/

section
variable (p : SseParser)

theorem scan_append (front back : Bytes) : p.scan (front ++ back) =
    (((p.scan front).1.scan back).1, (p.scan front).2 ++ ((p.scan front).1.scan back).2) := by
  induction front generalizing p with
  | nil => rfl
  | cons b bytes ih =>
      simp only [List.cons_append, scan]
      split
      · simp only [ih, List.append_assoc]
      · exact ih _

theorem takeLine_kept (line : Bytes) : (p.takeLine line).first = p.first ∧ (p.takeLine line).buffer = p.buffer := by
  unfold takeLine
  split
  · exact ⟨rfl, rfl⟩
  · split
    · exact ⟨rfl, rfl⟩
    · split <;> exact ⟨rfl, rfl⟩

theorem endLine_first : p.endLine.1.first = p.first := by
  unfold endLine
  dsimp only
  split
  · rfl
  · exact (takeLine_kept _ _).1

theorem scan_first (bytes : Bytes) : (p.scan bytes).1.first = p.first := by
  induction bytes generalizing p with
  | nil => rfl
  | cons b bytes ih =>
      simp only [scan]
      split
      · exact (ih _).trans p.endLine_first
      · exact ih _

theorem feed_begun (begun : p.first = false) (piece : Bytes) : p.feed piece = p.scan piece := by
  obtain ⟨buffer, event, data, hasData, first⟩ := p
  cases begun
  simp [feed]

theorem feedAll_begun (begun : p.first = false) (pieces : List Bytes) : feedAll pieces p = p.scan pieces.flatten := by
  induction pieces generalizing p with
  | nil => rfl
  | cons piece pieces ih =>
      rw [List.flatten_cons, scan_append, feedAll, feed_begun p begun]
      dsimp only
      rw [ih _ ((scan_first p piece).trans begun)]

end

/-- The first piece without its mark, and the bytes of the others. -/
theorem delivered_cons (piece : Bytes) (pieces : List Bytes) : delivered (piece :: pieces) =
    (scan { first := false } ((if byteOrderMark <+: piece then piece.drop 3 else piece) ++ pieces.flatten)).2 := by
  have begun := feedAll_begun (feed {} piece).1 (scan_first _ _) pieces
  rw [delivered, feedAll, scan_append]
  dsimp only
  rw [begun]
  simp only [feed, true_and]

/-! Lines -/

theorem scan_lines (p : SseParser) (bytes : Bytes) :
    (p.scan bytes).2 = readLines (lines p.buffer bytes) { p with buffer := [] } := by
  induction bytes generalizing p with
  | nil => rfl
  | cons b bytes ih =>
      simp only [scan, lines]
      split
      · rw [ih, endLine, readLines]
        dsimp only
        split
        · rfl
        · have kept := (takeLine_kept { p with buffer := [] } (trimmed p.buffer)).2
          rw [kept]
          refine congrArg (readLines _) ?_
          exact congrArg (fun buffer => ({ takeLine { p with buffer := [] } (trimmed p.buffer) with buffer } : SseParser))
            kept.symm
      · exact ih _

/-- Bytes before a line go with it. -/
theorem lines_behind (mark begun bytes : Bytes) : (lines begun bytes = [] ∧ lines (mark ++ begun) bytes = []) ∨
    ∃ line rest, lines begun bytes = trimmed line :: rest ∧ lines (mark ++ begun) bytes = trimmed (mark ++ line) :: rest := by
  induction bytes generalizing begun with
  | nil => exact .inl ⟨rfl, rfl⟩
  | cons b bytes ih =>
      simp only [lines]
      split
      · exact .inr ⟨begun, _, rfl, rfl⟩
      · rw [List.append_assoc]
        exact ih (begun ++ [b])

/-- Up to the first blank line nothing is delivered, and behind it nothing is left. -/
theorem readLines_block (rest : List Bytes) (p : SseParser) : readLines rest p =
    if [] ∈ rest then ((block rest).foldl takeLine p).dispatch.2 ++
      readLines ((rest.dropWhile (!·.isEmpty)).drop 1) ((block rest).foldl takeLine p).dispatch.1 else [] := by
  induction rest generalizing p with
  | nil => rfl
  | cons line rest ih =>
      rw [readLines]
      cases line with
      | nil => simp [block]
      | cons b bytes =>
          rw [if_neg (by simp), ih]
          simp [block]

/-! What a block leaves -/

/-- The data lines of a block, each behind a newline. -/
def joined (rest : List Bytes) : Bytes :=
  (rest.filter fun line => decide (IsField "data" line)).flatMap fun line => newline :: valueOf line

theorem not_event_of_data {line : Bytes} (data : IsField "data" line) : ¬ IsField "event" line := by
  intro event
  exact absurd (data.2.symm.trans event.2) (by decide)

section
variable {p : SseParser} {line : Bytes}

theorem takeLine_data (data : IsField "data" line) : p.takeLine line =
    { p with data := (if p.hasData then p.data ++ [newline] else p.data) ++ valueOf line, hasData := true } := by
  rw [takeLine, if_neg data.1, if_pos data.2]

theorem takeLine_event (event : IsField "event" line) : p.takeLine line = { p with event := valueOf line } := by
  have other : fieldOf line ≠ ascii "data" := fun data => absurd (data.symm.trans event.2) (by decide)
  rw [takeLine, if_neg event.1, if_neg other, if_pos event.2]

theorem takeLine_other (data : ¬ IsField "data" line) (event : ¬ IsField "event" line) : p.takeLine line = p := by
  unfold takeLine
  split
  · rfl
  · next speaks =>
      rw [if_neg fun h => data ⟨speaks, h⟩, if_neg fun h => event ⟨speaks, h⟩]

end

/-- The block `rest`, read from two parsers that only differ in what they have of the event. -/
theorem foldl_dispatch (rest : List Bytes) {p q : SseParser} (buffer : p.buffer = q.buffer) (first : p.first = q.first) :
    (rest.foldl takeLine p).dispatch.1 = (rest.foldl takeLine q).dispatch.1 := by
  have kept (r : SseParser) : (rest.foldl takeLine r).buffer = r.buffer ∧ (rest.foldl takeLine r).first = r.first := by
    induction rest generalizing r with
    | nil => exact ⟨rfl, rfl⟩
    | cons line rest ih =>
        have own := r.takeLine_kept line
        exact ⟨(ih _).1.trans own.2, (ih _).2.trans own.1⟩
  rw [dispatch, dispatch, SseParser.mk.injEq]
  exact ⟨(kept p).1.trans (buffer.trans (kept q).1.symm), rfl, rfl, rfl, (kept p).2.trans (first.trans (kept q).2.symm)⟩

theorem foldl_hasData (rest : List Bytes) (p : SseParser) :
    (rest.foldl takeLine p).hasData = (p.hasData || rest.any fun line => decide (IsField "data" line)) := by
  induction rest generalizing p with
  | nil => simp
  | cons line rest ih =>
      rw [List.foldl_cons, ih, List.any_cons]
      by_cases data : IsField "data" line
      · simp [takeLine_data data, data]
      · by_cases event : IsField "event" line
        · simp [takeLine_event event, data]
        · simp [takeLine_other data event, data]

theorem foldl_data (rest : List Bytes) (p : SseParser) :
    (rest.foldl takeLine p).data = p.data ++ if p.hasData then joined rest else (joined rest).tail := by
  induction rest generalizing p with
  | nil => simp [joined]
  | cons line rest ih =>
      rw [List.foldl_cons, ih]
      by_cases data : IsField "data" line
      · cases has : p.hasData <;> simp [takeLine_data data, joined, data, has]
      · by_cases event : IsField "event" line
        · simp [takeLine_event event, joined, data]
        · simp [takeLine_other data event, joined, data]

theorem foldl_event (rest : List Bytes) (p : SseParser) : (rest.foldl takeLine p).event =
    ((rest.filter fun line => decide (IsField "event" line)).getLast?.map valueOf).getD p.event := by
  induction rest generalizing p with
  | nil => rfl
  | cons line rest ih =>
      rw [List.foldl_cons, ih, List.filter_cons]
      by_cases event : IsField "event" line
      · rw [takeLine_event event, if_pos (decide_eq_true event), List.getLast?_cons]
        cases (rest.filter fun line => decide (IsField "event" line)).getLast? <;> rfl
      · have kept : (p.takeLine line).event = p.event := by
          by_cases data : IsField "data" line
          · rw [takeLine_data data]
          · rw [takeLine_other data event]
        rw [if_neg (by simpa using event), kept]

/-- Two parsers that differ in the open event only deliver alike if the block that it belongs to ends alike. -/
theorem readLines_eq_iff (rest : List Bytes) {p q : SseParser} (buffer : p.buffer = q.buffer) (first : p.first = q.first) :
    readLines rest p = readLines rest q ↔
      ([] ∈ rest → ((block rest).foldl takeLine p).dispatch.2 = ((block rest).foldl takeLine q).dispatch.2) := by
  rw [readLines_block rest p, readLines_block rest q, foldl_dispatch (block rest) buffer first]
  split
  · next ends => rw [List.append_left_inj, imp_iff_right ends]
  · next open' => exact iff_of_true rfl fun ends => absurd ends open'

/-- A first line is heard if what it leaves makes a difference. -/
theorem readLines_heard (line : Bytes) (rest : List Bytes) :
    readLines (line :: rest) { first := false } = readLines rest { first := false } ↔ ¬ Heard line rest := by
  cases solid : line.isEmpty with
  | true =>
      obtain rfl := List.isEmpty_iff.mp solid
      exact iff_of_true rfl fun heard => heard.2.elim (fun data => absurd data.2 (by decide))
        fun event => absurd event.1.2 (by decide)
  | false =>
      have kept := takeLine_kept { first := false } line
      rw [readLines, solid, if_neg Bool.false_ne_true, readLines_eq_iff rest kept.2 kept.1, Heard, not_and]
      refine imp_congr_right fun _ => ?_
      have spoken : (block rest).any (fun line => decide (IsField "data" line)) = true ↔ ∃ l ∈ block rest, IsField "data" l := by
        simp
      by_cases data : IsField "data" line
      · refine iff_of_false (fun same => ?_) fun silent => silent (.inl data)
        simp only [dispatch, foldl_hasData, foldl_data, takeLine_data data, Bool.true_or, if_true, Bool.false_or,
          Bool.false_eq_true, if_false] at same
        split at same
        · next some =>
            obtain ⟨l, member, field⟩ := spoken.mp some
            have length := congrArg List.length ((SseEvent.mk.injEq ..).mp (List.cons.inj same).1).2
            have mem : newline ∈ joined (block rest) :=
              List.mem_flatMap.mpr ⟨l, List.mem_filter.mpr ⟨member, decide_eq_true field⟩, List.mem_cons_self⟩
            have pos := List.length_pos_of_mem mem
            simp only [List.nil_append, List.length_append, List.length_tail] at length
            omega
        · exact absurd same (List.cons_ne_nil _ _)
      · by_cases event : IsField "event" line
        · simp only [dispatch, foldl_hasData, foldl_data, foldl_event, takeLine_event event, Bool.false_or, Bool.false_eq_true,
            if_false, data, event, false_or, true_and, not_and]
          rw [← spoken]
          cases (block rest).any (fun line => decide (IsField "data" line)) with
          | false => simp
          | true =>
              rw [if_pos rfl, if_pos rfl, List.singleton_inj, SseEvent.mk.injEq, and_iff_left rfl, imp_iff_right rfl]
              cases last : ((block rest).filter fun line => decide (IsField "event" line)).getLast? with
              | none =>
                  have none := List.filter_eq_nil_iff.mp (List.getLast?_eq_none_iff.mp last)
                  simp only [decide_eq_true_eq] at none
                  exact ⟨fun same solid => absurd same solid, fun silent => by_contra fun solid => silent solid none⟩
              | some l =>
                  have there := List.mem_filter.mp (List.mem_of_getLast? last)
                  exact iff_of_true rfl fun _ none => none l there.1 (of_decide_eq_true there.2)
        · rw [takeLine_other data event]
          exact iff_of_true rfl fun heard => heard.elim data fun h => event h.1

/-! The mark -/

theorem trimmed_behind (line : Bytes) : trimmed (byteOrderMark ++ line) = byteOrderMark ++ trimmed line := by
  rcases List.eq_nil_or_concat line with rfl | ⟨front, b, rfl⟩
  · decide
  · unfold trimmed
    rw [List.concat_eq_append, ← List.append_assoc, List.getLast?_concat, List.getLast?_concat, List.dropLast_concat,
      List.dropLast_concat]
    split
    · rfl
    · exact List.append_assoc _ _ _

theorem readLines_mark (line : Bytes) (rest : List Bytes) (p : SseParser) :
    readLines (trimmed (byteOrderMark ++ line) :: rest) p = readLines rest p := by
  have named (name : String) (other : (ascii name).head? ≠ some 0xEF) :
      ¬ IsField name (byteOrderMark ++ trimmed line) := fun field => other (congrArg List.head? field.2).symm
  rw [trimmed_behind, readLines, if_neg (by simp [byteOrderMark]), takeLine_other (named _ (by decide)) (named _ (by decide))]

theorem delivered_split (pieces : List Bytes) :
    delivered pieces = delivered [pieces.flatten] ↔ ¬ (SplitMark pieces ∧ Lost pieces) := by
  cases pieces with
  | nil => exact iff_of_true rfl fun lost => absurd lost.1.1 (by decide)
  | cons piece pieces =>
      rw [delivered_cons, delivered_cons, List.flatten_nil, List.append_nil, List.flatten_cons]
      by_cases own : byteOrderMark <+: piece
      · obtain ⟨rest, rfl⟩ := own
        refine iff_of_true ?_ fun lost => lost.1.2 (List.prefix_append _ _)
        rw [if_pos (List.prefix_append _ _), List.append_assoc, if_pos (List.prefix_append _ _)]
        rfl
      · by_cases whole : byteOrderMark <+: piece ++ pieces.flatten
        · obtain ⟨rest, same⟩ := whole
          have split : SplitMark (piece :: pieces) := ⟨⟨rest, same⟩, own⟩
          rw [if_neg own, ← same, if_pos (List.prefix_append _ _), scan_lines, scan_lines]
          simp only [Lost, List.flatten_cons, ← same, split, true_and]
          have dropped : (byteOrderMark ++ rest).drop 3 = rest := rfl
          have scanned : lines [] (byteOrderMark ++ rest) = lines byteOrderMark rest := rfl
          rw [dropped, scanned]
          rcases lines_behind byteOrderMark [] rest with ⟨none, none'⟩ | ⟨line, later, front, front'⟩
          · rw [List.append_nil] at none'
            rw [none, none']
            exact iff_of_true rfl fun ⟨line, member, _⟩ => by cases member
          · rw [List.append_nil] at front'
            rw [front, front', readLines_mark, eq_comm, readLines_heard]
            simp
        · refine iff_of_true ?_ fun lost => whole lost.1.1
          rw [if_neg own, if_neg whole]

/-- The mark comes in two pieces, and the data line behind it is no field any more. -/
theorem delivered_split_mark : ¬ ∀ pieces, delivered pieces = delivered [pieces.flatten] := by
  intro same
  have lengths := congrArg List.length (same [[0xEF], [0xBB, 0xBF] ++ ascii "data: a\n\n"])
  exact absurd lengths (by decide)

end SseParser
end Araya.Llm
