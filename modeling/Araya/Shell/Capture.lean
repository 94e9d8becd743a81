import Araya.Llm.Sse
import Mathlib.Order.MinMax

/-!
The output of a command. Each stream is retained up to a cap; what comes behind it is counted, and goes to a file that is
opened late and starts with the retained text. A reader of a background command gets what is new since it last asked.
-/

namespace Araya.Shell
open Llm (Bytes ascii newline)

/-! The spill file -/

/-- The file opens, and its writes succeed. -/
structure SpillWriter where
  limit : Nat
  file : Option Bytes := none
  written : Nat := 0
  prefixWritten : Bool := false

namespace SpillWriter
variable (w : SpillWriter)

def write (data : Bytes) : SpillWriter :=
  if w.limit ≤ w.written ∨ data.length = 0 then w
  else
    let keep := min data.length (w.limit - w.written)
    { w with file := some (w.file.getD [] ++ data.take keep), written := w.written + keep }

/-- The retained text goes to the file once. -/
def writePrefix (text : Bytes) : SpillWriter := if w.prefixWritten then w else { w with prefixWritten := true }.write text

def content : Bytes := w.file.getD []

end SpillWriter

/-! The streams -/

/-- A stream: its retained text, how many bytes were dropped, and what of both a reader has been told. -/
structure Capture where
  text : Bytes := []
  dropped : Nat := 0
  spill : Option SpillWriter := none
  cursor : Nat := 0
  droppedReported : Nat := 0

/-- What a stream has for its next reader. -/
structure Fresh where
  text : Bytes
  dropped : Nat

namespace Capture
variable (c : Capture)

def spills (data : Bytes) : Capture := { c with spill := c.spill.map fun w => (w.writePrefix c.text).write data }

/-- `drain` with one chunk. -/
def drain (cap : Nat) (chunk : Bytes) : Capture :=
  if c.text.length < cap then
    let keep := min chunk.length (cap - c.text.length)
    let c := { c with text := c.text ++ chunk.take keep }
    if keep < chunk.length then { c with dropped := c.dropped + (chunk.length - keep) }.spills (chunk.drop keep) else c
  else { c with dropped := c.dropped + chunk.length }.spills chunk

def fresh : Fresh := ⟨c.text.drop c.cursor, c.dropped - c.droppedReported⟩

/-- The stream was read; the drops are reported where there are any. -/
def told (reports : Bool) : Capture :=
  { c with cursor := max c.cursor c.text.length, droppedReported := if reports then c.dropped else c.droppedReported }

end Capture

/-- The streams of a background command. -/
structure BgState where
  stdout : Capture := {}
  stderr : Capture := {}

/-- The text goes on at the start of a line. -/
def onLine (text : Bytes) : Bytes := if text ≠ [] ∧ text.getLast? ≠ some newline then text ++ [newline] else text

def truncationNotice (dropped : Nat) : Bytes :=
  ascii ("[output truncated; " ++ toString dropped ++ " bytes dropped, full output not retained]")

/-- The text of a read: the new output of both streams, and how much was dropped. -/
def rendered (stdout stderr : Fresh) : Bytes :=
  let text := if stderr.text = [] then stdout.text else onLine stdout.text ++ ascii "[stderr]\n" ++ stderr.text
  let dropped := stdout.dropped + stderr.dropped
  if 0 < dropped then onLine text ++ truncationNotice dropped else text

def BgState.readOutput (s : BgState) : Bytes × BgState :=
  let reports := decide (0 < s.stdout.fresh.dropped + s.stderr.fresh.dropped)
  (rendered s.stdout.fresh s.stderr.fresh, { stdout := s.stdout.told reports, stderr := s.stderr.told reports })

/-! Runs -/

inductive Event where
  | stdout (chunk : Bytes)
  | stderr (chunk : Bytes)
  | read

/-- The streams, and the texts that reads have returned. -/
def step (cap : Nat) : BgState × List Bytes → Event → BgState × List Bytes
  | (s, texts), .stdout chunk => ({ s with stdout := s.stdout.drain cap chunk }, texts)
  | (s, texts), .stderr chunk => ({ s with stderr := s.stderr.drain cap chunk }, texts)
  | (s, texts), .read => (s.readOutput.2, texts ++ [s.readOutput.1])

/-- Streams that spill where there is a limit for the files. -/
def start (limit : Option Nat) : BgState where
  stdout := { spill := limit.map fun limit => { limit } }
  stderr := { spill := limit.map fun limit => { limit } }

def run (cap : Nat) (limit : Option Nat) (events : List Event) : BgState × List Bytes :=
  events.foldl (step cap) (start limit, [])

def Event.onStdout : Event → Bytes
  | .stdout chunk => chunk
  | .stderr _ | .read => []

def Event.onStderr : Event → Bytes
  | .stderr chunk => chunk
  | .stdout _ | .read => []

/-! What is kept -/

/-- A spill file that has its prefix holds the stream up to its limit. -/
structure SpillWriter.Holds (w : SpillWriter) (cap : Nat) (all : Bytes) : Prop where
  early : w.prefixWritten = false → w.file = none ∧ w.written = 0 ∧ all.length ≤ cap
  late : w.prefixWritten = true → cap ≤ all.length ∧ w.content = all.take w.limit ∧ w.written = (all.take w.limit).length

/-- A stream after the bytes `all`, with its spill file. -/
structure Capture.Keeps (c : Capture) (cap : Nat) (limit : Option Nat) (all : Bytes) : Prop where
  text : c.text = all.take cap
  dropped : c.dropped = all.length - cap
  limit : c.spill.map (·.limit) = limit
  spill : ∀ w, c.spill = some w → w.Holds cap all

/-- The reads so far got the parts of the text and the drops, each once. -/
structure Capture.Told (c : Capture) (parts : List Fresh) : Prop where
  text : parts.flatMap (·.text) = c.text.take c.cursor
  dropped : (parts.map (·.dropped)).foldr (· + ·) 0 = c.droppedReported
  cursor : c.cursor ≤ c.text.length
  reported : c.droppedReported ≤ c.dropped

section
variable {c : Capture} {w : SpillWriter} {cap : Nat} {limit : Option Nat} {all chunk data : Bytes} {parts : List Fresh}

theorem write_limit (data : Bytes) : (w.write data).limit = w.limit := by
  unfold SpillWriter.write
  split
  · rfl
  · rfl

theorem writePrefix_limit (text : Bytes) : (w.writePrefix text).limit = w.limit := by
  unfold SpillWriter.writePrefix
  split
  · rfl
  · exact write_limit text

theorem write_prefixWritten (data : Bytes) : (w.write data).prefixWritten = w.prefixWritten := by
  unfold SpillWriter.write
  split
  · rfl
  · rfl

/-- A write goes on where the file ends, up to the limit. -/
theorem write_content (holds : w.content = all.take w.limit) (count : w.written = (all.take w.limit).length) (data : Bytes) :
    (w.write data).content = (all ++ data).take w.limit ∧ (w.write data).written = ((all ++ data).take w.limit).length := by
  rw [List.length_take] at count
  unfold SpillWriter.write
  split
  · rename_i full
    have same : (all ++ data).take w.limit = all.take w.limit := by
      obtain full | none := full
      · exact List.take_append_of_le_length (by omega)
      · rw [List.length_eq_zero_iff.mp none, List.append_nil]
    rw [same, List.length_take]
    exact ⟨holds, count⟩
  · rename_i room
    have fits : all.length < w.limit := by omega
    have kept : (all ++ data).take w.limit = all ++ data.take (w.limit - all.length) := by
      rw [List.take_append, List.take_of_length_le fits.le]
    have whole : w.written = all.length := by omega
    rw [List.take_of_length_le fits.le] at holds
    rw [kept, whole]
    refine ⟨?_, ?_⟩
    · change w.content ++ _ = _
      rw [holds]
      by_cases short : data.length ≤ w.limit - all.length
      · rw [min_eq_left short, List.take_length, List.take_of_length_le short]
      · rw [min_eq_right (by omega)]
    · rw [List.length_append, List.length_take, min_comm]

/-- What overflows goes behind the retained text. -/
theorem holds_spills (holds : w.Holds cap all) (full : cap ≤ (all ++ data).length) {text : Bytes}
    (text_eq : w.prefixWritten = false → text = all) :
    ((w.writePrefix text).write data).Holds cap (all ++ data) := by
  have opened : (w.writePrefix text).prefixWritten = true ∧ (w.writePrefix text).content = all.take w.limit ∧
      (w.writePrefix text).written = (all.take w.limit).length := by
    unfold SpillWriter.writePrefix
    cases pre : w.prefixWritten with
    | true => exact ⟨pre, (holds.late pre).2⟩
    | false =>
        obtain ⟨file, count, -⟩ := holds.early pre
        have none : ({ w with prefixWritten := true } : SpillWriter).content = ([] : Bytes).take w.limit := by
          rw [SpillWriter.content, file, List.take_nil]
          rfl
        have := write_content none (by rw [List.take_nil]; exact count) text
        rw [text_eq pre] at this ⊢
        exact ⟨write_prefixWritten _, this⟩
  refine ⟨fun early => ?_, fun _ => ?_⟩
  · rw [write_prefixWritten, opened.1] at early
    cases early
  · rw [write_limit, writePrefix_limit]
    obtain ⟨-, content, count⟩ := opened
    have limit := writePrefix_limit (w := w) text
    rw [← limit] at content count ⊢
    exact ⟨full, write_content content count data⟩

/-- The counters of a stream are those of its bytes after one more chunk. -/
theorem Capture.Keeps.drain (h : c.Keeps cap limit all) (chunk : Bytes) : (c.drain cap chunk).Keeps cap limit (all ++ chunk) := by
  have retained : c.text.length = min cap all.length := by rw [h.text, List.length_take]
  have spills_limit (text data : Bytes) : (c.spill.map fun w => (w.writePrefix text).write data).map (·.limit) = limit := by
    rw [← h.limit]
    cases c.spill with
    | none => rfl
    | some w => exact congrArg some ((write_limit _).trans (writePrefix_limit _))
  unfold Capture.drain
  split
  · rename_i room
    have short : all.length < cap := by omega
    have whole : c.text = all := h.text.trans (List.take_of_length_le short.le)
    have kept : all ++ chunk.take (min chunk.length (cap - all.length)) = (all ++ chunk).take cap := by
      rw [List.take_append, List.take_of_length_le short.le]
      by_cases fits : chunk.length ≤ cap - all.length
      · rw [min_eq_left fits, List.take_length, List.take_of_length_le fits]
      · rw [min_eq_right (by omega)]
    have unwritten (w : SpillWriter) (hw : c.spill = some w) : w.prefixWritten = false := by
      cases pre : w.prefixWritten with
      | false => rfl
      | true =>
          have := ((h.spill w hw).late pre).1
          omega
    rw [whole]
    dsimp only
    split
    · rename_i more
      have large : cap - all.length < chunk.length := by omega
      refine ⟨kept, ?_, spills_limit _ _, fun w' hw' => ?_⟩
      · change c.dropped + _ = _
        rw [h.dropped, List.length_append]
        omega
      · obtain ⟨w, hw, rfl⟩ := Option.map_eq_some_iff.mp hw'
        have split : (all ++ chunk.take (min chunk.length (cap - all.length))) ++
            chunk.drop (min chunk.length (cap - all.length)) = all ++ chunk := by
          rw [List.append_assoc, List.take_append_drop]
        rw [← split]
        have pre := unwritten w hw
        refine holds_spills ⟨fun _ => ?_, fun late => ?_⟩ ?_ fun _ => rfl
        · obtain ⟨file, count, -⟩ := (h.spill w hw).early pre
          rw [kept, List.length_take]
          exact ⟨file, count, min_le_left ..⟩
        · rw [pre] at late
          cases late
        · rw [split, List.length_append]
          omega
    · rename_i fits
      refine ⟨kept, ?_, h.limit, fun w hw => ⟨fun early => ?_, fun late => ?_⟩⟩
      · change c.dropped = _
        rw [h.dropped, List.length_append]
        omega
      · obtain ⟨file, count, -⟩ := (h.spill w hw).early early
        refine ⟨file, count, ?_⟩
        rw [List.length_append]
        omega
      · rw [unwritten w hw] at late
        cases late
  · rename_i full
    have large : cap ≤ all.length := by omega
    refine ⟨?_, ?_, spills_limit _ _, fun w' hw' => ?_⟩
    · change c.text = _
      rw [h.text, List.take_append_of_le_length large]
    · change c.dropped + _ = _
      rw [h.dropped, List.length_append]
      omega
    · obtain ⟨w, hw, rfl⟩ := Option.map_eq_some_iff.mp hw'
      have more : cap ≤ (all ++ chunk).length := by
        rw [List.length_append]
        omega
      refine holds_spills (h.spill w hw) more fun early => ?_
      have exact := ((h.spill w hw).early early).2.2
      change c.text = all
      rw [h.text, List.take_of_length_le exact]

/-! What is told -/

theorem drain_told (chunk : Bytes) (h : c.Told parts) : (c.drain cap chunk).Told parts := by
  have grown : ∃ more, (c.drain cap chunk).text = c.text ++ more ∧ c.dropped ≤ (c.drain cap chunk).dropped ∧
      (c.drain cap chunk).cursor = c.cursor ∧ (c.drain cap chunk).droppedReported = c.droppedReported := by
    unfold Capture.drain
    split
    · dsimp only
      split
      · exact ⟨_, rfl, Nat.le_add_right .., rfl, rfl⟩
      · exact ⟨_, rfl, le_rfl, rfl, rfl⟩
    · exact ⟨[], (List.append_nil _).symm, Nat.le_add_right .., rfl, rfl⟩
  obtain ⟨more, text, dropped, cursor, reported⟩ := grown
  refine ⟨?_, reported ▸ h.dropped, ?_, ?_⟩
  · rw [h.text, cursor, text, List.take_append_of_le_length h.cursor]
  · rw [cursor, text, List.length_append]
    exact h.cursor.trans (Nat.le_add_right ..)
  · rw [reported]
    exact h.reported.trans dropped

/-- A read takes what is new, and leaves nothing behind. -/
theorem Capture.Told.read (h : c.Told parts) {reports : Bool} (all : c.fresh.dropped ≠ 0 → reports = true) :
    (c.told reports).Told (parts ++ [c.fresh]) ∧ (c.told reports).fresh = ⟨[], 0⟩ := by
  have cursor : (c.told reports).cursor = c.text.length := max_eq_right h.cursor
  have reported : (c.told reports).droppedReported = c.dropped := by
    cases reports with
    | true => rfl
    | false =>
        have none : c.dropped - c.droppedReported = 0 := by
          by_contra some
          cases all some
        change c.droppedReported = c.dropped
        have := h.reported
        omega
  refine ⟨⟨?_, ?_, cursor.le, reported.le⟩, ?_⟩
  · rw [List.flatMap_append, h.text, cursor]
    change _ ++ (c.text.drop c.cursor ++ []) = c.text.take c.text.length
    rw [List.append_nil, List.take_append_drop, List.take_length]
  · rw [reported, List.map_append, List.foldr_append]
    change List.foldr (· + ·) (c.dropped - c.droppedReported + 0) _ = _
    have sum (l : List Nat) (n : Nat) : l.foldr (· + ·) n = l.foldr (· + ·) 0 + n := by
      induction l with
      | nil => exact (Nat.zero_add n).symm
      | cons a l ih => rw [List.foldr_cons, List.foldr_cons, ih, Nat.add_assoc]
    rw [sum, h.dropped]
    have := h.reported
    omega
  · unfold Capture.fresh
    rw [cursor, reported]
    change Fresh.mk (c.text.drop c.text.length) (c.dropped - c.dropped) = _
    rw [List.drop_length, Nat.sub_self]

end

/-- The state of a run: what both streams have kept, and the parts of the texts that were read. -/
structure Followed (cap : Nat) (limit : Option Nat) (stdout stderr : Bytes) (r : BgState × List Bytes)
    (parts : List (Fresh × Fresh)) : Prop where
  texts : r.2 = parts.map fun part => rendered part.1 part.2
  stdout : r.1.stdout.Keeps cap limit stdout ∧ r.1.stdout.Told (parts.map (·.1))
  stderr : r.1.stderr.Keeps cap limit stderr ∧ r.1.stderr.Told (parts.map (·.2))

section
variable {cap : Nat} {limit : Option Nat} {stdout stderr : Bytes} {r : BgState × List Bytes} {parts : List (Fresh × Fresh)}

/-- A read leaves nothing new on either stream. -/
theorem Followed.read (h : Followed cap limit stdout stderr r parts) :
    Followed cap limit stdout stderr (step cap r .read) (parts ++ [(r.1.stdout.fresh, r.1.stderr.fresh)]) ∧
      r.1.readOutput.2.stdout.fresh = ⟨[], 0⟩ ∧ r.1.readOutput.2.stderr.fresh = ⟨[], 0⟩ := by
  obtain ⟨s, texts⟩ := r
  have out : s.stdout.fresh.dropped ≠ 0 → decide (0 < s.stdout.fresh.dropped + s.stderr.fresh.dropped) = true :=
    fun some => decide_eq_true (Nat.add_pos_left (Nat.pos_of_ne_zero some) _)
  have err : s.stderr.fresh.dropped ≠ 0 → decide (0 < s.stdout.fresh.dropped + s.stderr.fresh.dropped) = true :=
    fun some => decide_eq_true (Nat.add_pos_right _ (Nat.pos_of_ne_zero some))
  obtain ⟨told, left⟩ := h.stdout.2.read out
  obtain ⟨told', left'⟩ := h.stderr.2.read err
  refine ⟨⟨?_, ⟨?_, ?_⟩, ?_, ?_⟩, left, left'⟩
  · rw [List.map_append, ← h.texts]
    rfl
  · exact ⟨h.stdout.1.text, h.stdout.1.dropped, h.stdout.1.limit, h.stdout.1.spill⟩
  · rw [List.map_append]
    exact told
  · exact ⟨h.stderr.1.text, h.stderr.1.dropped, h.stderr.1.limit, h.stderr.1.spill⟩
  · rw [List.map_append]
    exact told'

theorem Followed.step (h : Followed cap limit stdout stderr r parts) (e : Event) :
    ∃ parts, Followed cap limit (stdout ++ e.onStdout) (stderr ++ e.onStderr) (step cap r e) parts := by
  cases e with
  | stdout chunk =>
      refine ⟨parts, h.texts, ⟨h.stdout.1.drain chunk, drain_told chunk h.stdout.2⟩, ?_⟩
      rw [Event.onStderr, List.append_nil]
      exact h.stderr
  | stderr chunk =>
      refine ⟨parts, h.texts, ?_, h.stderr.1.drain chunk, drain_told chunk h.stderr.2⟩
      rw [Event.onStdout, List.append_nil]
      exact h.stdout
  | read =>
      rw [Event.onStdout, Event.onStderr, List.append_nil, List.append_nil]
      exact ⟨_, h.read.1⟩

theorem Followed.steps (h : Followed cap limit stdout stderr r parts) (events : List Event) :
    ∃ parts, Followed cap limit (stdout ++ events.flatMap Event.onStdout) (stderr ++ events.flatMap Event.onStderr)
      (events.foldl (Shell.step cap) r) parts := by
  induction events generalizing stdout stderr r parts with
  | nil => exact ⟨parts, by rwa [List.flatMap_nil, List.flatMap_nil, List.append_nil, List.append_nil]⟩
  | cons e events ih =>
      obtain ⟨parts, next⟩ := h.step e
      rw [List.flatMap_cons, List.flatMap_cons, ← List.append_assoc, ← List.append_assoc]
      exact ih next

end

/-- Two chunks across the cap, with a read between them. -/
example : (run 3 (some 4) [.stdout [97, 98], .read, .stdout [99, 100, 101], .read]).1.stdout.spill.map (·.file) =
    some (some [97, 98, 99, 100]) := by decide

end Araya.Shell
