import Araya.Llm.Sse
import Araya.Util.Cut

/-!
The frames that a server writes to its standard output. A frame is a line, cut from a buffer that holds what came behind
the last newline; the size of the whole buffer is looked at before a line is cut, so the rest of a read counts too.
-/

namespace Araya.Mcp
open Llm (Bytes newline carriageReturn)

/-- What one read of the pipe gives. -/
structure Piece where
  bytes : Bytes
  some : bytes ≠ []
  fits : bytes.length ≤ 8192

def pieceOf (b : UInt8) (bytes : Bytes) (fits : (b :: bytes).length ≤ 8192) : Piece :=
  { bytes := b :: bytes, some := List.cons_ne_nil b bytes, fits }

def maxFrame : Nat := 8 * 1024 * 1024

def oversizeFrame : String := "mcp: incoming frame exceeds the size limit"

/-- A line without one trailing carriage return. -/
def stripped (line : Bytes) : Bytes := if line.getLast? = some carriageReturn then line.dropLast else line

/-- `out` is what the pipe still gives before its end. -/
structure StdioChannel where
  out : List Piece
  buffer : Bytes := []

namespace StdioChannel

def stream (c : StdioChannel) : Bytes := c.buffer ++ c.out.flatMap Piece.bytes

def pending (c : StdioChannel) : Nat := c.stream.length + c.out.length

theorem pending_cut {c : StdioChannel} {line rest : Bytes} (found : cut [newline] c.buffer = some (line, rest)) :
    pending { c with buffer := rest } < c.pending := by
  have := cut_length found
  simp only [pending, stream, List.length_append, List.length_singleton] at this ⊢
  omega

theorem pending_take {c : StdioChannel} {piece : Piece} {pieces : List Piece} (next : c.out = piece :: pieces) :
    pending { out := pieces, buffer := c.buffer ++ piece.bytes } < c.pending := by
  simp only [pending, stream, next, List.flatMap_cons, List.length_append, List.length_cons]
  omega

/-- One call: a frame, or none at the end of the input. -/
def read (c : StdioChannel) : Except String (Option Bytes × StdioChannel) :=
  match _ : cut [newline] c.buffer with
  | some (line, rest) =>
    if (stripped line).isEmpty then read { c with buffer := rest }
    else .ok (some (stripped line), { c with buffer := rest })
  | none =>
    match _ : c.out with
    | [] => if c.buffer.isEmpty then .ok (none, c) else .ok (some c.buffer, { c with buffer := [] })
    | piece :: pieces =>
      if maxFrame < (c.buffer ++ piece.bytes).length then .error oversizeFrame
      else read { out := pieces, buffer := c.buffer ++ piece.bytes }
termination_by c.pending
decreasing_by
  · exact pending_cut ‹_›
  · exact pending_take ‹_›

theorem read_pending {c c' : StdioChannel} {frame : Bytes} (got : c.read = .ok (some frame, c')) :
    c'.pending < c.pending := by
  fun_induction read c with
  | case1 c line rest found blank ih => exact (ih got).trans (pending_cut found)
  | case2 c line rest found solid =>
      cases got
      exact pending_cut found
  | case3 c found next blank => cases got
  | case4 c found next solid =>
      cases got
      simp only [pending, stream, next, List.flatMap_nil, List.append_nil, List.length_nil]
      exact List.length_pos_iff.mpr (by simpa using solid)
  | case5 c found piece pieces next large => cases got
  | case6 c found piece pieces next small ih => exact (ih got).trans (pending_take next)

/-- The frames that the reader of a connection gets, and the error it ends with. -/
def received (c : StdioChannel) : List Bytes × Option String :=
  match _ : c.read with
  | .error reason => ([], some reason)
  | .ok (none, _) => ([], none)
  | .ok (some frame, c') => (frame :: (received c').1, (received c').2)
termination_by c.pending
decreasing_by all_goals exact read_pending ‹_›

end StdioChannel

/-! Streams -/

/-- The stream between its newlines; the last one is not ended. -/
def segments (s : Bytes) : List Bytes := s.splitOn newline

def unfinished (s : Bytes) : Bytes := (segments s).getLastD []

/-- What a stream says: its lines, and behind them what no newline ends, each unless it is empty. -/
def frames (s : Bytes) : List Bytes :=
  ((segments s).dropLast.map stripped ++ [unfinished s]).filter (!·.isEmpty)

/-- Some line is too long by itself. -/
def Oversize (s : Bytes) : Prop := ∃ line ∈ segments s, maxFrame < line.length

/-- At some read the line that has begun and the bytes of the read are too long together. -/
def Overrun : Bytes → List Piece → Prop
  | _, [] => False
  | s, piece :: pieces =>
    maxFrame < (unfinished s).length + piece.bytes.length ∨ Overrun (s ++ piece.bytes) pieces

theorem segments_cons (s : Bytes) : ∃ first others, segments s = first :: others :=
  List.exists_cons_of_ne_nil (List.splitOn_ne_nil newline s)

section
variable {line : Bytes} (whole : newline ∉ line)
include whole

theorem segments_open : segments line = [line] := List.splitOn_eq_singleton whole

theorem segments_line (s : Bytes) : segments (line ++ newline :: s) = line :: segments s :=
  List.splitOn_append_cons_self_of_not_mem whole s

theorem unfinished_open : unfinished line = line := by rw [unfinished, segments_open whole]; rfl

theorem frames_open : frames line = [line].filter (!·.isEmpty) := by
  rw [frames, unfinished_open whole, segments_open whole]
  rfl

theorem frames_line (s : Bytes) : frames (line ++ newline :: s) = [stripped line].filter (!·.isEmpty) ++ frames s := by
  obtain ⟨first, others, split⟩ := segments_cons s
  have last : unfinished (line ++ newline :: s) = unfinished s := by
    rw [unfinished, unfinished, segments_line whole, split]
    rfl
  rw [frames, frames, last, segments_line whole, split, List.dropLast_cons_cons, List.map_cons, ← List.filter_append]
  rfl

end

theorem segment_length {s line : Bytes} (member : line ∈ segments s) : line.length ≤ s.length := by
  induction s generalizing line with
  | nil =>
      cases List.mem_singleton.mp member
      exact Nat.le_refl 0
  | cons b s ih =>
      obtain ⟨first, others, split⟩ := segments_cons s
      rw [segments, List.splitOn_cons_eq_if_modifyHead, show s.splitOn newline = _ from split, List.modifyHead_cons,
        ← split] at member
      rw [List.length_cons]
      split at member
      · obtain rfl | later := List.mem_cons.mp member
        · exact Nat.zero_le _
        · exact Nat.le_succ_of_le (ih later)
      · obtain rfl | later := List.mem_cons.mp member
        · exact Nat.succ_le_succ (ih (split ▸ List.mem_cons_self))
        · exact Nat.le_succ_of_le (ih (split ▸ List.mem_cons_of_mem first later))

theorem last_newline (s : Bytes) : newline ∉ s ∨ ∃ front back, s = front ++ newline :: back ∧ newline ∉ back := by
  induction s with
  | nil => exact .inl List.not_mem_nil
  | cons b s ih =>
      obtain whole | ⟨front, back, rfl, off⟩ := ih
      · by_cases here : b = newline
        · exact .inr ⟨[], s, by rw [here]; rfl, whole⟩
        · exact .inl fun member => (List.mem_cons.mp member).elim (fun same => here same.symm) whole
      · exact .inr ⟨b :: front, back, rfl, off⟩

/-- More bytes go to the line that no newline has ended. -/
theorem segments_append (s more : Bytes) :
    segments (s ++ more) = (segments s).dropLast ++ segments (unfinished s ++ more) := by
  obtain whole | ⟨front, back, rfl, off⟩ := last_newline s
  · rw [segments_open whole, unfinished_open whole]
    rfl
  · have split (back : Bytes) : segments (front ++ newline :: back) = segments front ++ segments back :=
      List.splitOn_append_cons_self front back
    rw [List.append_assoc, List.cons_append, unfinished, split, split, segments_open off, List.dropLast_concat,
      List.getLastD_concat]

theorem unfinished_line (line s : Bytes) : unfinished (line ++ newline :: s) = unfinished s := by
  have split : segments (line ++ newline :: s) = segments line ++ segments s := List.splitOn_append_cons_self line s
  obtain ⟨first, others, parts⟩ := segments_cons s
  rw [unfinished, unfinished, split, List.getLastD_eq_getLast?, List.getLastD_eq_getLast?, List.getLast?_append,
    parts, List.getLast?_cons]
  rfl

theorem overrun_line (line s : Bytes) (pieces : List Piece) :
    Overrun (line ++ newline :: s) pieces ↔ Overrun s pieces := by
  induction pieces generalizing s with
  | nil => rfl
  | cons piece pieces ih =>
      rw [Overrun, Overrun, unfinished_line, List.append_assoc, List.cons_append, ih]

/-- A line that is too long is found at some read. -/
theorem overrun_oversize {s : Bytes} {pieces : List Piece} (fine : ¬ Oversize s)
    (long : Oversize (s ++ pieces.flatMap Piece.bytes)) : Overrun s pieces := by
  induction pieces generalizing s with
  | nil => exact absurd (by simpa using long) fine
  | cons piece pieces ih =>
      refine or_iff_not_imp_left.mpr fun small => ih ?_ (by simpa using long)
      rintro ⟨line, member, large⟩
      rw [segments_append] at member
      obtain old | new := List.mem_append.mp member
      · exact fine ⟨line, List.mem_of_mem_dropLast old, large⟩
      · have := segment_length new
        rw [List.length_append] at this
        omega

theorem cut_newline {s line rest : Bytes} (found : cut [newline] s = some (line, rest)) :
    s = line ++ newline :: rest ∧ newline ∉ line :=
  ⟨cut_eq found, fun member => cut_before (List.cons_ne_nil _ _) found ((List.singleton_infix_iff _ _).mpr member)⟩

theorem cut_open {s : Bytes} (missing : cut [newline] s = none) : newline ∉ s :=
  fun member => (cut_none (List.cons_ne_nil _ _)).mp missing ((List.singleton_infix_iff _ _).mpr member)

namespace StdioChannel

theorem read_error {c : StdioChannel} {reason : String} (failed : c.read = .error reason) :
    reason = oversizeFrame ∧ Overrun c.buffer c.out := by
  fun_induction read c with
  | case1 c line rest found blank ih =>
      obtain ⟨whole, off⟩ := cut_newline found
      rw [whole, overrun_line]
      exact ih failed
  | case2 c line rest found solid => cases failed
  | case3 c missing next blank => cases failed
  | case4 c missing next solid => cases failed
  | case5 c missing piece pieces next large =>
      cases failed
      rw [next, Overrun, unfinished_open (cut_open missing), ← List.length_append]
      exact ⟨rfl, .inl large⟩
  | case6 c missing piece pieces next small ih =>
      rw [next, Overrun]
      exact (ih failed).imp_right .inr

theorem read_end {c c' : StdioChannel} (ended : c.read = .ok (none, c')) :
    ¬ Overrun c.buffer c.out ∧ frames c.stream = [] := by
  fun_induction read c with
  | case1 c line rest found blank ih =>
      obtain ⟨whole, off⟩ := cut_newline found
      obtain ⟨fits, nothing⟩ := ih ended
      rw [whole, overrun_line, stream, whole, List.append_assoc, List.cons_append, frames_line off]
      exact ⟨fits, List.append_eq_nil_iff.mpr ⟨by simpa using blank, nothing⟩⟩
  | case2 c line rest found solid => cases ended
  | case3 c missing next blank =>
      rw [stream, next, List.isEmpty_iff.mp blank]
      exact ⟨id, rfl⟩
  | case4 c missing next solid => cases ended
  | case5 c missing piece pieces next large => cases ended
  | case6 c missing piece pieces next small ih =>
      obtain ⟨fits, nothing⟩ := ih ended
      rw [next, Overrun, unfinished_open (cut_open missing), ← List.length_append, not_or]
      refine ⟨⟨small, fits⟩, ?_⟩
      rw [stream, next, List.flatMap_cons, ← List.append_assoc]
      exact nothing

theorem read_frame {c c' : StdioChannel} {frame : Bytes} (got : c.read = .ok (some frame, c')) :
    (Overrun c.buffer c.out ↔ Overrun c'.buffer c'.out) ∧ frames c.stream = frame :: frames c'.stream := by
  fun_induction read c with
  | case1 c line rest found blank ih =>
      obtain ⟨whole, off⟩ := cut_newline found
      obtain ⟨same, more⟩ := ih got
      rw [whole, overrun_line, stream, whole, List.append_assoc, List.cons_append, frames_line off]
      refine ⟨same, ?_⟩
      rw [List.filter_singleton, blank]
      exact more
  | case2 c line rest found solid =>
      obtain ⟨whole, off⟩ := cut_newline found
      cases got
      rw [whole, overrun_line, stream, whole, List.append_assoc, List.cons_append, frames_line off,
        List.filter_singleton, Bool.eq_false_iff.mpr solid]
      exact ⟨Iff.rfl, rfl⟩
  | case3 c missing next blank => cases got
  | case4 c missing next solid =>
      cases got
      rw [stream, stream, next, List.flatMap_nil, List.append_nil, frames_open (cut_open missing), List.filter_singleton,
        Bool.eq_false_iff.mpr solid]
      exact ⟨Iff.rfl, rfl⟩
  | case5 c missing piece pieces next large => cases got
  | case6 c missing piece pieces next small ih =>
      obtain ⟨same, more⟩ := ih got
      rw [next, Overrun, unfinished_open (cut_open missing), ← List.length_append]
      refine ⟨(or_iff_right small).trans same, ?_⟩
      rw [stream, next, List.flatMap_cons, ← List.append_assoc]
      exact more

theorem received_spec (c : StdioChannel) : (c.received.2 = some oversizeFrame ↔ Overrun c.buffer c.out) ∧
    (c.received.2 = none → c.received.1 = frames c.stream) := by
  fun_induction received c with
  | case1 c reason failed =>
      obtain ⟨rfl, large⟩ := read_error failed
      exact ⟨iff_of_true rfl large, fun fine => (Option.some_ne_none _ fine).elim⟩
  | case2 c ended =>
      rename_i got
      obtain ⟨fits, nothing⟩ := read_end got
      exact ⟨iff_of_false (Option.some_ne_none _ ·.symm) fits, fun _ => nothing.symm⟩
  | case3 c frame c' got ih =>
      obtain ⟨same, more⟩ := read_frame got
      refine ⟨ih.1.trans same.symm, fun fine => ?_⟩
      rw [more, ih.2 fine]

end StdioChannel

/-- The frames are those of the stream and the error is that of a line exactly when some line is too long by itself, or at
no read the line that has begun and the bytes of the read are too long together. -/
theorem frames_exact_iff (pieces : List Piece) :
    ((StdioChannel.received { out := pieces }).2 = some oversizeFrame ↔ Oversize (pieces.flatMap Piece.bytes)) ∧
        ((StdioChannel.received { out := pieces }).2 = none →
          (StdioChannel.received { out := pieces }).1 = frames (pieces.flatMap Piece.bytes)) ↔
      (Overrun [] pieces → Oversize (pieces.flatMap Piece.bytes)) := by
  have fine : ¬ Oversize [] := by
    rintro ⟨line, member, large⟩
    exact absurd (segment_length member) (by rw [List.length_nil]; omega)
  obtain ⟨raised, read⟩ := StdioChannel.received_spec { out := pieces }
  constructor
  · rintro ⟨exact_, -⟩ large
    exact exact_.mp (raised.mpr large)
  · intro long
    exact ⟨raised.trans ⟨long, overrun_oversize fine⟩, read⟩

theorem overrun_at {s : Bytes} {before : List Piece} {piece : Piece} (after : List Piece)
    (large : maxFrame < (unfinished (s ++ before.flatMap Piece.bytes)).length + piece.bytes.length) :
    Overrun s (before ++ piece :: after) := by
  induction before generalizing s with
  | nil => exact .inl (by simpa using large)
  | cons first before ih => exact .inr (ih (by simpa using large))

def letters (count : Nat) : Bytes := List.replicate count 97

theorem letters_line (count : Nat) : newline ∉ letters count :=
  fun member => absurd (List.eq_of_mem_replicate member) (by decide)

theorem letters_length (count : Nat) : (letters count).length = count := List.length_replicate

theorem letters_add (m n : Nat) : letters (m + n) = letters m ++ letters n := List.replicate_append_replicate.symm

theorem letters_mul (m n : Nat) : letters (m * n) = (List.replicate m (letters n)).flatten :=
  List.flatten_replicate_replicate.symm

theorem letters_succ (n : Nat) : letters (n + 1) = 97 :: letters n := rfl

theorem single_fits : (97 :: letters 0).length ≤ 8192 := by decide

theorem page_fits : (97 :: letters 8191).length ≤ 8192 := by rw [List.length_cons, letters_length]

theorem end_fits : (97 :: (letters 7999 ++ newline :: letters 191)).length ≤ 8192 := by
  rw [List.length_cons, List.length_append, List.length_cons, letters_length, letters_length]

def fullPages : List Piece :=
  pieceOf 97 (letters 0) single_fits :: List.replicate 1023 (pieceOf 97 (letters 8191) page_fits)

theorem fullPages_bytes : fullPages.flatMap Piece.bytes = letters (1 + 1023 * 8192) := by
  rw [fullPages, List.flatMap_cons, List.flatMap_replicate, letters_add, letters_mul, letters_succ 8191, pieceOf, pieceOf]
  exact congrArg (· ++ _) (letters_succ 0).symm

def lastPiece : Piece := pieceOf 97 (letters 7999 ++ newline :: letters 191) end_fits

theorem lastPiece_bytes : lastPiece.bytes = letters 8000 ++ newline :: letters 191 := by
  rw [lastPiece, pieceOf, letters_succ 7999, List.cons_append]

theorem burst_overrun : Overrun [] (fullPages ++ [lastPiece]) := by
  refine overrun_at [] ?_
  rw [List.nil_append, fullPages_bytes, unfinished_open (letters_line _), letters_length, lastPiece_bytes,
    List.length_append, List.length_cons, letters_length, letters_length]
  decide

theorem burst_stream : (fullPages ++ [lastPiece]).flatMap Piece.bytes =
    letters (1 + 1023 * 8192 + 8000) ++ newline :: letters 191 := by
  rw [List.flatMap_append, fullPages_bytes, List.flatMap_singleton, lastPiece_bytes,
    letters_add (1 + 1023 * 8192) 8000, List.append_assoc]

/-- A line of 8388417 bytes, of which the last read brings 8000, its newline, and 191 more. -/
theorem burst_oversize : ¬ ((StdioChannel.received { out := fullPages ++ [lastPiece] }).2 = some oversizeFrame ↔
    Oversize ((fullPages ++ [lastPiece]).flatMap Piece.bytes)) := by
  intro same
  have raised := (StdioChannel.received_spec { out := fullPages ++ [lastPiece] }).1.mpr burst_overrun
  obtain ⟨line, member, large⟩ := same.mp raised
  rw [burst_stream, segments_line (letters_line _), segments_open (letters_line _)] at member
  have short : line.length ≤ 8388417 := by
    obtain rfl | last := List.mem_cons.mp member
    · exact (letters_length _).le
    · rw [List.mem_singleton.mp last, letters_length]
      decide
  exact absurd (large.trans_le short) (by decide)

end Araya.Mcp
