import Araya.Llm.Sse
import Araya.Session.Validate
import Araya.Util.Cut
import Araya.Util.Strings
import Mathlib.Data.Nat.Digits.Defs

/-!
The framing of the base protocol: a header with the length of the body, a blank line, and the body. The bytes come in
chunks of any size. What one chunk completes is handed on when all of the chunk has been looked at, so a malformed frame
takes the messages before it in the same chunk along.
-/

namespace Araya.Lsp
open Llm (Bytes ascii colon)
open Sessions (need)

def maxHeaderBytes : Nat := 65536

def lineEnd : Bytes := [13, 10]
def headerEnd : Bytes := [13, 10, 13, 10]

/-- What the framing uses of the JSON library. -/
structure BodyCodec where
  serialize : Json → Bytes
  parse : Bytes → Option Json

def encodeMessage (codec : BodyCodec) (message : Json) : Bytes :=
  ascii "Content-Length: " ++ ascii (toString (codec.serialize message).length) ++ headerEnd ++ codec.serialize message

/-! Headers -/

def headerLines (header : Bytes) : List Bytes :=
  match _ : cut lineEnd header with
  | none => [header]
  | some (line, rest) => line :: headerLines rest
termination_by header.length
decreasing_by
  have := cut_length ‹_›
  simp only [lineEnd, List.length_cons] at this
  omega

def isBlank (b : UInt8) : Bool := b == 32 || b == 9

/-- `std::tolower` of the C locale. -/
def lowered (b : UInt8) : UInt8 := if 65 ≤ b ∧ b ≤ 90 then b + 32 else b

/-- The value of a line that has the name. -/
def lengthField (line : Bytes) : Option Bytes :=
  match cut [colon] line with
  | none => none
  | some (name, value) =>
    if (name.rdropWhile isBlank).map lowered = ascii "content-length" then some (value.dropWhile isBlank) else none

def lengthValue (header : Bytes) : Option Bytes := (headerLines header).findSome? lengthField

def digit (b : UInt8) : Option Nat := if 48 ≤ b ∧ b ≤ 57 then some (b.toNat - 48) else none

/-- The digits as a `size_t`. -/
def parseDigits (value : Bytes) : Option Nat :=
  value.foldlM (fun parsed b => (digit b).map fun k => (parsed * 10 + k) % 2 ^ 64) 0

def parseContentLength (header : Bytes) : Except String Nat := do
  let value ← need (lengthValue header) "LSP header block missing Content-Length"
  need (parseDigits value) "invalid Content-Length header"

/-- The number that the digits denote. -/
def denoted (value : Bytes) : Option Nat := value.foldlM (fun parsed b => (digit b).map fun k => parsed * 10 + k) 0

def declared (header : Bytes) : Option Nat := (lengthValue header).bind denoted

/-! The decoder -/

/-- The limit leaves room for a header, so the end of a message is not reduced to 64 bits. -/
structure MessageDecoder where
  codec : BodyCodec
  maxMessageBytes : Nat
  room : maxMessageBytes + maxHeaderBytes + 4 < 2 ^ 64

/-- A message with the header and the body it comes from. -/
structure Delivery where
  header : Bytes
  body : Bytes
  message : Json

namespace MessageDecoder
variable (d : MessageDecoder)

/-- The first message of the buffer, and what is left. -/
def next (buffer : Bytes) : Except String (Option (Delivery × Bytes)) :=
  match cut headerEnd buffer with
  | none =>
    if maxHeaderBytes < buffer.length then .error "LSP header exceeded the size limit without a terminator" else .ok none
  | some (header, rest) =>
    if maxHeaderBytes < header.length then .error "LSP header exceeded the size limit"
    else
      match parseContentLength header with
      | .error reason => .error reason
      | .ok length =>
        if d.maxMessageBytes < length then .error "LSP message exceeds the configured maxMessageBytes"
        else if rest.length < length then .ok none
        else
          match d.codec.parse (rest.take length) with
          | none => .error "LSP message body was not valid JSON"
          | some message => .ok (some ({ header, body := rest.take length, message }, rest.drop length))

/-- Bytes that are refused before a message is read from them, whatever comes behind. -/
inductive Refused : Bytes → Prop
  | endless {s : Bytes} (missing : cut headerEnd s = none) (large : maxHeaderBytes < s.length) : Refused s
  | long {s header rest : Bytes} (found : cut headerEnd s = some (header, rest)) (large : maxHeaderBytes < header.length) :
    Refused s
  | malformed {s header rest : Bytes} {reason : String} (found : cut headerEnd s = some (header, rest))
    (failed : parseContentLength header = .error reason) : Refused s
  | large {s header rest : Bytes} {length : Nat} (found : cut headerEnd s = some (header, rest))
    (parsed : parseContentLength header = .ok length) (large : d.maxMessageBytes < length) : Refused s
  | unreadable {s header rest : Bytes} {length : Nat} (found : cut headerEnd s = some (header, rest))
    (parsed : parseContentLength header = .ok length) (whole : length ≤ rest.length)
    (failed : d.codec.parse (rest.take length) = none) : Refused s

/-- Bytes that may become a message. -/
inductive Unfinished : Bytes → Prop
  | header {s : Bytes} (missing : cut headerEnd s = none) (small : s.length ≤ maxHeaderBytes) : Unfinished s
  | body {s header rest : Bytes} {length : Nat} (found : cut headerEnd s = some (header, rest))
    (small : header.length ≤ maxHeaderBytes) (parsed : parseContentLength header = .ok length)
    (fits : length ≤ d.maxMessageBytes) (short : rest.length < length) : Unfinished s

/-- A delivery is what its bytes say. -/
structure Framed (m : Delivery) : Prop where
  found : cut headerEnd (m.header ++ (headerEnd ++ m.body)) = some (m.header, m.body)
  small : m.header.length ≤ maxHeaderBytes
  parsed : parseContentLength m.header = .ok m.body.length
  fits : m.body.length ≤ d.maxMessageBytes
  readable : d.codec.parse m.body = some m.message

def frame (m : Delivery) : Bytes := m.header ++ (headerEnd ++ m.body)

theorem headerEnd_solid : headerEnd ≠ [] := List.cons_ne_nil _ _

variable {d} {buffer rest : Bytes} {m : Delivery}

theorem next_cases (buffer : Bytes) : (∃ reason, d.next buffer = .error reason ∧ d.Refused buffer) ∨
    (d.next buffer = .ok none ∧ d.Unfinished buffer) ∨
      ∃ m rest, d.next buffer = .ok (some (m, rest)) ∧ d.Framed m ∧ buffer = frame m ++ rest := by
  cases found : cut headerEnd buffer with
  | none =>
      by_cases large : maxHeaderBytes < buffer.length
      · exact .inl ⟨_, by rw [next, found]; exact if_pos large, .endless found large⟩
      · exact .inr (.inl ⟨by rw [next, found]; exact if_neg large, .header found (Nat.le_of_not_lt large)⟩)
  | some halves =>
      obtain ⟨header, rest⟩ := halves
      by_cases long : maxHeaderBytes < header.length
      · exact .inl ⟨_, by rw [next, found]; exact if_pos long, .long found long⟩
      · cases parsed : parseContentLength header with
        | error reason =>
            exact .inl ⟨reason, by simp only [next, found, if_neg long, parsed], .malformed found parsed⟩
        | ok length =>
            by_cases large : d.maxMessageBytes < length
            · exact .inl ⟨_, by simp only [next, found, if_neg long, parsed, if_pos large]; rfl,
                .large found parsed large⟩
            · by_cases short : rest.length < length
              · refine .inr (.inl ⟨by simp only [next, found, if_neg long, parsed, if_neg large, if_pos short], ?_⟩)
                exact .body found (Nat.le_of_not_lt long) parsed (Nat.le_of_not_lt large) short
              · have whole := Nat.le_of_not_lt short
                cases read : d.codec.parse (rest.take length) with
                | none =>
                    refine .inl ⟨_, by simp only [next, found, if_neg long, parsed, if_neg large, if_neg short, read]; rfl, ?_⟩
                    exact .unreadable found parsed whole read
                | some message =>
                    refine .inr (.inr ⟨⟨header, rest.take length, message⟩, rest.drop length, ?_, ?_, ?_⟩)
                    · simp only [next, found, if_neg long, parsed, if_neg large, if_neg short, read]
                    · have size : (rest.take length).length = length := List.length_take_of_le whole
                      exact ⟨cut_other headerEnd_solid found _, Nat.le_of_not_lt long, by rw [parsed, size],
                        size.symm ▸ Nat.le_of_not_lt large, read⟩
                    · rw [frame, List.append_assoc, List.append_assoc, List.take_append_drop, cut_eq found]

theorem next_refused (refused : d.Refused buffer) : ∃ reason, d.next buffer = .error reason := by
  cases refused with
  | endless missing large => exact ⟨_, by rw [next, missing]; exact if_pos large⟩
  | long found large => exact ⟨_, by rw [next, found]; exact if_pos large⟩
  | malformed found failed =>
      rw [next, found]
      dsimp only
      split
      · exact ⟨_, rfl⟩
      · exact ⟨_, by rw [failed]⟩
  | large found parsed large =>
      rw [next, found]
      dsimp only
      split
      · exact ⟨_, rfl⟩
      · exact ⟨_, by rw [parsed]; exact if_pos large⟩
  | unreadable found parsed whole failed =>
      rw [next, found]
      dsimp only
      split
      · exact ⟨_, rfl⟩
      · rw [parsed]
        dsimp only
        split
        · exact ⟨_, rfl⟩
        · rw [if_neg (Nat.not_lt.mpr whole), failed]
          exact ⟨_, rfl⟩

theorem next_unfinished (unfinished : d.Unfinished buffer) : d.next buffer = .ok none := by
  cases unfinished with
  | header missing small => rw [next, missing]; exact if_neg (Nat.not_lt.mpr small)
  | body found small parsed fits short =>
      simp only [next, found, if_neg (Nat.not_lt.mpr small), parsed, if_neg (Nat.not_lt.mpr fits), if_pos short]

theorem next_frame (framed : d.Framed m) (more : Bytes) : d.next (frame m ++ more) = .ok (some (m, more)) := by
  have found := cut_append framed.found more
  have whole : ¬ (m.body ++ more).length < m.body.length := Nat.not_lt.mpr (List.length_append ▸ Nat.le_add_right ..)
  rw [next, frame, found]
  simp only [if_neg (Nat.not_lt.mpr framed.small), framed.parsed, if_neg (Nat.not_lt.mpr framed.fits), if_neg whole,
    List.take_left, framed.readable, List.drop_left]

/-- Up to its last byte a frame may become one, if its header still fits with most of the blank line behind it. -/
theorem unfinished_part {header body part : Bytes} {length : Nat} (found : cut headerEnd buffer = some (header, body))
    (small : header.length + 3 ≤ maxHeaderBytes) (parsed : parseContentLength header = .ok length)
    (fits : length ≤ d.maxMessageBytes) (part_of : part <+: buffer) (short : part.length < header.length + 4 + length) :
    d.Unfinished part := by
  by_cases early : part.length < header.length + 4
  · exact .header (cut_short found part_of early) (by omega)
  · obtain ⟨rest, cut_, -⟩ := cut_part headerEnd_solid found part_of (Nat.le_of_not_lt early)
    have := cut_length cut_
    simp only [headerEnd, List.length_cons, List.length_nil] at this
    exact .body cut_ (by omega) parsed fits (by omega)

theorem unfinished_open {part : Bytes} (missing : cut headerEnd buffer = none) (small : buffer.length ≤ maxHeaderBytes)
    (part_of : part <+: buffer) : d.Unfinished part := by
  have absent := (cut_none headerEnd_solid).mp missing
  exact .header ((cut_none headerEnd_solid).mpr fun inside => absent (inside.trans part_of.isInfix))
    (part_of.length_le.trans small)

theorem next_read (read : d.next buffer = .ok (some (m, rest))) : d.Framed m ∧ buffer = frame m ++ rest := by
  obtain ⟨reason, failed, -⟩ | ⟨waits, -⟩ | ⟨m', rest', read', framed, whole⟩ := d.next_cases buffer
  · cases read.symm.trans failed
  · cases read.symm.trans waits
  · cases read.symm.trans read'
    exact ⟨framed, whole⟩

/-- No message is read from a part of bytes that are refused. -/
theorem refused_part (refused : d.Refused buffer) {part : Bytes} (part_of : part <+: buffer) :
    d.next part ≠ .ok (some (m, rest)) := by
  intro read
  obtain ⟨framed, rfl⟩ := next_read read
  obtain ⟨more, rfl⟩ := part_of
  obtain ⟨reason, failed⟩ := next_refused refused
  rw [List.append_assoc, next_frame framed] at failed
  cases failed

theorem next_length (read : d.next buffer = .ok (some (m, rest))) : rest.length < buffer.length := by
  obtain ⟨-, rfl⟩ := next_read read
  simp only [frame, headerEnd, List.length_append, List.length_cons]
  omega

variable (d)

/-- The loop of `push`. -/
def drain (buffer : Bytes) : Except String (List Delivery × Bytes) :=
  match _ : d.next buffer with
  | .error reason => .error reason
  | .ok none => .ok ([], buffer)
  | .ok (some (m, rest)) => (drain rest).map (Prod.map (m :: ·) id)
termination_by buffer.length
decreasing_by exact next_length ‹_›

def push (buffer chunk : Bytes) : Except String (List Delivery × Bytes) := d.drain (buffer ++ chunk)

/-- What is delivered of the chunks up to an error, and the error. -/
def feed (buffer : Bytes) : List Bytes → List Delivery × Option String
  | [] => ([], none)
  | chunk :: chunks =>
    match d.push buffer chunk with
    | .error reason => ([], some reason)
    | .ok (ms, left) => (ms ++ (feed left chunks).1, (feed left chunks).2)

/-- The stream is delivered the same in all chunks, and every body as long as its header says. -/
def Exact (s : Bytes) : Prop :=
  (∀ chunks chunks' : List Bytes, chunks.flatten = s → chunks'.flatten = s →
    (d.feed [] chunks).1.map Delivery.message = (d.feed [] chunks').1.map Delivery.message ∧
      (d.feed [] chunks).2.isSome = (d.feed [] chunks').2.isSome) ∧
    ∀ chunks : List Bytes, chunks.flatten = s → ∀ m ∈ (d.feed [] chunks).1, declared m.header = some m.body.length

/-- Frames one after the other, each with the length its header denotes, and the beginning of another; every header is at
least three bytes shorter than the limit. -/
inductive Clean : Bytes → List Delivery → Prop
  | header {s : Bytes} (missing : cut headerEnd s = none) (small : s.length ≤ maxHeaderBytes) : Clean s []
  | body {s header rest : Bytes} {length : Nat} (found : cut headerEnd s = some (header, rest))
    (small : header.length + 3 ≤ maxHeaderBytes) (parsed : parseContentLength header = .ok length)
    (fits : length ≤ d.maxMessageBytes) (short : rest.length < length) : Clean s []
  | frame {m : Delivery} {rest : Bytes} {ms : List Delivery} (framed : d.Framed m)
    (small : m.header.length + 3 ≤ maxHeaderBytes) (counted : declared m.header = some m.body.length)
    (later : Clean rest ms) : Clean (frame m ++ rest) (m :: ms)

variable {d} {ms : List Delivery} {chunks : List Bytes}

theorem drain_error {reason : String} (failed : d.next buffer = .error reason) : d.drain buffer = .error reason := by
  unfold drain
  split
  · rename_i other
    cases failed.symm.trans other
    rfl
  · rename_i other
    cases failed.symm.trans other
  · rename_i other
    cases failed.symm.trans other

theorem drain_wait (waits : d.next buffer = .ok none) : d.drain buffer = .ok ([], buffer) := by
  unfold drain
  split
  · rename_i other
    cases waits.symm.trans other
  · rfl
  · rename_i other
    cases waits.symm.trans other

theorem drain_frame (framed : d.Framed m) (more : Bytes) :
    d.drain (frame m ++ more) = (d.drain more).map (Prod.map (m :: ·) id) := by
  have read := next_frame framed more
  rw [drain]
  split
  · rename_i other
    cases read.symm.trans other
  · rename_i other
    cases read.symm.trans other
  · rename_i other
    cases read.symm.trans other
    rfl

theorem frame_length (m : Delivery) : (frame m).length = m.header.length + 4 + m.body.length := by
  simp only [frame, headerEnd, List.length_append, List.length_cons, List.length_nil]
  omega

/-- A part of a clean stream is drained to what has not ended yet. -/
theorem Clean.drain_part {part more : Bytes} (clean : d.Clean (part ++ more) ms) :
    ∃ front back left, d.drain part = .ok (front, left) ∧ d.next left = .ok none ∧ d.Clean (left ++ more) back ∧
      ms = front ++ back := by
  generalize whole : part ++ more = s at clean
  induction clean generalizing part with
  | header missing small =>
      have waits := next_unfinished (d := d) (unfinished_open missing small ⟨more, whole⟩)
      exact ⟨[], [], part, drain_wait waits, waits, whole ▸ .header missing small, rfl⟩
  | @body s header rest length found small parsed fits short =>
      have shorter : part.length < header.length + 4 + length := by
        have := congrArg List.length whole
        rw [List.length_append, cut_length found, headerEnd, List.length_cons] at this
        simp only [List.length_cons, List.length_nil] at this
        omega
      have waits := next_unfinished (d := d) (unfinished_part found small parsed fits ⟨more, whole⟩ shorter)
      exact ⟨[], [], part, drain_wait waits, waits, whole ▸ .body found small parsed fits short, rfl⟩
  | @frame m rest ms framed small counted later ih =>
      have part_of : part <+: MessageDecoder.frame m ++ rest := ⟨more, whole⟩
      by_cases full : (MessageDecoder.frame m).length ≤ part.length
      · obtain ⟨inner, rfl⟩ := List.prefix_of_prefix_length_le (List.prefix_append _ rest) part_of full
        rw [List.append_assoc] at whole
        obtain ⟨front, back, left, drained, waits, clean, rfl⟩ := ih (List.append_cancel_left whole)
        exact ⟨m :: front, back, left, by rw [drain_frame framed, drained]; rfl, waits, clean, rfl⟩
      · have found := cut_append framed.found rest
        rw [frame_length] at full
        have waits := next_unfinished (d := d) (unfinished_part found small framed.parsed framed.fits part_of (by omega))
        exact ⟨[], _, part, drain_wait waits, waits, whole ▸ .frame framed small counted later, rfl⟩

theorem Clean.feed (clean : d.Clean (buffer ++ chunks.flatten) ms) (waits : d.next buffer = .ok none) :
    d.feed buffer chunks = (ms, none) := by
  induction chunks generalizing buffer ms with
  | nil =>
      rw [List.flatten_nil, List.append_nil] at clean
      cases clean with
      | header missing small => rfl
      | body found small parsed fits short => rfl
      | frame framed small counted later =>
          rw [next_frame framed] at waits
          cases waits
  | cons chunk chunks ih =>
      rw [List.flatten_cons, ← List.append_assoc] at clean
      obtain ⟨front, back, left, drained, waits, later, rfl⟩ := clean.drain_part
      rw [MessageDecoder.feed, push, drained]
      dsimp only
      rw [ih later waits]

theorem Clean.counted (clean : d.Clean buffer ms) (member : m ∈ ms) : declared m.header = some m.body.length := by
  induction clean with
  | header missing small => cases member
  | body found small parsed fits short => cases member
  | frame framed small counted later ih =>
      obtain rfl | other := List.mem_cons.mp member
      · exact counted
      · exact ih other

theorem next_nil : d.next [] = .ok none := next_unfinished (.header rfl (Nat.zero_le _))

theorem Clean.exact (clean : d.Clean buffer ms) : d.Exact buffer := by
  have same (chunks : List Bytes) (whole : chunks.flatten = buffer) : d.feed [] chunks = (ms, none) :=
    Clean.feed (whole ▸ clean) next_nil
  constructor
  · intro chunks chunks' whole whole'
    rw [same chunks whole, same chunks' whole']
    exact ⟨rfl, rfl⟩
  · intro chunks whole m member
    rw [same chunks whole] at member
    exact clean.counted member

/-- Nothing is delivered of bytes that are refused. -/
theorem Refused.feed (refused : d.Refused (buffer ++ chunks.flatten)) (waits : d.next buffer = .ok none) :
    ∃ reason, d.feed buffer chunks = ([], some reason) := by
  induction chunks generalizing buffer with
  | nil =>
      rw [List.flatten_nil, List.append_nil] at refused
      obtain ⟨reason, failed⟩ := next_refused refused
      cases failed.symm.trans waits
  | cons chunk chunks ih =>
      rw [List.flatten_cons, ← List.append_assoc] at refused
      rw [MessageDecoder.feed, push]
      obtain ⟨reason, failed, -⟩ | ⟨waits, -⟩ | ⟨m, rest, read, -⟩ := d.next_cases (buffer ++ chunk)
      · rw [drain_error failed]
        exact ⟨reason, rfl⟩
      · rw [drain_wait waits]
        obtain ⟨reason, fed⟩ := ih refused waits
        exact ⟨reason, by dsimp only; rw [fed]; rfl⟩
      · exact absurd read (refused_part refused (List.prefix_append _ _))

theorem Refused.exact (refused : d.Refused buffer) : d.Exact buffer := by
  have same (chunks : List Bytes) (whole : chunks.flatten = buffer) : ∃ reason, d.feed [] chunks = ([], some reason) :=
    Refused.feed (whole ▸ refused) next_nil
  constructor
  · intro chunks chunks' whole whole'
    obtain ⟨reason, fed⟩ := same chunks whole
    obtain ⟨reason', fed'⟩ := same chunks' whole'
    rw [fed, fed']
    exact ⟨rfl, rfl⟩
  · intro chunks whole m member
    obtain ⟨reason, fed⟩ := same chunks whole
    rw [fed] at member
    cases member

/-- A header too close to the limit is refused while its blank line is still coming. -/
theorem refused_take {header : Bytes} (found : cut headerEnd buffer = some (header, rest))
    (large : maxHeaderBytes < header.length + 3) : d.Refused (buffer.take (header.length + 3)) := by
  have whole := cut_length found
  have size : (buffer.take (header.length + 3)).length = header.length + 3 := List.length_take_of_le (by
    simp only [headerEnd, List.length_cons, List.length_nil] at whole
    omega)
  refine .endless (cut_short found (List.take_prefix _ _) ?_) (by rwa [size])
  rw [size]
  exact Nat.lt_succ_self _

section
variable {front : Bytes} (before : ∀ more, d.drain (front ++ more) = (d.drain more).map (Prod.map (ms ++ ·) id))
include before

theorem feed_refused (refused : d.Refused buffer) (chunks : List Bytes) :
    ∃ reason, d.feed [] ((front ++ buffer) :: chunks) = ([], some reason) := by
  obtain ⟨reason, failed⟩ := next_refused refused
  rw [MessageDecoder.feed, push, List.nil_append, before, drain_error failed]
  exact ⟨reason, rfl⟩

theorem feed_waits (waits : d.next buffer = .ok none) (chunks : List Bytes) :
    d.feed [] ((front ++ buffer) :: chunks) = (ms ++ (d.feed buffer chunks).1, (d.feed buffer chunks).2) := by
  rw [MessageDecoder.feed, push, List.nil_append, before, drain_wait waits]
  simp only [Except.map, Prod.map, List.append_nil, id]

theorem drain_behind (framed : d.Framed m) (more : Bytes) :
    d.drain (front ++ frame m ++ more) = (d.drain more).map (Prod.map (ms ++ [m] ++ ·) id) := by
  rw [List.append_assoc, before, drain_frame framed]
  cases d.drain more with
  | error reason => rfl
  | ok drained => simp only [Except.map, Prod.map, List.append_assoc, List.singleton_append, id]

end

/-- Bytes behind frames that are delivered: if the chunks do not matter, they are clean. -/
theorem Exact.clean {front : Bytes} (exact_ : d.Exact (front ++ buffer))
    (before : ∀ more, d.drain (front ++ more) = (d.drain more).map (Prod.map (ms ++ ·) id))
    (fine : ms = [] → ¬ d.Refused buffer) : ∃ later, d.Clean buffer later := by
  induction size : buffer.length using Nat.strong_induction_on generalizing buffer front ms with
  | h n ih =>
      have whole : [front ++ buffer].flatten = front ++ buffer := List.flatten_singleton
      have split (i : Nat) : [front ++ buffer.take i, buffer.drop i].flatten = front ++ buffer := by
        rw [List.flatten_cons, List.flatten_singleton, List.append_assoc, List.take_append_drop]
      obtain ⟨reason, failed, refused⟩ | ⟨waits, unfinished⟩ | ⟨m, rest, read, framed, parts⟩ := d.next_cases buffer
      · obtain ⟨reason, lost⟩ := feed_refused before refused []
        have kept := feed_waits before next_nil [buffer]
        have same := (exact_.1 _ [front ++ [], buffer] whole (by simp)).1
        rw [lost, kept, List.map_append] at same
        exact absurd refused (fine (List.map_eq_nil_iff.mp (List.append_eq_nil_iff.mp same.symm).1))
      · cases unfinished with
        | header missing small => exact ⟨[], .header missing small⟩
        | @body header rest length found small parsed fits short =>
            by_cases close : header.length + 3 ≤ maxHeaderBytes
            · exact ⟨[], .body found close parsed fits short⟩
            · obtain ⟨reason, lost⟩ := feed_refused before (refused_take found (Nat.lt_of_not_le close))
                [buffer.drop (header.length + 3)]
              have kept := feed_waits before waits []
              have same := (exact_.1 _ _ whole (split (header.length + 3))).2
              rw [lost, kept] at same
              cases same
      · subst parts
        have behind := drain_behind before framed
        have kept := feed_waits behind next_nil [rest]
        rw [List.append_nil] at kept
        have parts : [front ++ frame m, rest].flatten = front ++ (frame m ++ rest) := by
          rw [List.flatten_cons, List.flatten_singleton, List.append_assoc]
        have counted : declared m.header = some m.body.length := exact_.2 _ parts m (by rw [kept]; simp)
        have small : m.header.length + 3 ≤ maxHeaderBytes := by
          by_contra close
          have found : cut headerEnd (frame m ++ rest) = some (m.header, m.body ++ rest) := cut_append framed.found rest
          obtain ⟨reason, lost⟩ := feed_refused before (refused_take found (Nat.lt_of_not_le close))
            [(frame m ++ rest).drop (m.header.length + 3)]
          have same := (exact_.1 _ _ parts (split (m.header.length + 3))).1
          rw [kept, lost] at same
          simp at same
        obtain ⟨later, clean⟩ := ih rest.length (size ▸ next_length read) (by rwa [List.append_assoc]) behind
          (fun nothing => absurd nothing (by simp)) rfl
        exact ⟨m :: later, .frame framed small counted clean⟩

theorem exact_iff (s : Bytes) : d.Exact s ↔ d.Refused s ∨ ∃ ms, d.Clean s ms := by
  constructor
  · intro exact_
    refine or_iff_not_imp_left.mpr fun fine => ?_
    have whole : d.Exact ([] ++ s) := exact_
    have before (more : Bytes) : d.drain ([] ++ more) = (d.drain more).map (Prod.map (([] : List Delivery) ++ ·) id) := by
      rw [List.nil_append]
      cases d.drain more <;> rfl
    exact whole.clean before fun _ => fine
  · rintro (refused | ⟨ms, clean⟩)
    · exact refused.exact
    · exact clean.exact

/-! Encoded messages -/

/-- The header of an encoded message. -/
def encodedHeader (size : Nat) : Bytes := ascii "Content-Length: " ++ ascii (toString size)

theorem ascii_digit {c : Char} (isDigit : c.isDigit = true) :
    48 ≤ UInt8.ofNat c.toNat ∧ UInt8.ofNat c.toNat ≤ 57 ∧ (UInt8.ofNat c.toNat).toNat = c.toNat := by
  simp only [Char.isDigit, Bool.and_eq_true, decide_eq_true_eq, UInt32.le_iff_toNat_le] at isDigit
  obtain ⟨low, high⟩ := isDigit
  change 48 ≤ c.toNat at low
  change c.toNat ≤ 57 at high
  have value : (UInt8.ofNat c.toNat).toNat = c.toNat := by
    rw [UInt8.toNat_ofNat']
    omega
  rw [UInt8.le_iff_toNat_le, UInt8.le_iff_toNat_le, value]
  exact ⟨low, high, rfl⟩

theorem denoted_chars {cs : List Char} (digits : ∀ c ∈ cs, c.isDigit = true) (init : Nat) :
    (cs.map fun c => UInt8.ofNat c.toNat).foldlM (fun parsed b => (digit b).map fun k => parsed * 10 + k) init =
      some (Nat.ofDigitChars 10 cs init) := by
  induction cs generalizing init with
  | nil => rfl
  | cons c cs ih =>
      obtain ⟨low, high, value⟩ := ascii_digit (digits c List.mem_cons_self)
      rw [List.map_cons, List.foldlM_cons, digit, if_pos ⟨low, high⟩, Nat.ofDigitChars_cons, value, Nat.mul_comm 10]
      exact ih (fun c' member => digits c' (List.mem_cons_of_mem c member)) _

theorem denoted_decimal (size : Nat) : denoted (ascii (toString size)) = some size := by
  rw [denoted, ascii, denoted_chars fun c => decimal_digits, Nat.toString_eq_repr, Nat.toList_repr,
    Nat.ofDigitChars_ten_toDigits]

theorem parseDigits_denoted (value : Bytes) : parseDigits value = (denoted value).map (· % 2 ^ 64) := by
  have reduced (init : Nat) :
      value.foldlM (fun parsed b => (digit b).map fun k => (parsed * 10 + k) % 2 ^ 64) (init % 2 ^ 64) =
        (value.foldlM (fun parsed b => (digit b).map fun k => parsed * 10 + k) init).map (· % 2 ^ 64) := by
    induction value generalizing init with
    | nil => rfl
    | cons b value ih =>
        rw [List.foldlM_cons, List.foldlM_cons]
        cases digit b with
        | none => rfl
        | some k =>
            have same : (init % 2 ^ 64 * 10 + k) % 2 ^ 64 = (init * 10 + k) % 2 ^ 64 := by omega
            rw [Option.map_some, Option.map_some, same]
            exact ih _
  exact reduced 0

theorem ascii_decimal {size : Nat} {b : UInt8} (member : b ∈ ascii (toString size)) : 48 ≤ b ∧ b ≤ 57 := by
  obtain ⟨c, inside, rfl⟩ := List.mem_map.mp member
  obtain ⟨low, high, -⟩ := ascii_digit (decimal_digits inside)
  exact ⟨low, high⟩

theorem encodedHeader_plain {size : Nat} {b : UInt8} (member : b ∈ encodedHeader size) : b ≠ 13 := by
  rintro rfl
  obtain name | value := List.mem_append.mp member
  · exact absurd name (by decide)
  · exact absurd (ascii_decimal value).1 (by decide)

theorem encodedHeader_value (size : Nat) : lengthValue (encodedHeader size) = some (ascii (toString size)) := by
  have whole : cut lineEnd (encodedHeader size) = none :=
    (cut_none (List.cons_ne_nil _ _)).mpr fun inside =>
      encodedHeader_plain (inside.subset (List.mem_cons_self (a := 13))) rfl
  have plain : colon ∉ ascii "Content-Length" := by decide
  have name : cut [colon] (encodedHeader size) = some (ascii "Content-Length", 32 :: ascii (toString size)) :=
    cut_of_notMem plain
  have value : (ascii (toString size)).dropWhile isBlank = ascii (toString size) := by
    refine List.dropWhile_eq_self_iff.mpr fun solid blank => ?_
    have low := (ascii_decimal (List.getElem_mem solid)).1
    obtain space | tab := Bool.or_eq_true_iff.mp blank
    · exact absurd (eq_of_beq space ▸ low) (by decide)
    · exact absurd (eq_of_beq tab ▸ low) (by decide)
  have lines : headerLines (encodedHeader size) = [encodedHeader size] := by
    rw [headerLines]
    split
    · rfl
    · rename_i other
      cases whole.symm.trans other
  have same : ((ascii "Content-Length").rdropWhile isBlank).map lowered = ascii "content-length" := by decide
  rw [lengthValue, lines, List.findSome?_singleton, lengthField, name]
  dsimp only
  rw [if_pos same, List.dropWhile_cons_of_pos (by decide), value]

theorem encodedHeader_cut (size : Nat) (rest : Bytes) :
    cut headerEnd (encodedHeader size ++ (headerEnd ++ rest)) = some (encodedHeader size, rest) :=
  cut_of_notMem fun member => encodedHeader_plain member rfl

theorem encodedHeader_length {size : Nat} (below : size < 2 ^ 64) : (encodedHeader size).length + 3 ≤ maxHeaderBytes := by
  have digits : (toString size).length ≤ 20 := (Nat.length_repr_le_iff (by decide)).mpr (below.trans (by decide))
  have name : (ascii "Content-Length: ").length = 16 := rfl
  rw [encodedHeader, List.length_append, name, ascii, List.length_map, String.length_toList, maxHeaderBytes]
  omega

theorem encodedHeader_parsed {size : Nat} (below : size < 2 ^ 64) : parseContentLength (encodedHeader size) = .ok size := by
  have digits : parseDigits (ascii (toString size)) = some size := by
    rw [parseDigits_denoted, denoted_decimal, Option.map_some, Nat.mod_eq_of_lt below]
  rw [parseContentLength, encodedHeader_value]
  exact congrArg (need · "invalid Content-Length header") digits

theorem encodedHeader_declared (size : Nat) : declared (encodedHeader size) = some size := by
  rw [declared, encodedHeader_value]
  exact denoted_decimal size

/-- What is delivered of an encoded message. -/
def delivery (codec : BodyCodec) (message : Json) : Delivery :=
  ⟨encodedHeader (codec.serialize message).length, codec.serialize message, message⟩

theorem encode_frame (codec : BodyCodec) (message : Json) :
    encodeMessage codec message = frame (delivery codec message) := by
  rw [encodeMessage, frame, delivery, encodedHeader, List.append_assoc]

theorem clean_encoded {messages : List Json} (fits : ∀ m ∈ messages, (d.codec.serialize m).length ≤ d.maxMessageBytes)
    (readable : ∀ m ∈ messages, d.codec.parse (d.codec.serialize m) = some m) :
    d.Clean (messages.flatMap (encodeMessage d.codec)) (messages.map (delivery d.codec)) := by
  induction messages with
  | nil => exact .header rfl (Nat.zero_le _)
  | cons message messages ih =>
      have small := fits message List.mem_cons_self
      have below : (d.codec.serialize message).length < 2 ^ 64 := by
        have := d.room
        omega
      have short := encodedHeader_length below
      have framed : d.Framed (delivery d.codec message) :=
        ⟨encodedHeader_cut _ _, (Nat.le_add_right _ 3).trans short, encodedHeader_parsed below, small,
          readable message List.mem_cons_self⟩
      have later := ih (fun m member => fits m (List.mem_cons_of_mem _ member))
        fun m member => readable m (List.mem_cons_of_mem _ member)
      rw [List.flatMap_cons, encode_frame]
      exact .frame framed short (encodedHeader_declared _) later

/-- Messages within the limit are delivered in all chunks of their frames; and a stream is delivered the same in all
chunks, with bodies of their true lengths, exactly when its first frame is refused or it is clean. -/
theorem framing_exact_iff (d : MessageDecoder) :
    (∀ messages : List Json, (∀ m ∈ messages, (d.codec.serialize m).length ≤ d.maxMessageBytes) →
      (∀ m ∈ messages, d.codec.parse (d.codec.serialize m) = some m) → ∀ chunks : List Bytes,
      chunks.flatten = messages.flatMap (encodeMessage d.codec) →
        (d.feed [] chunks).1.map Delivery.message = messages ∧ (d.feed [] chunks).2 = none) ∧
    ∀ s : Bytes, d.Exact s ↔ d.Refused s ∨ ∃ ms, d.Clean s ms := by
  constructor
  · intro messages fits readable chunks whole
    have clean := clean_encoded fits readable
    rw [Clean.feed (whole ▸ clean) next_nil, List.map_map]
    exact ⟨List.map_id messages, rfl⟩
  · exact exact_iff

def nullCodec : BodyCodec where
  serialize _ := ascii "null"
  parse body := if body = ascii "null" then some .null else none

theorem default_room : 16000000 + maxHeaderBytes + 4 < 2 ^ 64 := by decide

def nullDecoder : MessageDecoder := { codec := nullCodec, maxMessageBytes := 16000000, room := default_room }

theorem framing_exact_null : (nullDecoder.feed [] [ascii "Content-Le", ascii "ngth: 4\r\n\r\nnu", ascii "ll"]).1.map
    Delivery.message = [.null] := by
  have readable : ∀ m ∈ [Json.null], nullCodec.parse (nullCodec.serialize m) = some m := by
    intro m member
    rw [List.mem_singleton.mp member]
    rfl
  exact ((framing_exact_iff nullDecoder).1 [.null] (by decide) readable _ (by decide)).1

/-- A message in one chunk with a malformed header is lost, and a length of 20 digits is reduced to 4. -/
theorem framing_inexact : ¬ nullDecoder.Exact (ascii "Content-Length: 4\r\n\r\nnullx\r\n\r\n") ∧
    ¬ nullDecoder.Exact (ascii "Content-Length: 18446744073709551620\r\n\r\nnull") := by
  constructor
  · intro exact_
    have same := congrArg List.length (exact_.1 [ascii "Content-Length: 4\r\n\r\nnullx\r\n\r\n"]
      [ascii "Content-Length: 4\r\n\r\nnull", ascii "x\r\n\r\n"] (by decide) (by decide)).1
    rw [List.length_map, List.length_map] at same
    exact absurd same (by decide +kernel)
  · intro exact_
    have fed : ((nullDecoder.feed [] [ascii "Content-Length: 18446744073709551620\r\n\r\nnull"]).1.head?.map fun m =>
        decide (declared m.header = some m.body.length)) = some false := by decide +kernel
    obtain ⟨m, first, wrong⟩ := Option.map_eq_some_iff.mp fed
    exact of_decide_eq_false wrong (exact_.2 _ rfl m (List.mem_of_mem_head? first))

end MessageDecoder
end Araya.Lsp
