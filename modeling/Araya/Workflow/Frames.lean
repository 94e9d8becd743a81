import Araya.Llm.Sse
import Araya.Util.Framing
import Araya.Util.Json

/-!
The control frames between the host and a worker: a length of four bytes, the most significant first, and the message. The
decoder collects the messages that a chunk completes; a frame it refuses takes those before it in the chunk along.
-/

namespace Araya.Workflow
open Llm (Bytes ascii)

/-- What the frames use of the JSON library. -/
structure ControlCodec where
  serialize : Json → Bytes
  parse : Bytes → Except String Json

def sizeBytes (size : Nat) : Bytes :=
  [UInt8.ofNat (size / 2 ^ 24), UInt8.ofNat (size / 2 ^ 16), UInt8.ofNat (size / 2 ^ 8), UInt8.ofNat size]

def lengthOf (b₀ b₁ b₂ b₃ : UInt8) : Nat := b₀.toNat * 2 ^ 24 + b₁.toNat * 2 ^ 16 + b₂.toNat * 2 ^ 8 + b₃.toNat

def encodeFrame (codec : ControlCodec) (message : Json) : Except String Bytes :=
  let json := codec.serialize message
  if 0xffffffff < json.length then .error "workflow: control frame exceeds the 32-bit length prefix"
  else .ok (sizeBytes json.length ++ json)

/-- The frames of messages, one after the other. -/
def encodeFrames (codec : ControlCodec) : List Json → Except String Bytes
  | [] => .ok []
  | message :: messages =>
    match encodeFrame codec message, encodeFrames codec messages with
    | .ok frame, .ok frames => .ok (frame ++ frames)
    | .error reason, _ | _, .error reason => .error reason

structure FrameDecoder where
  codec : ControlCodec
  maxBytes : Nat

namespace FrameDecoder
variable (d : FrameDecoder)

/-- One turn of the loop of `feed`. -/
def next : Bytes → Except String (Option (Json × Bytes))
  | b₀ :: b₁ :: b₂ :: b₃ :: rest =>
    let length := lengthOf b₀ b₁ b₂ b₃
    if d.maxBytes < length then .error "workflow: control frame exceeds the configured limit"
    else if rest.length < length then .ok none
    else
      match d.codec.parse (rest.take length) with
      | .error reason => .error ("workflow: malformed control frame: " ++ reason)
      | .ok message => .ok (some (message, rest.drop length))
  | _ => .ok none

variable {d} {s rest : Bytes} {m : Json}

/-- The beginning of a frame: it is too large, malformed, or the message. -/
theorem next_header {b₀ b₁ b₂ b₃ : UInt8} (fits : ¬ d.maxBytes < lengthOf b₀ b₁ b₂ b₃)
    (whole : lengthOf b₀ b₁ b₂ b₃ ≤ rest.length) (more : Bytes) :
    d.next (b₀ :: b₁ :: b₂ :: b₃ :: (rest ++ more)) = (d.next (b₀ :: b₁ :: b₂ :: b₃ :: rest)).map fun found =>
      found.map fun item => (item.1, item.2 ++ more) := by
  have whole' : ¬ (rest ++ more).length < lengthOf b₀ b₁ b₂ b₃ := by
    rw [List.length_append]
    omega
  simp only [next, if_neg fits, if_neg whole', if_neg (Nat.not_lt.mpr whole), List.take_append_of_le_length whole,
    List.drop_append_of_le_length whole]
  cases d.codec.parse (rest.take (lengthOf b₀ b₁ b₂ b₃)) with
  | error reason => rfl
  | ok message => rfl

/-- What is settled of a stream is not changed by what comes behind it. -/
theorem next_append (settled : d.next s ≠ .ok none) (more : Bytes) : d.next (s ++ more) = (d.next s).map fun found =>
    found.map fun item => (item.1, item.2 ++ more) := by
  match s with
  | b₀ :: b₁ :: b₂ :: b₃ :: rest =>
      by_cases large : d.maxBytes < lengthOf b₀ b₁ b₂ b₃
      · simp only [List.cons_append, next, if_pos large]
        rfl
      · by_cases short : rest.length < lengthOf b₀ b₁ b₂ b₃
        · exact absurd (by simp only [next, if_neg large, if_pos short]) settled
        · exact next_header large (Nat.le_of_not_lt short) more
  | [] | [_] | [_, _] | [_, _, _] => exact absurd rfl settled

theorem next_shorter (read : d.next s = .ok (some (m, rest))) : rest.length < s.length := by
  match s with
  | b₀ :: b₁ :: b₂ :: b₃ :: body =>
      simp only [next] at read
      split at read
      · cases read
      · split at read
        · cases read
        · split at read
          · cases read
          · cases read
            simp only [List.length_drop, List.length_cons]
            omega
  | [] | [_] | [_, _] | [_, _, _] => cases read

theorem next_item (read : d.next s = .ok (some (m, rest))) (more : Bytes) : d.next (s ++ more) = .ok (some (m, rest ++ more)) := by
  have settled : d.next s ≠ .ok none := by
    rw [read]
    simp
  rw [next_append settled, read]
  rfl

theorem next_refused {reason : String} (failed : d.next s = .error reason) (more : Bytes) : d.next (s ++ more) = .error reason := by
  have settled : d.next s ≠ .ok none := by
    rw [failed]
    simp
  rw [next_append settled, failed]
  rfl

variable (d)

/-- The decoder as a reader of frames. -/
def framing : Framing UInt8 Json String where
  next := d.next
  shorter := next_shorter
  item := next_item
  refused := next_refused

/-- `feed`: the buffer grows, and the loop runs through it. -/
def feed (buffer bytes : Bytes) : Except String (List Json × Bytes) := d.framing.collect (buffer ++ bytes)

/-- `pump`: the messages that go to the run, and the error that ends it. -/
def pump (chunks : List Bytes) : List Json × Option String := d.framing.feed [] chunks

/-- The messages of a stream up to the first frame that is malformed or too large, and that error or what is left. -/
def messages (s : Bytes) : List Json × Except String Bytes := d.framing.read s

/-- All messages before the first refused frame are delivered. -/
def Delivers (chunks : List Bytes) : Prop := (d.pump chunks).1 = (d.messages chunks.flatten).1

/-- If there is a refused frame, a chunk ends behind the last message before it and ahead of the byte that shows it. -/
def Apart (chunks : List Bytes) : Prop := (∃ reason, (d.messages chunks.flatten).2 = .error reason) →
  ∃ i left, d.messages (chunks.take i).flatten = ((d.messages chunks.flatten).1, .ok left)

variable {d}

theorem lengthOf_sizeBytes {size : Nat} (small : size ≤ 0xffffffff) :
    lengthOf (UInt8.ofNat (size / 2 ^ 24)) (UInt8.ofNat (size / 2 ^ 16)) (UInt8.ofNat (size / 2 ^ 8)) (UInt8.ofNat size) =
      size := by
  simp only [lengthOf, UInt8.toNat_ofNat']
  omega

theorem next_frame {frame : Bytes} (undoes : d.codec.parse (d.codec.serialize m) = .ok m)
    (fits : (d.codec.serialize m).length ≤ d.maxBytes) (encoded : encodeFrame d.codec m = .ok frame) (more : Bytes) :
    d.next (frame ++ more) = .ok (some (m, more)) := by
  simp only [encodeFrame] at encoded
  split at encoded
  · cases encoded
  · rename_i small
    cases encoded
    have size := lengthOf_sizeBytes (Nat.le_of_not_lt small)
    simp only [sizeBytes, List.cons_append, List.nil_append, next, size, if_neg (Nat.not_lt.mpr fits), List.take_left,
      List.drop_left, undoes]
    rw [if_neg]
    rw [List.length_append]
    omega

theorem messages_encoded {ms : List Json} {s : Bytes} (undoes : ∀ m ∈ ms, d.codec.parse (d.codec.serialize m) = .ok m)
    (fits : ∀ m ∈ ms, (d.codec.serialize m).length ≤ d.maxBytes) (encoded : encodeFrames d.codec ms = .ok s) :
    d.messages s = (ms, .ok []) := by
  induction ms generalizing s with
  | nil =>
      cases encoded
      exact Framing.read_wait rfl
  | cons m ms ih =>
      simp only [encodeFrames] at encoded
      split at encoded
      · rename_i frame frames first later
        cases encoded
        have read := next_frame (undoes m List.mem_cons_self) (fits m List.mem_cons_self) first frames
        have tail := ih (fun m' member => undoes m' (List.mem_cons_of_mem m member))
          (fun m' member => fits m' (List.mem_cons_of_mem m member)) later
        have step := Framing.read_item (f := d.framing) read
        change d.framing.read _ = _ at tail
        rw [tail] at step
        exact step
      · cases encoded
      · cases encoded

/-- Encoded messages come through whole in any chunks; and the messages before a refused frame are all delivered exactly
where a chunk ends between them and the byte that shows the frame. -/
theorem frames_delivered_iff (d : FrameDecoder) : (∀ (ms : List Json) (chunks : List Bytes),
      (∀ m ∈ ms, d.codec.parse (d.codec.serialize m) = .ok m) → (∀ m ∈ ms, (d.codec.serialize m).length ≤ d.maxBytes) →
      encodeFrames d.codec ms = .ok chunks.flatten → d.pump chunks = (ms, none)) ∧
    ∀ chunks : List Bytes, d.Delivers chunks ↔ d.Apart chunks := by
  constructor
  · intro ms chunks undoes fits encoded
    exact Framing.feed_whole rfl (messages_encoded undoes fits encoded)
  · intro chunks
    exact Framing.feed_all_iff rfl

def nullCodec : ControlCodec where
  serialize _ := ascii "null"
  parse bytes := if bytes = ascii "null" then .ok .null else .error "syntax error"

def nullDecoder : FrameDecoder := { codec := nullCodec, maxBytes := 1024 }

theorem frames_delivered_null : nullDecoder.pump [[0, 0, 0], [4, 110, 117, 108, 108, 0], [0, 0, 4, 110], ascii "ull"] =
    ([.null, .null], none) := by
  have readable : ∀ m ∈ [Json.null, .null], nullCodec.parse (nullCodec.serialize m) = .ok m := by
    intro m member
    rcases List.mem_pair.mp member with rfl | rfl <;> rfl
  have fits : ∀ m ∈ [Json.null, .null], (nullCodec.serialize m).length ≤ nullDecoder.maxBytes := by
    intro m _
    exact Nat.le_of_ble_eq_true rfl
  exact (frames_delivered_iff nullDecoder).1 [.null, .null] _ readable fits rfl

/-- A message in one chunk with a malformed frame is lost. -/
theorem frame_lost : ¬ nullDecoder.Delivers [[0, 0, 0, 4, 110, 117, 108, 108, 0, 0, 0, 1, 120]] := by
  intro delivered
  have same := congrArg List.length delivered
  exact absurd same (by decide +kernel)

end FrameDecoder
end Araya.Workflow
