import Araya.Persistence.RoundTrip

/-!
Writes that fail. `write_all` may store a part of the buffer and throw, and the
buffer is kept whole, so the next drain stores that part a second time. A record
is in the file once as long as a write that fails has stored nothing.
-/

namespace Araya.Persistence
open Sessions

/-- What becomes of one `write_all`: it stores its bytes, or the first of them and throws. -/
inductive WriteResult where
  | stored
  | fails (bytes : Nat)

/-- `writer_state`, with the file behind its descriptor. -/
structure Writer where
  file : Text := []
  buffer : Text := []

namespace Writer

/-- `drain`, and whether it returned. -/
def drain (w : Writer) (result : WriteResult) : Writer × Bool :=
  if w.buffer.isEmpty then (w, true)
  else
    match result with
    | .stored => ({ file := w.file ++ w.buffer, buffer := [] }, true)
    | .fails bytes => ({ w with file := w.file ++ w.buffer.take bytes }, false)

def buffered (codec : Codec) (w : Writer) (ev : Event) : Writer :=
  { w with buffer := w.buffer ++ recordLine codec (eventRecord ev) }

def full (w : Writer) : Bool := decide (k_flush_threshold ≤ textSize w.buffer)

def append (codec : Codec) (w : Writer) (ev : Event) (result : WriteResult) : Writer × Bool :=
  if (w.buffered codec ev).full then (w.buffered codec ev).drain result else (w.buffered codec ev, true)

def flush (w : Writer) (result : WriteResult) (synced : Bool) : Writer × Bool :=
  ((w.drain result).1, (w.drain result).2 && synced)

end Writer

/-- A call of the backend on an attached session; its write and its fsync go as given. -/
inductive DrainOp where
  | append (ev : Event) (result : WriteResult)
  | flush (result : WriteResult) (synced : Bool)

namespace DrainOp

def event : DrainOp → Option Event
  | .append ev _ => some ev
  | .flush _ _ => none

def run (codec : Codec) (w : Writer) : DrainOp → Writer
  | .append ev result => (w.append codec ev result).1
  | .flush result synced => (w.flush result synced).1

/-- What a drain of the writer stores and keeps in the buffer all the same. -/
def spilledBy (w : Writer) : WriteResult → Text
  | .stored => []
  | .fails bytes => w.buffer.take bytes

def spilled (codec : Codec) (w : Writer) : DrainOp → Text
  | .append ev result =>
    if (w.buffered codec ev).full then spilledBy (w.buffered codec ev) result else []
  | .flush result _ => spilledBy w result

end DrainOp

def drained (codec : Codec) (w : Writer) (ops : List DrainOp) : Writer := ops.foldl (DrainOp.run codec) w

def appendedEvents (ops : List DrainOp) : List Event := ops.filterMap DrainOp.event

/-- No write of the sequence that fails has stored any of its bytes. -/
def FailsClean (codec : Codec) : Writer → List DrainOp → Prop
  | _, [] => True
  | w, op :: ops => op.spilled codec w = [] ∧ FailsClean codec (op.run codec w) ops

/-! The backend whose writes succeed -/

def Backend.writer (b : Backend) (id : SessionId) : Option Writer :=
  (b.writers.find? id).map fun buffer => { file := (b.files.find? (sessionFile id)).getD [], buffer }

section
variable {codec : Codec} {b : Backend} {id : SessionId}

theorem writer_append (ev : Event) : (b.append codec id ev).writer id =
    (b.writer id).map fun w => (w.append codec ev .stored).1 := by
  unfold Backend.append Backend.writer
  cases hw : b.writers.find? id with
  | none => simp [hw]
  | some buffer =>
      simp only [Option.map_some, Writer.append, Writer.buffered, Writer.full]
      by_cases full : k_flush_threshold ≤ textSize (buffer ++ recordLine codec (eventRecord ev))
      · have filled : (buffer ++ recordLine codec (eventRecord ev)) ≠ [] := by simp [recordLine]
        simp [full, Backend.drain, Writer.drain, filled]
      · simp [full]

theorem writer_flush : (b.flush id).writer id = (b.writer id).map fun w => (w.flush .stored true).1 := by
  unfold Backend.flush Backend.writer
  cases hw : b.writers.find? id with
  | none => simp [hw]
  | some buffer => cases buffer <;> simp [Backend.drain, Writer.flush, Writer.drain]

end

/-! Bytes beside the newlines -/

/-- What of a text is not a newline. -/
def solid (t : Text) : Text := t.filter (· ≠ '\n')

theorem solid_append (a b : Text) : solid (a ++ b) = solid a ++ solid b := List.filter_append ..

theorem pieces_flatten (t : Text) : (pieces t).flatten = solid t := by
  induction t with
  | nil => rfl
  | cons c cs ih =>
      obtain ⟨l, ls, hp⟩ := pieces_cons cs
      rw [hp] at ih
      simp only [pieces, hp, solid, List.filter_cons]
      by_cases hc : c = '\n'
      · simpa [hc, solid] using ih
      · simpa [hc, solid] using ih

theorem lines_flatten (t : Text) : (lines t).flatten = solid t := by
  rw [← pieces_flatten, lines]
  generalize pieces t = ls
  induction ls with
  | nil => rfl
  | cons l ls ih =>
      rw [List.filter_cons]
      cases l with
      | nil => simpa using ih
      | cons c cs => simpa using ih

/-! What a sequence of calls leaves -/

def recordText (codec : Codec) (events : List Event) : Text :=
  events.flatMap fun ev => recordLine codec (eventRecord ev)

/-- The bytes that failing writes have stored, one after the other. -/
def allSpilled (codec : Codec) : Writer → List DrainOp → Text
  | _, [] => []
  | w, op :: ops => op.spilled codec w ++ allSpilled codec (op.run codec w) ops

section
variable {codec : Codec} {w : Writer} {ops : List DrainOp} {result : WriteResult} {synced : Bool}

theorem drain_text (w : Writer) (result : WriteResult) :
    (w.drain result).1.file ++ (w.drain result).1.buffer =
      w.file ++ DrainOp.spilledBy w result ++ w.buffer := by
  unfold Writer.drain
  split
  · next empty =>
      have empty : w.buffer = [] := List.isEmpty_iff.mp empty
      cases result <;> simp [DrainOp.spilledBy, empty]
  · cases result <;> simp [DrainOp.spilledBy]

/-- A call stores what it spills, and keeps the rest with the record it brings. -/
theorem run_text (codec : Codec) (w : Writer) (op : DrainOp) :
    (op.run codec w).file ++ (op.run codec w).buffer =
      w.file ++ op.spilled codec w ++ (w.buffer ++ recordText codec op.event.toList) := by
  cases op with
  | append ev result =>
      simp only [DrainOp.run, DrainOp.spilled, Writer.append]
      split
      · rw [drain_text]
        simp [Writer.buffered, recordText, DrainOp.event]
      · simp [Writer.buffered, recordText, DrainOp.event]
  | flush result synced =>
      simp only [DrainOp.run, DrainOp.spilled, Writer.flush, drain_text]
      simp [recordText, DrainOp.event]

theorem appendedEvents_cons (op : DrainOp) (ops : List DrainOp) :
    appendedEvents (op :: ops) = op.event.toList ++ appendedEvents ops := by
  cases h : op.event <;> simp [appendedEvents, h]

theorem recordText_append (a b : List Event) :
    recordText codec (a ++ b) = recordText codec a ++ recordText codec b := List.flatMap_append

theorem drained_clean (clean : FailsClean codec w ops) :
    (drained codec w ops).file ++ (drained codec w ops).buffer =
      w.file ++ w.buffer ++ recordText codec (appendedEvents ops) := by
  induction ops generalizing w with
  | nil => simp [drained, appendedEvents, recordText]
  | cons op ops ih =>
      rw [drained, List.foldl_cons, ← drained, ih clean.2, run_text, clean.1, appendedEvents_cons,
        recordText_append]
      simp

/-- Counted in the bytes beside the newlines, what is spilled comes on top. -/
theorem drained_count (codec : Codec) (w : Writer) (ops : List DrainOp) :
    (solid ((drained codec w ops).file ++ (drained codec w ops).buffer)).length =
      (solid (w.file ++ w.buffer)).length + (solid (recordText codec (appendedEvents ops))).length +
        (solid (allSpilled codec w ops)).length := by
  induction ops generalizing w with
  | nil => simp [drained, appendedEvents, recordText, allSpilled, solid]
  | cons op ops ih =>
      rw [drained, List.foldl_cons, ← drained, ih, run_text, appendedEvents_cons, recordText_append, allSpilled]
      simp only [solid_append, List.length_append]
      omega

/-- The buffer holds whole records. -/
def Records (codec : Codec) (buffer : Text) : Prop :=
  ∃ events, (∀ ev ∈ events, codec.Keeps (eventRecord ev)) ∧ buffer = recordText codec events

theorem Records.drain (h : Records codec w.buffer) (result : WriteResult) :
    Records codec (w.drain result).1.buffer := by
  unfold Writer.drain
  split
  · exact h
  · cases result with
    | stored => exact ⟨[], by simp, rfl⟩
    | fails bytes => exact h

theorem Records.buffered (h : Records codec w.buffer) {ev : Event} (keeps : codec.Keeps (eventRecord ev)) :
    Records codec (w.buffered codec ev).buffer := by
  obtain ⟨events, all, hb⟩ := h
  refine ⟨events ++ [ev], fun x hx => ?_, ?_⟩
  · rcases List.mem_append.mp hx with hold | hnew
    · exact all x hold
    · rw [List.mem_singleton.mp hnew]
      exact keeps
  · simp [Writer.buffered, hb, recordText]

theorem Records.run (h : Records codec w.buffer) {op : DrainOp}
    (keeps : ∀ ev ∈ op.event, codec.Keeps (eventRecord ev)) : Records codec (op.run codec w).buffer := by
  cases op with
  | append ev result =>
      have buffered := h.buffered (keeps ev rfl)
      simp only [DrainOp.run, Writer.append]
      split
      · exact buffered.drain result
      · exact buffered
  | flush result synced => exact h.drain result

/-- The first bytes of some records are not all newlines. -/
theorem Records.solid_take (h : Records codec w.buffer) {bytes : Nat} (some : w.buffer.take bytes ≠ []) :
    solid (w.buffer.take bytes) ≠ [] := by
  obtain ⟨events, keeps, hb⟩ := h
  cases events with
  | nil => simp [hb, recordText] at some
  | cons ev rest =>
      have first := keeps ev List.mem_cons_self
      cases hs : codec.serialize (.obj (eventRecord ev)) with
      | nil => exact absurd hs first.filled
      | cons c cs =>
          have solid' : c ≠ '\n' := by
            rintro rfl
            exact first.line (by simp [hs])
          cases bytes with
          | zero => simp at some
          | succ n => simp [hb, recordText, recordLine, hs, solid, solid']

theorem spilled_solid (h : Records codec w.buffer) {op : DrainOp}
    (keeps : ∀ ev ∈ op.event, codec.Keeps (eventRecord ev)) (some : op.spilled codec w ≠ []) :
    solid (op.spilled codec w) ≠ [] := by
  have spilledBy : ∀ {w : Writer}, Records codec w.buffer → ∀ result, DrainOp.spilledBy w result ≠ [] →
      solid (DrainOp.spilledBy w result) ≠ [] := by
    intro w records result filled
    cases result with
    | stored => exact absurd rfl filled
    | fails bytes => exact records.solid_take filled
  cases op with
  | append ev result =>
      simp only [DrainOp.spilled] at some ⊢
      split at some
      · next full =>
          rw [if_pos full]
          exact spilledBy (h.buffered (keeps ev rfl)) result some
      · exact absurd rfl some
  | flush result synced => exact spilledBy h result some

theorem allSpilled_solid (h : Records codec w.buffer)
    (keeps : ∀ ev ∈ appendedEvents ops, codec.Keeps (eventRecord ev)) (unclean : ¬ FailsClean codec w ops) :
    0 < (solid (allSpilled codec w ops)).length := by
  induction ops generalizing w with
  | nil => exact absurd trivial unclean
  | cons op ops ih =>
      rw [appendedEvents_cons, List.forall_mem_append] at keeps
      have own : ∀ ev ∈ op.event, codec.Keeps (eventRecord ev) := fun ev hev =>
        keeps.1 ev (Option.mem_toList.mpr hev)
      rw [allSpilled, solid_append, List.length_append]
      by_cases none : op.spilled codec w = []
      · have rest := ih (h.run own) keeps.2 fun clean => unclean ⟨none, clean⟩
        omega
      · have some := List.length_pos_iff.mpr (spilled_solid h own none)
        omega

theorem flush_success (success : (w.flush result synced).2 = true) :
    (w.flush result synced).1.file = w.file ++ w.buffer := by
  simp only [Writer.flush, Writer.drain] at success ⊢
  split at success
  · next empty => simp [List.isEmpty_iff.mp empty]
  · next filled =>
      cases result with
      | stored => simp [filled]
      | fails bytes => simp at success

theorem solid_recordText {events : List Event} (keeps : ∀ ev ∈ events, codec.Keeps (eventRecord ev)) :
    solid (recordText codec events) = (events.map (eventLine codec)).flatten := by
  induction events with
  | nil => rfl
  | cons ev rest ih =>
      rw [List.forall_mem_cons] at keeps
      have line : solid (recordLine codec (eventRecord ev)) = eventLine codec ev := by
        rw [recordLine, solid_append, eventLine]
        have own : solid (codec.serialize (.obj (eventRecord ev))) = codec.serialize (.obj (eventRecord ev)) :=
          List.filter_eq_self.mpr fun c hc => by
            have : c ≠ '\n' := by rintro rfl; exact keeps.1.line hc
            simpa using this
        rw [own]
        simp [solid]
      rw [recordText, List.flatMap_cons, solid_append, line, ← recordText, ih keeps.2]
      rfl

theorem lines_recordText {t : Text} {events : List Event} (whole : Whole t)
    (keeps : ∀ ev ∈ events, codec.Keeps (eventRecord ev)) :
    lines (t ++ recordText codec events) = lines t ++ events.map (eventLine codec) := by
  induction events generalizing t with
  | nil => simp [recordText]
  | cons ev rest ih =>
      rw [List.forall_mem_cons] at keeps
      rw [recordText, List.flatMap_cons, ← List.append_assoc, ← recordText, ih (recordLine_whole t _) keeps.2,
        recordLine, lines_concat whole keeps.1.line keeps.1.filled, List.append_assoc]
      rfl

/-- After a flush that reports success each appended record has its line, in order,
exactly when no failing write before it had stored any of its bytes. -/
theorem drained_once_iff (whole : Whole w.file) (opened : w.buffer = [])
    (keeps : ∀ ev ∈ appendedEvents ops, codec.Keeps (eventRecord ev))
    (success : ((drained codec w ops).flush result synced).2 = true) :
    lines ((drained codec w ops).flush result synced).1.file =
      lines w.file ++ (appendedEvents ops).map (eventLine codec) ↔ FailsClean codec w ops := by
  rw [flush_success success]
  constructor
  · intro once
    by_contra unclean
    have records : Records codec w.buffer := ⟨[], by simp, opened⟩
    have spilled := allSpilled_solid records keeps unclean
    have count := drained_count codec w ops
    have flat := congrArg List.length (congrArg List.flatten once)
    rw [List.flatten_append, lines_flatten, lines_flatten, ← solid_recordText keeps, List.length_append] at flat
    rw [opened, List.append_nil] at count
    omega
  · intro clean
    rw [drained_clean clean, opened, List.append_nil, lines_recordText whole keeps]

end

def headerFile : Text := recordLine witnessCodec (headerRecord { id := "s" })

theorem headerFile_whole : Whole headerFile := .inr ⟨_, rfl⟩

/-- The first flush fails before it has stored anything. -/
def retried : List DrainOp :=
  [.append firstMessage .stored, .flush (.fails 0) true, .append secondMessage .stored]

theorem drained_once_retried :
    lines ((drained witnessCodec { file := headerFile } retried).flush .stored true).1.file =
      lines headerFile ++ (appendedEvents retried).map (eventLine witnessCodec) := by
  have success : ((drained witnessCodec { file := headerFile } retried).flush .stored true).2 = true := by
    decide +kernel
  have clean : FailsClean witnessCodec { file := headerFile } retried :=
    ⟨by decide +kernel, by decide +kernel, by decide +kernel, trivial⟩
  exact (drained_once_iff headerFile_whole rfl (keeps_messages (by decide +kernel)) success).mpr clean

/-- A flush stores five bytes of the record and fails; the next one stores the record after them. -/
theorem torn_flush_not_once :
    ¬ ∀ (codec : Codec) (w : Writer) (ops : List DrainOp) (result : WriteResult) (synced : Bool),
      Whole w.file → w.buffer = [] → (∀ ev ∈ appendedEvents ops, codec.Keeps (eventRecord ev)) →
        ((drained codec w ops).flush result synced).2 = true →
          lines ((drained codec w ops).flush result synced).1.file =
            lines w.file ++ (appendedEvents ops).map (eventLine codec) := by
  intro once
  have torn := once witnessCodec { file := headerFile } [.append firstMessage .stored, .flush (.fails 5) true]
    .stored true headerFile_whole rfl (keeps_messages (by decide +kernel)) (by decide +kernel)
  exact absurd torn (by decide +kernel)

end Araya.Persistence
