import Araya.Persistence.RoundTrip
import Mathlib.Data.List.TakeWhile

/-!
A file cut anywhere; a text stands for the bytes of a file. What is left of the
last line goes when the backend attaches again, and the lines before it stay. The
header is written with a new file only, so a cut inside the header leaves a file
that no reader accepts.
-/

namespace Araya.Persistence
open Sessions

/-! The whole lines of a prefix -/

theorem truncate_line {a b : Text} : truncateTornTail (a ++ '\n' :: b) = a ++ '\n' :: truncateTornTail b := by
  unfold truncateTornTail
  rw [List.reverse_append, List.reverse_cons, List.append_assoc, List.dropWhile_append]
  split
  · next none =>
      have none : (b.reverse.dropWhile fun c => decide (c ≠ '\n')) = [] := List.isEmpty_iff.mp none
      rw [none]
      simp
  · simp

theorem truncate_torn {a : Text} (h : '\n' ∉ a) : truncateTornTail a = [] := by
  have none : a.reverse.dropWhile (fun c => decide (c ≠ '\n')) = [] := by
    rw [List.dropWhile_eq_nil_iff]
    intro c hc
    have : c ≠ '\n' := by rintro rfl; exact h (List.mem_reverse.mp hc)
    simpa using this
  rw [truncateTornTail, none]
  rfl

/-- Of a file of lines that is cut, the lines that were whole are left. -/
theorem truncate_cut {ls : List Text} {p : Text} (line : ∀ l ∈ ls, '\n' ∉ l)
    (pre : p <+: ls.flatMap (· ++ ['\n'])) :
    truncateTornTail p = (ls.take (p.count '\n')).flatMap (· ++ ['\n']) := by
  induction ls generalizing p with
  | nil =>
      rw [List.flatMap_nil, List.prefix_nil] at pre
      subst pre
      rfl
  | cons l ls ih =>
      rw [List.forall_mem_cons] at line
      have first : l ++ ['\n'] <+: (l :: ls).flatMap (· ++ ['\n']) := by
        rw [List.flatMap_cons]
        exact List.prefix_append _ _
      rcases List.prefix_or_prefix_of_prefix pre first with short | ⟨rest, rfl⟩
      · rcases List.prefix_concat_iff.mp short with rfl | short
        · rw [truncate_line, List.count_append, List.count_eq_zero.mpr line.1]
          simp [truncateTornTail]
        · have torn : '\n' ∉ p := fun hp => line.1 (short.subset hp)
          rw [truncate_torn torn, List.count_eq_zero.mpr torn]
          rfl
      · have rest' : rest <+: ls.flatMap (· ++ ['\n']) := by
          rw [List.flatMap_cons, List.prefix_append_right_inj] at pre
          exact pre
        have count : (l ++ ['\n'] ++ rest).count '\n' = rest.count '\n' + 1 := by
          simp [List.count_append, List.count_eq_zero.mpr line.1]
        rw [count, List.take_succ_cons, List.flatMap_cons, ← ih line.2 rest', List.append_assoc,
          List.singleton_append, truncate_line, List.append_assoc, List.singleton_append]

/-! Attaching again -/

/-- A process attaches the session, appends events and flushes them. -/
def resume (codec : Codec) (b : Backend) (header : Header) (events : List Event) : Except String Backend :=
  (b.attach codec header).map fun b =>
    (events.foldl (fun b ev => b.append codec header.id ev) b).flush header.id

section
variable {codec : Codec} {b : Backend} {header : Header} {old events : List Event} {p t : Text}

theorem slot_appends {id : SessionId} (h : b.slot id = ⟨true, some t⟩) :
    (events.foldl (fun b ev => b.append codec id ev) b).slot id =
      ⟨true, some (t ++ events.flatMap fun ev => recordLine codec (eventRecord ev))⟩ := by
  induction events generalizing b t with
  | nil => simpa using h
  | cons ev rest ih =>
      have next : (b.append codec id ev).slot id = ⟨true, some (t ++ recordLine codec (eventRecord ev))⟩ := by
        rw [slot_append, if_pos rfl, h]
        rfl
      rw [List.foldl_cons, ih next, List.flatMap_cons, List.append_assoc]

/-- What is read after a process took a file over. -/
theorem resume_reads (new : b.writers.contains header.id = false)
    (file : b.files.find? (sessionFile header.id) = some p) :
    ∃ b', resume codec b header events = .ok b' ∧ b'.read codec header.id =
      (readText codec (sessionFile header.id)
        (truncateTornTail p ++ events.flatMap fun ev => recordLine codec (eventRecord ev))).map some := by
  have attached : b.attach codec header = .ok
      { files := b.files.insert (sessionFile header.id) (truncateTornTail p)
        writers := b.writers.insert header.id [] } := by
    rw [Backend.attach, new, if_neg Bool.false_ne_true, file]
  refine ⟨_, by rw [resume, attached]; rfl, ?_⟩
  have opened : Backend.slot
      { files := b.files.insert (sessionFile header.id) (truncateTornTail p)
        writers := b.writers.insert header.id [] } header.id = ⟨true, some (truncateTornTail p)⟩ := by
    simp [Backend.slot]
  exact read_flushed (by rw [slot_appends opened]) (by rw [slot_appends opened])

/-- The header line was whole before the cut. -/
def HeaderWhole (codec : Codec) (header : Header) (p : Text) : Prop :=
  recordLine codec (headerRecord header) <+: p

/-- After the take-over the reader gives the header, the events whose lines were
whole in the prefix, one newline each after the header's, and the new ones. -/
def Recovers (codec : Codec) (b : Backend) (header : Header) (old new : List Event) (p : Text) : Prop :=
  ∃ b' stored, resume codec b header new = .ok b' ∧ b'.read codec header.id = .ok (some stored) ∧
    stored.header = header ∧ List.Forall₂ Alike (old.take (p.count '\n' - 1) ++ new) stored.events

theorem fileText_records (codec : Codec) (header : Header) (events : List Event) :
    fileText codec header events =
      (codec.serialize (.obj (headerRecord header)) :: events.map (eventLine codec)).flatMap (· ++ ['\n']) := by
  rw [List.flatMap_cons, List.flatMap_map]
  rfl

theorem header_line (keepsHeader : codec.Keeps (headerRecord header))
    (keeps : ∀ ev ∈ old, codec.Keeps (eventRecord ev)) :
    ∀ l ∈ codec.serialize (.obj (headerRecord header)) :: old.map (eventLine codec), '\n' ∉ l := by
  refine List.forall_mem_cons.mpr ⟨keepsHeader.line, fun l hl => ?_⟩
  obtain ⟨ev, hev, rfl⟩ := List.mem_map.mp hl
  exact (keeps ev hev).line

/-- With its header whole, a cut file is the file of the events that were whole. -/
theorem truncate_whole_header (keepsHeader : codec.Keeps (headerRecord header))
    (keeps : ∀ ev ∈ old, codec.Keeps (eventRecord ev)) (cut : p <+: fileText codec header old)
    (whole : HeaderWhole codec header p) :
    truncateTornTail p = fileText codec header (old.take (p.count '\n' - 1)) := by
  have some : 0 < p.count '\n' :=
    List.count_pos_iff.mpr (whole.subset (List.mem_append_right _ (List.mem_singleton_self _)))
  rw [fileText_records] at cut ⊢
  rw [truncate_cut (header_line keepsHeader keeps) cut, List.map_take]
  obtain ⟨n, hn⟩ := Nat.exists_eq_succ_of_ne_zero some.ne'
  rw [hn]
  rfl

/-- A cut inside the header leaves nothing. -/
theorem truncate_cut_header (keepsHeader : codec.Keeps (headerRecord header))
    (cut : p <+: fileText codec header old) (torn : ¬ HeaderWhole codec header p) : truncateTornTail p = [] := by
  have first : recordLine codec (headerRecord header) <+: fileText codec header old := List.prefix_append _ _
  rcases List.prefix_or_prefix_of_prefix cut first with short | whole
  · rcases List.prefix_concat_iff.mp short with rfl | short
    · exact absurd (List.prefix_refl _) torn
    · exact truncate_torn fun hp => keepsHeader.line (short.subset hp)
  · exact absurd whole torn

theorem parseHeader_event (ev : Event) (path : String) :
    ∃ e, parseHeader (Json.normalMembers (eventRecord ev)) path = .error e := by
  simp [parseHeader, eventRecord, Json.normalMembers, Json.normal, Json.intField, need, bind, Except.bind]

/-- No reader accepts events without a header before them. -/
theorem readText_headless {path : String} (keeps : ∀ ev ∈ events, codec.Keeps (eventRecord ev)) :
    ∃ e, readText codec path (events.flatMap fun ev => recordLine codec (eventRecord ev)) = .error e := by
  have texts : (events.flatMap fun ev => recordLine codec (eventRecord ev)) =
      (events.map (eventLine codec)).flatMap (· ++ ['\n']) := by
    rw [List.flatMap_map]
    rfl
  have eachLine : ∀ l ∈ events.map (eventLine codec), '\n' ∉ l ∧ l ≠ [] := by
    intro l hl
    obtain ⟨ev, hev, rfl⟩ := List.mem_map.mp hl
    exact ⟨(keeps ev hev).line, (keeps ev hev).filled⟩
  rw [readText, texts, lines_records (fun l hl => (eachLine l hl).1) fun l hl => (eachLine l hl).2]
  cases events with
  | nil => exact ⟨_, rfl⟩
  | cons ev rest =>
      rw [List.map_cons, readRecords, eventLine, (keeps ev List.mem_cons_self).parses]
      simp only [need, except_ok_bind, Json.normal, Json.ifObject_obj, type_eventRecord]
      split
      · obtain ⟨e, he⟩ := parseHeader_event ev path
        exact ⟨e, by rw [he]; rfl⟩
      · exact ⟨_, rfl⟩

/-- A cut file recovers exactly when its header was whole and the new events are
such that the reader takes their lines for them. -/
theorem recovers_iff (keepsHeader : codec.Keeps (headerRecord header))
    (keepsOld : ∀ ev ∈ old, codec.Keeps (eventRecord ev)) (keeps : ∀ ev ∈ events, codec.Keeps (eventRecord ev))
    (valid : ∀ ev ∈ old, Readable ev) (cut : p <+: fileText codec header old)
    (new : b.writers.contains header.id = false) (file : b.files.find? (sessionFile header.id) = some p) :
    Recovers codec b header old events p ↔ HeaderWhole codec header p ∧ ∀ ev ∈ events, Readable ev := by
  obtain ⟨b', resumed, reads⟩ : ∃ b', resume codec b header events = .ok b' ∧ b'.read codec header.id =
      (readText codec (sessionFile header.id)
        (truncateTornTail p ++ events.flatMap fun ev => recordLine codec (eventRecord ev))).map some :=
    resume_reads new file
  by_cases whole : HeaderWhole codec header p
  · have text : (truncateTornTail p ++ events.flatMap fun ev => recordLine codec (eventRecord ev)) =
        fileText codec header (old.take (p.count '\n' - 1) ++ events) := by
      rw [truncate_whole_header keepsHeader keepsOld cut whole]
      simp [fileText]
    have keepsAll : ∀ ev ∈ old.take (p.count '\n' - 1) ++ events, codec.Keeps (eventRecord ev) := fun ev hev =>
      (List.mem_append.mp hev).elim (fun h => keepsOld ev (List.mem_of_mem_take h)) (keeps ev)
    rw [text] at reads
    constructor
    · rintro ⟨_, stored, resumed', reads', _⟩
      rw [resumed] at resumed'
      cases resumed'
      rw [reads'] at reads
      cases hr : readText codec (sessionFile header.id)
          (fileText codec header (old.take (p.count '\n' - 1) ++ events)) with
      | error e => rw [hr] at reads; cases reads
      | ok stored =>
          have all := readable_of_decodes keepsHeader keepsAll hr
          exact ⟨whole, fun ev hev => all ev (List.mem_append_right _ hev)⟩
    · rintro ⟨_, readable⟩
      have all : ∀ ev ∈ old.take (p.count '\n' - 1) ++ events, Readable ev := fun ev hev =>
        (List.mem_append.mp hev).elim (fun h => valid ev (List.mem_of_mem_take h)) (readable ev)
      rw [decodes_of_readable keepsHeader keepsAll all] at reads
      exact ⟨b', _, resumed, reads, rfl, alike_all _⟩
  · refine iff_of_false ?_ fun h => whole h.1
    rintro ⟨_, stored, resumed', reads', _⟩
    rw [resumed] at resumed'
    cases resumed'
    obtain ⟨e, he⟩ : ∃ e, readText codec (sessionFile header.id)
        (events.flatMap fun ev => recordLine codec (eventRecord ev)) = .error e := readText_headless keeps
    rw [truncate_cut_header keepsHeader cut whole, List.nil_append, he] at reads
    rw [reads] at reads'
    cases reads'

end

/-- What a crash left of the file of two events. -/
def cutFile (n : Nat) : Text := (fileText witnessCodec { id := "s" } [firstMessage, secondMessage]).take n

def cutBackend (n : Nat) : Backend := { files := SortedMap.insert ∅ (sessionFile "s") (cutFile n) }

/-- A cut inside the second event; the event is appended again. -/
theorem recovers_cut :
    Recovers witnessCodec (cutBackend 250) { id := "s" } [firstMessage, secondMessage] [secondMessage]
      (cutFile 250) :=
  (recovers_iff (keeps_of_check (by decide +kernel)) (keeps_messages (by decide +kernel))
    (keeps_messages (by decide +kernel)) (by decide) (List.take_prefix _ _) rfl
    (by simp [cutBackend, cutFile])).mpr ⟨by unfold HeaderWhole; decide +kernel, by decide⟩

/-- A cut inside the header: the file is there, so no header is written again. -/
theorem header_not_recovered : ¬ ∀ (codec : Codec) (b : Backend) (header : Header) (old new : List Event) (p : Text),
    codec.Keeps (headerRecord header) → (∀ ev ∈ old, codec.Keeps (eventRecord ev)) →
      (∀ ev ∈ new, codec.Keeps (eventRecord ev)) → (∀ ev ∈ old, Readable ev) → (∀ ev ∈ new, Readable ev) →
      p <+: fileText codec header old → b.writers.contains header.id = false →
      b.files.find? (sessionFile header.id) = some p → Recovers codec b header old new p := by
  intro recovers
  obtain ⟨b', stored, resumed, reads, _⟩ := recovers witnessCodec (cutBackend 50) { id := "s" }
    [firstMessage, secondMessage] [firstMessage] (cutFile 50) (keeps_of_check (by decide +kernel))
    (keeps_messages (by decide +kernel)) (keeps_messages (by decide +kernel)) (by decide) (by decide)
    (List.take_prefix _ _) rfl (by simp [cutBackend])
  have refused : ((resume witnessCodec (cutBackend 50) { id := "s" } [firstMessage]).bind
      fun b => b.read witnessCodec "s").toOption.isNone = true := by decide +kernel
  rw [resumed, Except.bind, reads] at refused
  cases refused

end Araya.Persistence
