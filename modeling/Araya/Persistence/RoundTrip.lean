import Araya.Persistence.Durable

/-!
What a file holds, read back. The records share one line format, and only the
type of a record tells a header from an event, so an event of type `session` is
read as a second header; a number past the signed range is none that is read.
-/

namespace Araya.Persistence
open Sessions

/-- The file of a header and its events in order. -/
def fileText (codec : Codec) (header : Header) (events : List Event) : Text :=
  recordLine codec (headerRecord header) ++ events.flatMap fun ev => recordLine codec (eventRecord ev)

/-- The same event, up to the kind of the numbers in its payload. -/
structure Alike (a b : Event) : Prop where
  seq : a.seq = b.seq
  time : a.time = b.time
  type : a.type = b.type
  data : Json.alike a.data b.data = true
  ignorable : a.ignorable = b.ignorable

/-- The reader decodes the file to its header and its events. -/
def Decodes (codec : Codec) (path : String) (header : Header) (events : List Event) : Prop :=
  ∃ stored, readText codec path (fileText codec header events) = .ok stored ∧ stored.header = header ∧
    List.Forall₂ Alike events stored.events

/-- An event whose line is read as itself. -/
structure Readable (ev : Event) : Prop where
  type : ev.type ≠ "session"
  seq : ev.seq < 2 ^ 63

instance (ev : Event) : Decidable (Readable ev) :=
  decidable_of_iff (ev.type ≠ "session" ∧ ev.seq < 2 ^ 63) ⟨fun h => ⟨h.1, h.2⟩, fun h => ⟨h.type, h.seq⟩⟩

theorem alike_readBack (ev : Event) : Alike ev ev.readBack := ⟨rfl, rfl, rfl, Json.alike_normal ev.data, rfl⟩

theorem alike_all (events : List Event) : List.Forall₂ Alike events (events.map Event.readBack) := by
  induction events with
  | nil => exact .nil
  | cons ev rest ih => exact .cons (alike_readBack ev) ih

/-! The lines of a file -/

theorem lines_records {ls : List Text} (line : ∀ l ∈ ls, '\n' ∉ l) (filled : ∀ l ∈ ls, l ≠ []) :
    lines (ls.flatMap (· ++ ['\n'])) = ls := by
  induction ls with
  | nil => rfl
  | cons l ls ih =>
      rw [List.forall_mem_cons] at line filled
      have rest := ih line.2 filled.2
      rw [List.flatMap_cons, List.append_assoc, List.singleton_append, lines, pieces_newline,
        pieces_line line.1, List.singleton_append, List.filter_cons_of_pos (by simpa using filled.1)]
      exact congrArg _ rest

section
variable {codec : Codec} {path : String} {header : Header} {events : List Event}

def eventLine (codec : Codec) (ev : Event) : Text := codec.serialize (.obj (eventRecord ev))

theorem fileText_lines (keepsHeader : codec.Keeps (headerRecord header))
    (keeps : ∀ ev ∈ events, codec.Keeps (eventRecord ev)) : lines (fileText codec header events) =
      codec.serialize (.obj (headerRecord header)) :: events.map (eventLine codec) := by
  have records : fileText codec header events =
      (codec.serialize (.obj (headerRecord header)) :: events.map (eventLine codec)).flatMap (· ++ ['\n']) := by
    rw [List.flatMap_cons, List.flatMap_map]
    rfl
  rw [records]
  refine lines_records ?_ ?_
  · refine List.forall_mem_cons.mpr ⟨keepsHeader.line, fun l hl => ?_⟩
    obtain ⟨ev, hev, rfl⟩ := List.mem_map.mp hl
    exact (keeps ev hev).line
  · refine List.forall_mem_cons.mpr ⟨keepsHeader.filled, fun l hl => ?_⟩
    obtain ⟨ev, hev, rfl⟩ := List.mem_map.mp hl
    exact (keeps ev hev).filled

theorem type_eventRecord (ev : Event) :
    Json.stringField (Json.normalMembers (eventRecord ev)) "type" = some ev.type := by
  rw [Json.stringField_normalMembers]
  simp [eventRecord, Json.stringField]

/-- One more event line after the header. -/
theorem readRecords_line {ev : Event} (keeps : codec.Keeps (eventRecord ev)) (rest : List Text)
    (events : List Event) : readRecords codec path (eventLine codec ev :: rest) (some header) events =
      if ev.type = "session" then .error ("duplicate header record in '" ++ path ++ "'")
      else parseEvent (Json.normalMembers (eventRecord ev)) path >>= fun e =>
        readRecords codec path rest (some header) (events ++ [e]) := by
  rw [readRecords, eventLine, keeps.parses]
  simp only [need, except_ok_bind, Json.normal, Json.ifObject_obj, type_eventRecord]
  split
  · rfl
  · rfl

theorem readRecords_readable (keeps : ∀ ev ∈ events, codec.Keeps (eventRecord ev))
    (readable : ∀ ev ∈ events, Readable ev) (before : List Event) :
    readRecords codec path (events.map (eventLine codec)) (some header) before =
      .ok ⟨header, before ++ events.map Event.readBack⟩ := by
  induction events generalizing before with
  | nil => simp [readRecords]
  | cons ev rest ih =>
      rw [List.forall_mem_cons] at keeps readable
      rw [List.map_cons, readRecords_line keeps.1, if_neg readable.1.type,
        parseEvent_record path readable.1.seq, except_ok_bind, ih keeps.2 readable.2, List.map_cons,
        List.append_assoc, List.singleton_append]

theorem parseEvent_large {ev : Event} (path : String) (h : ¬ ev.seq < 2 ^ 63) :
    ∃ e, parseEvent (Json.normalMembers (eventRecord ev)) path = .error e := by
  have large : ¬ ev.seq < 9223372036854775808 := h
  simp [parseEvent, eventRecord, Json.normalMembers, Json.normal, Json.intField, requireInt, need, Json.ifInt,
    bind, Except.bind, large]

/-- The first event that is not readable stops the reader. -/
theorem readRecords_unreadable (keeps : ∀ ev ∈ events, codec.Keeps (eventRecord ev))
    (unreadable : ¬ ∀ ev ∈ events, Readable ev) (before : List Event) :
    ∃ e, readRecords codec path (events.map (eventLine codec)) (some header) before = .error e := by
  induction events generalizing before with
  | nil => exact absurd (fun ev hev => absurd hev List.not_mem_nil) unreadable
  | cons ev rest ih =>
      rw [List.forall_mem_cons] at keeps unreadable
      rw [List.map_cons, readRecords_line keeps.1]
      by_cases type : ev.type = "session"
      · exact ⟨_, if_pos type⟩
      · rw [if_neg type]
        by_cases seq : ev.seq < 2 ^ 63
        · rw [parseEvent_record path seq, except_ok_bind]
          exact ih keeps.2 (fun rest => unreadable ⟨⟨type, seq⟩, rest⟩) _
        · obtain ⟨e, he⟩ := parseEvent_large path seq
          exact ⟨e, by rw [he]; rfl⟩

theorem readText_fileText (keepsHeader : codec.Keeps (headerRecord header))
    (keeps : ∀ ev ∈ events, codec.Keeps (eventRecord ev)) : readText codec path (fileText codec header events) =
      readRecords codec path (events.map (eventLine codec)) (some header) [] := by
  have htype : Json.stringField (Json.normalMembers (headerRecord header)) "type" = some "session" := by
    rw [Json.stringField_normalMembers]
    simp [headerRecord, Json.stringField]
  rw [readText, fileText_lines keepsHeader keeps, readRecords, keepsHeader.parses]
  simp only [need, except_ok_bind, Json.normal, Json.ifObject_obj, htype, if_true, Option.isSome_none,
    Bool.false_eq_true, if_false, parseHeader_record]

theorem decodes_of_readable (keepsHeader : codec.Keeps (headerRecord header))
    (keeps : ∀ ev ∈ events, codec.Keeps (eventRecord ev)) (readable : ∀ ev ∈ events, Readable ev) :
    readText codec path (fileText codec header events) = .ok ⟨header, events.map Event.readBack⟩ := by
  rw [readText_fileText keepsHeader keeps, readRecords_readable keeps readable, List.nil_append]

theorem readable_of_decodes {stored : StoredSession} (keepsHeader : codec.Keeps (headerRecord header))
    (keeps : ∀ ev ∈ events, codec.Keeps (eventRecord ev))
    (reads : readText codec path (fileText codec header events) = .ok stored) : ∀ ev ∈ events, Readable ev := by
  by_contra unreadable
  obtain ⟨e, he⟩ : ∃ e, readRecords codec path (events.map (eventLine codec)) (some header) [] = .error e :=
    readRecords_unreadable keeps unreadable []
  rw [readText_fileText keepsHeader keeps, he] at reads
  cases reads

/-- A file is decoded to its header and events exactly when no event carries the type
of a header and every number fits a signed one. -/
theorem file_decodes_iff (keepsHeader : codec.Keeps (headerRecord header))
    (keeps : ∀ ev ∈ events, codec.Keeps (eventRecord ev)) :
    Decodes codec path header events ↔ ∀ ev ∈ events, ev.type ≠ "session" ∧ ev.seq < 2 ^ 63 := by
  constructor
  · rintro ⟨stored, reads, _⟩ ev hev
    have readable := readable_of_decodes keepsHeader keeps reads ev hev
    exact ⟨readable.type, readable.seq⟩
  · intro readable
    have all : ∀ ev ∈ events, Readable ev := fun ev hev => ⟨(readable ev hev).1, (readable ev hev).2⟩
    exact ⟨_, decodes_of_readable keepsHeader keeps all, rfl, alike_all events⟩

end

theorem file_decodes_two : Decodes witnessCodec "s" { id := "s" } [firstMessage, secondMessage] := by
  refine (file_decodes_iff (keeps_of_check (by decide +kernel)) ?_).mpr (by decide)
  rw [List.forall_mem_cons, List.forall_mem_singleton]
  exact ⟨keeps_of_check (by decide +kernel), keeps_of_check (by decide +kernel)⟩

/-- An event that any plugin may append. -/
def sessionEvent : Event := { seq := 0, time := 1, type := "session", data := .obj [] }

def sessionCodec : Codec := tableCodec [headerRecord { id := "s" }, eventRecord sessionEvent]

/-- An event of type `session` is read as a second header. -/
theorem file_not_decoded : ¬ ∀ (codec : Codec) (path : String) (header : Header) (events : List Event),
    codec.Keeps (headerRecord header) → (∀ ev ∈ events, codec.Keeps (eventRecord ev)) →
      Decodes codec path header events := by
  intro decodes
  obtain ⟨stored, reads, _⟩ := decodes sessionCodec "s" { id := "s" } [sessionEvent]
    (keeps_of_check (by decide +kernel)) (List.forall_mem_singleton.mpr (keeps_of_check (by decide +kernel)))
  have refused : (readText sessionCodec "s" (fileText sessionCodec { id := "s" } [sessionEvent])).toOption.isNone =
      true := by decide +kernel
  rw [reads] at refused
  cases refused

end Araya.Persistence
