import Araya.Session.Validate

/-!
The JSONL backend: one file for each session, a header record and then one
record a line for each event. The text form of a value is the JSON library's and
a parameter here. Writes succeed; descriptors, fsync and logging are left out.
-/

namespace Araya.Persistence
open Sessions

abbrev Text := List Char

/-- What the backend uses of the JSON library. -/
structure Codec where
  serialize : Json → Text
  parse : Text → Option Json

/-! Directory names -/

/-- `hex_encode` of the bytes of a text. -/
def hexBytes (bytes : List UInt8) : Text :=
  bytes.flatMap fun b => [Nat.digitChar (b.toNat / 16), Nat.digitChar (b.toNat % 16)]

def hexEncode (text : String) : String := String.ofList (hexBytes text.toUTF8.data.toList)

theorem digitChar_inj {a b : Nat} (ha : a < 16) (hb : b < 16) (h : Nat.digitChar a = Nat.digitChar b) :
    a = b := by
  have all : ∀ x y : Fin 16, Nat.digitChar x = Nat.digitChar y → x = y := by decide
  exact congrArg Fin.val (all ⟨a, ha⟩ ⟨b, hb⟩ h)

theorem hexBytes_injective : Function.Injective hexBytes := by
  intro a
  induction a with
  | nil =>
      intro b h
      cases b with
      | nil => rfl
      | cons y ys => simp [hexBytes] at h
  | cons x xs ih =>
      intro b h
      cases b with
      | nil => simp [hexBytes] at h
      | cons y ys =>
          simp only [hexBytes, List.flatMap_cons, List.cons_append, List.nil_append,
            List.cons.injEq] at h
          obtain ⟨hhi, hlo, hrest⟩ := h
          have hx := x.toNat_lt
          have hy := y.toNat_lt
          have hdiv := digitChar_inj (by omega) (by omega) hhi
          have hmod := digitChar_inj (by omega) (by omega) hlo
          rw [ih hrest, UInt8.toNat_inj.mp (by omega : x.toNat = y.toNat)]

theorem hexEncode_injective : Function.Injective hexEncode := by
  intro a b h
  have hdata : a.toUTF8.data = b.toUTF8.data :=
    Array.toList_inj.mp (hexBytes_injective (String.ofList_injective h))
  have hbytes : a.toUTF8 = b.toUTF8 := by
    cases ha : a.toUTF8
    cases hb : b.toUTF8
    simp_all
  exact String.toByteArray_inj.mp hbytes

/-- The file of a session below the root. -/
def sessionFile (id : SessionId) : String :=
  hexEncode id ++ "/session.v" ++ toString SESSION_FORMAT_VERSION ++ ".jsonl"

theorem sessionFile_injective : Function.Injective sessionFile := by
  intro a b h
  apply hexEncode_injective
  simpa [sessionFile] using h

/-! Records -/

def originWord : Origin → String
  | .subagent => "subagent"
  | .none => "none"

def parseOrigin (word : String) : Origin := if word = "subagent" then .subagent else .none

def optionalMember (key : String) : Option String → Json.Members
  | none => []
  | some s => [(key, .str s)]

def headerRecord (h : Header) : Json.Members :=
  [("type", .str "session"), ("version", .uint SESSION_FORMAT_VERSION), ("id", .str h.id),
    ("created_at", .int h.createdAt), ("is_seeded", .bool h.isSeeded),
    ("delegation_depth", .uint h.delegationDepth.toNat), ("origin", .str (originWord h.origin))] ++
  optionalMember "cwd" h.cwd ++ optionalMember "parent_session" h.parentSession ++
  optionalMember "agent_preset" h.agentPreset

def eventRecord (ev : Event) : Json.Members :=
  [("seq", .uint ev.seq), ("time", .int ev.time), ("type", .str ev.type), ("data", ev.data),
    ("ignorable", .bool ev.ignorable)]

def requireInt (o : Json.Members) (key path : String) : Except String Int :=
  need (Json.intField o key) ("record missing integer '" ++ key ++ "' in '" ++ path ++ "'")

def requireString (o : Json.Members) (key path : String) : Except String String :=
  need (Json.stringField o key) ("record missing string '" ++ key ++ "' in '" ++ path ++ "'")

def boolField (o : Json.Members) (key : String) : Option Bool := (Json.find? o key).bind Json.ifBool

/-- The cast of an int64 to a depth. -/
def toDepth (n : Int) : UInt32 := UInt32.ofNat (n % 2 ^ 32).toNat

def parseHeader (o : Json.Members) (path : String) : Except String Header := do
  let version ← need (Json.intField o "version") ("header without a version in '" ++ path ++ "'")
  ensure (version == SESSION_FORMAT_VERSION)
    ("session format version " ++ toString version ++ " is not supported (expected " ++
      toString SESSION_FORMAT_VERSION ++ ")")
  let id ← requireString o "id" path
  let createdAt ← requireInt o "created_at" path
  .ok
    { id, createdAt
      cwd := Json.stringField o "cwd"
      parentSession := Json.stringField o "parent_session"
      isSeeded := (boolField o "is_seeded").getD false
      delegationDepth := ((Json.intField o "delegation_depth").map toDepth).getD 0
      origin := ((Json.stringField o "origin").map parseOrigin).getD .none
      agentPreset := Json.stringField o "agent_preset" }

def parseEvent (o : Json.Members) (path : String) : Except String Event := do
  let seq ← requireInt o "seq" path
  let time ← requireInt o "time" path
  let type ← requireString o "type" path
  let data ← need (Json.find? o "data") ("event without data in '" ++ path ++ "'")
  .ok { seq := toSeq seq, time, type, data, ignorable := (boolField o "ignorable").getD false }

/-! Reading a file -/

structure StoredSession where
  header : Header
  events : List Event

/-- The pieces between the newlines of a file. -/
def pieces : Text → List Text
  | [] => [[]]
  | c :: cs =>
    if c = '\n' then [] :: pieces cs
    else
      match pieces cs with
      | [] => [[c]]
      | l :: ls => (c :: l) :: ls

def lines (contents : Text) : List Text := (pieces contents).filter (· ≠ [])

/-- The records of a file in order: the header comes first and once. -/
def readRecords (codec : Codec) (path : String) :
    List Text → Option Header → List Event → Except String StoredSession
  | [], none, _ => .error ("missing header record in '" ++ path ++ "'")
  | [], some header, events => .ok ⟨header, events⟩
  | line :: rest, header, events => do
    let record ← need (codec.parse line) "syntax error"
    let o ← need record.ifObject ("malformed record in '" ++ path ++ "'")
    let type ← need (Json.stringField o "type") ("record without a type in '" ++ path ++ "'")
    if type = "session" then
      if header.isSome then .error ("duplicate header record in '" ++ path ++ "'")
      else
        let parsed ← parseHeader o path
        readRecords codec path rest (some parsed) events
    else
      if header.isNone then .error ("event before header record in '" ++ path ++ "'")
      else
        let ev ← parseEvent o path
        readRecords codec path rest header (events ++ [ev])

def readText (codec : Codec) (path : String) (contents : Text) : Except String StoredSession :=
  readRecords codec path (lines contents) none []

/-- The whole lines of a file that does not end in one. -/
def truncateTornTail (contents : Text) : Text :=
  (contents.reverse.dropWhile fun c => c ≠ '\n').reverse

/-! What reading makes of a file that grows by whole lines -/

theorem pieces_cons (t : Text) : ∃ l ls, pieces t = l :: ls := by
  cases t with
  | nil => exact ⟨[], [], rfl⟩
  | cons c cs =>
      rw [pieces]
      split
      · exact ⟨_, _, rfl⟩
      · split <;> exact ⟨_, _, rfl⟩

theorem pieces_newline (a b : Text) : pieces (a ++ '\n' :: b) = pieces a ++ pieces b := by
  induction a with
  | nil => simp [pieces]
  | cons c cs ih =>
      obtain ⟨l, ls, hp⟩ := pieces_cons cs
      simp only [List.cons_append, pieces, ih, hp]
      split <;> rfl

theorem pieces_line {l : Text} (h : '\n' ∉ l) : pieces l = [l] := by
  induction l with
  | nil => rfl
  | cons c cs ih =>
      rw [List.mem_cons, not_or] at h
      simp [pieces, Ne.symm h.1, ih h.2]

/-- A file without a torn tail. -/
def Whole (t : Text) : Prop := t = [] ∨ ∃ a, t = a ++ ['\n']

theorem Whole.line (t l : Text) : Whole (t ++ (l ++ ['\n'])) := .inr ⟨t ++ l, by simp⟩

theorem lines_concat {t l : Text} (whole : Whole t) (line : '\n' ∉ l) (filled : l ≠ []) :
    lines (t ++ (l ++ ['\n'])) = lines t ++ [l] := by
  have tail : pieces (l ++ ['\n']) = [l, []] := by
    rw [pieces_newline, pieces_line line]
    rfl
  rcases whole with rfl | ⟨a, rfl⟩
  · simp [lines, tail, pieces, filled]
  · have split : pieces (a ++ ['\n'] ++ (l ++ ['\n'])) = pieces a ++ [l, []] := by
      rw [List.append_assoc, List.singleton_append, pieces_newline, tail]
    rw [lines, split, lines, pieces_newline]
    simp [pieces, filled]

theorem whole_truncate (t : Text) : Whole (truncateTornTail t) := by
  unfold truncateTornTail
  cases hd : t.reverse.dropWhile (fun c => c ≠ '\n') with
  | nil => exact .inl rfl
  | cons c cs =>
      have hc := List.head?_dropWhile_not (fun c => decide (c ≠ '\n')) t.reverse
      rw [hd] at hc
      refine .inr ⟨cs.reverse, ?_⟩
      simp at hc
      simp [hc]

theorem truncate_whole {t : Text} (h : Whole t) : truncateTornTail t = t := by
  rcases h with rfl | ⟨a, rfl⟩
  · rfl
  · simp [truncateTornTail]

/-- The text form of a record is one line, and reads as the record. -/
structure Codec.Keeps (codec : Codec) (record : Json.Members) : Prop where
  parses : codec.parse (codec.serialize (.obj record)) = some (Json.obj record).normal
  line : '\n' ∉ codec.serialize (.obj record)
  filled : codec.serialize (.obj record) ≠ []

theorem readRecords_append {codec : Codec} {path : String} {ls more : List Text}
    {header : Option Header} {events : List Event} {stored : StoredSession}
    (h : readRecords codec path ls header events = .ok stored) :
    readRecords codec path (ls ++ more) header events =
      readRecords codec path more (some stored.header) stored.events := by
  induction ls generalizing header events with
  | nil =>
      cases header with
      | none => cases h
      | some header => cases h; rfl
  | cons l ls ih =>
      simp only [List.cons_append]
      rw [readRecords] at h ⊢
      obtain ⟨record, hrecord, h⟩ := except_bind h
      obtain ⟨o, ho, h⟩ := except_bind h
      obtain ⟨type, htype, h⟩ := except_bind h
      rw [hrecord, except_ok_bind, ho, except_ok_bind, htype, except_ok_bind]
      split at h
      · next hs =>
          rw [if_pos hs]
          split at h
          · cases h
          · next hn =>
              rw [if_neg hn]
              obtain ⟨parsed, hparsed, h⟩ := except_bind h
              rw [hparsed, except_ok_bind]
              exact ih h
      · next hs =>
          rw [if_neg hs]
          split at h
          · cases h
          · next hn =>
              rw [if_neg hn]
              obtain ⟨ev, hev, h⟩ := except_bind h
              rw [hev, except_ok_bind]
              exact ih h

theorem parseHeader_record (h : Header) (path : String) :
    parseHeader (Json.normalMembers (headerRecord h)) path = .ok h := by
  obtain ⟨id, createdAt, cwd, parent, seeded, depth, origin, preset⟩ := h
  have hdepth : toDepth (depth.toNat : Int) = depth := by
    have hlt := depth.toNat_lt
    rw [toDepth, Int.emod_eq_of_lt (by omega) (by omega), Int.toNat_natCast, UInt32.ofNat_toNat]
  have hsmall : depth.toNat < 9223372036854775808 := by have := depth.toNat_lt; omega
  cases cwd <;> cases parent <;> cases preset <;> cases origin <;>
    simp [parseHeader, headerRecord, optionalMember, originWord, parseOrigin, Json.normalMembers,
      Json.normal, Json.intField, Json.stringField, boolField, requireString, requireInt, need, ensure,
      SESSION_FORMAT_VERSION, Json.ifInt, Json.ifString, Json.ifBool, bind, Except.bind, hdepth, hsmall]

theorem parseEvent_record {ev : Event} (path : String) (h : ev.seq < 2 ^ 63) :
    parseEvent (Json.normalMembers (eventRecord ev)) path = .ok ev.readBack := by
  have hseq : toSeq (ev.seq : Int) = ev.seq := by
    rw [toSeq, Int.emod_eq_of_lt (by omega) (by omega), Int.toNat_natCast]
  have hsmall : ev.seq < 9223372036854775808 := h
  simp [parseEvent, eventRecord, Json.normalMembers, Json.normal, Json.intField, Json.stringField,
    boolField, requireString, requireInt, need, Json.ifInt, Json.ifString, Json.ifBool, bind,
    Except.bind, hseq, hsmall, Event.readBack]

/-! The backend -/

/-- The files by path, and the buffers of the attached sessions. -/
structure Backend where
  files : SortedMap String Text := ∅
  writers : SortedMap SessionId Text := ∅

def k_flush_threshold : Nat := 64 * 1024

def textSize (t : Text) : Nat := (t.map Char.utf8Size).sum

def recordLine (codec : Codec) (record : Json.Members) : Text := codec.serialize (.obj record) ++ ['\n']

namespace Backend

/-- Opens the log of a session; a session is attached once. -/
def attach (codec : Codec) (b : Backend) (header : Header) : Except String Backend :=
  if b.writers.contains header.id then .error ("session '" ++ header.id ++ "' already attached")
  else
    let contents := match b.files.find? (sessionFile header.id) with
      | none => recordLine codec (headerRecord header)
      | some contents => truncateTornTail contents
    .ok { files := b.files.insert (sessionFile header.id) contents
          writers := b.writers.insert header.id [] }

/-- `drain`: the buffer goes to the end of the file. -/
def drain (b : Backend) (id : SessionId) (buffer : Text) : Backend where
  files := b.files.insert (sessionFile id) ((b.files.find? (sessionFile id)).getD [] ++ buffer)
  writers := b.writers.insert id []

/-- Buffers one event; a session without a writer drops it. -/
def append (codec : Codec) (b : Backend) (id : SessionId) (ev : Event) : Backend :=
  match b.writers.find? id with
  | none => b
  | some buffer =>
    let buffer := buffer ++ recordLine codec (eventRecord ev)
    if k_flush_threshold ≤ textSize buffer then b.drain id buffer
    else { b with writers := b.writers.insert id buffer }

def flush (b : Backend) (id : SessionId) : Backend :=
  match b.writers.find? id with
  | none => b
  | some buffer => b.drain id buffer

def detach (b : Backend) (id : SessionId) : Backend :=
  if b.writers.contains id then { b.flush id with writers := b.writers.erase id } else b

def read (codec : Codec) (b : Backend) (id : SessionId) : Except String (Option StoredSession) :=
  match b.files.find? (sessionFile id) with
  | none => .ok none
  | some contents => (readText codec (sessionFile id) contents).map some

end Backend

section
variable {codec : Codec} {path : String}

theorem recordLine_whole (t : Text) (record : Json.Members) : Whole (t ++ recordLine codec record) :=
  Whole.line t _

theorem readText_header {header : Header} (keeps : codec.Keeps (headerRecord header)) :
    readText codec path (recordLine codec (headerRecord header)) = .ok ⟨header, []⟩ := by
  have hlines : lines (recordLine codec (headerRecord header)) =
      [codec.serialize (.obj (headerRecord header))] := by
    have := lines_concat (t := []) (.inl rfl) keeps.line keeps.filled
    simpa [recordLine, lines, pieces] using this
  have htype : Json.stringField (Json.normalMembers (headerRecord header)) "type" = some "session" := by
    rw [Json.stringField_normalMembers]
    simp [headerRecord, Json.stringField]
  rw [readText, hlines, readRecords, keeps.parses]
  simp only [need, except_ok_bind, Json.normal, Json.ifObject_obj, htype, if_true, Option.isSome_none,
    Bool.false_eq_true, if_false, parseHeader_record, readRecords]

theorem readText_event {t : Text} {stored : StoredSession} {ev : Event} (whole : Whole t)
    (h : readText codec path t = .ok stored) (keeps : codec.Keeps (eventRecord ev))
    (type : ev.type ≠ "session") (seq : ev.seq < 2 ^ 63) :
    readText codec path (t ++ recordLine codec (eventRecord ev)) =
      .ok ⟨stored.header, stored.events ++ [ev.readBack]⟩ := by
  have htype : Json.stringField (Json.normalMembers (eventRecord ev)) "type" = some ev.type := by
    rw [Json.stringField_normalMembers]
    simp [eventRecord, Json.stringField]
  rw [readText, recordLine, lines_concat whole keeps.line keeps.filled, readRecords_append h,
    readRecords, keeps.parses]
  simp only [need, except_ok_bind, Json.normal, Json.ifObject_obj, htype, if_neg type,
    Option.isNone_some, Bool.false_eq_true, if_false, parseEvent_record path seq, readRecords]

end
end Araya.Persistence
