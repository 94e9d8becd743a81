import Araya.Export.Zip
import Araya.Llm.Bridge
import Araya.Persistence.Jsonl
import Araya.Query.Engine
import Mathlib.Data.Prod.Lex

/-!
The files of an exported session: its log, the logs of its descendants and the images they show. The stores and the
trace of the descendants are other services, and parameters here. Entry names are made of the ids.
-/

namespace Araya.Export
open Llm (Bytes getString)
open Sessions (SessionId Header Event)
open Persistence (Codec StoredSession recordLine headerRecord eventRecord)

def utf8 (text : String) : Bytes := text.toUTF8.data.toList

/-! Entry names -/

def keeps (c : UInt8) : Bool :=
  ('A'.toUInt8 ≤ c && c ≤ 'Z'.toUInt8) || ('a'.toUInt8 ≤ c && c ≤ 'z'.toUInt8) ||
    ('0'.toUInt8 ≤ c && c ≤ '9'.toUInt8) || c == '_'.toUInt8 || c == '-'.toUInt8

def sanitizeId (id : String) : Bytes := (utf8 id).map fun c => if keeps c then c else '_'.toUInt8

def extensionFor (mediaType : String) : Bytes :=
  if mediaType = "image/png" then utf8 "png"
  else if mediaType = "image/jpeg" then utf8 "jpg"
  else if mediaType = "image/webp" then utf8 "webp"
  else if mediaType = "image/gif" then utf8 "gif"
  else utf8 "bin"

def rootName : Bytes := utf8 "session.v1.jsonl"

def subagentName (id : SessionId) : Bytes := utf8 "subagents/" ++ sanitizeId id ++ utf8 "/session.v1.jsonl"

def mediaName (id mediaType : String) : Bytes := utf8 "media/" ++ sanitizeId id ++ utf8 "." ++ extensionFor mediaType

theorem dot_not_mem (id : String) : '.'.toUInt8 ∉ sanitizeId id := by
  intro inside
  obtain ⟨c, _, read⟩ := List.mem_map.mp inside
  split at read
  · next kept =>
      subst read
      exact absurd kept (by decide)
  · exact absurd read (by decide)

theorem dot_not_mem_extension (mediaType : String) : '.'.toUInt8 ∉ extensionFor mediaType := by
  unfold extensionFor
  split_ifs <;> decide

theorem rootName_ne_subagent (id : SessionId) : rootName ≠ subagentName id := by
  intro same
  have second := congrArg (·[1]?) same
  simp only [rootName, subagentName, List.append_assoc] at second
  exact absurd second (by rw [List.getElem?_append_left (by decide)]; decide)

theorem media_apart (id mediaType : String) :
    mediaName id mediaType ≠ rootName ∧ ∀ session, mediaName id mediaType ≠ subagentName session := by
  constructor
  · intro same
    have first := congrArg (·[0]?) same
    simp only [mediaName, List.append_assoc] at first
    exact absurd first (by rw [List.getElem?_append_left (by decide)]; decide)
  · intro session same
    have first := congrArg (·[0]?) same
    simp only [mediaName, subagentName, List.append_assoc] at first
    exact absurd first (by
      rw [List.getElem?_append_left (by decide), List.getElem?_append_left (by decide)]; decide)

theorem subagentName_eq_iff {a b : SessionId} : subagentName a = subagentName b ↔ sanitizeId a = sanitizeId b := by
  simp [subagentName]

theorem mediaName_eq_iff {i j m n : String} :
    mediaName i m = mediaName j n ↔ sanitizeId i = sanitizeId j ∧ extensionFor m = extensionFor n := by
  constructor
  · intro same
    have tail : sanitizeId i ++ '.'.toUInt8 :: extensionFor m = sanitizeId j ++ '.'.toUInt8 :: extensionFor n := by
      have dot : utf8 "." = ['.'.toUInt8] := by decide
      simpa [mediaName, dot] using same
    obtain ⟨ids, _, extensions⟩ :=
      (List.append_cons_inj_of_notMem (dot_not_mem i) (dot_not_mem_extension m)).mp tail
    exact ⟨ids, extensions⟩
  · rintro ⟨ids, extensions⟩
    simp only [mediaName, ids, extensions]

/-! The images of a log -/

abbrev Images := SortedSet (String ×ₗ String)

def noteImage (o : Json.Members) (found : Images) : Images :=
  if getString o "type" = "image" ∧ getString o "attachment_id" ≠ "" then
    found.insert (toLex (getString o "attachment_id", getString o "media_type"))
  else found

mutual

def collectImages : Json → Images → Images
  | .arr items, found => collectItems items found
  | .obj o, found => collectMembers o (noteImage o found)
  | .null, found | .bool _, found | .int _, found | .uint _, found | .double _, found | .str _, found => found

def collectItems : List Json → Images → Images
  | [], found => found
  | v :: vs, found => collectItems vs (collectImages v found)

def collectMembers : List (String × Json) → Images → Images
  | [], found => found
  | m :: ms, found => collectMembers ms (collectImages m.2 found)

end

def collectImagesOf (stored : StoredSession) (found : Images) : Images :=
  stored.events.foldl (fun found ev => collectImages ev.data found) found

/-- A value shows an image where an object in it is one and names its attachment. -/
inductive Shows : Json → String → String → Prop
  | image {o : Json.Members} (kind : getString o "type" = "image") (named : getString o "attachment_id" ≠ "") :
    Shows (.obj o) (getString o "attachment_id") (getString o "media_type")
  | member {o : Json.Members} {m : String × Json} {id mediaType : String} (there : m ∈ o) (shows : Shows m.2 id mediaType) :
    Shows (.obj o) id mediaType
  | item {items : List Json} {v : Json} {id mediaType : String} (there : v ∈ items) (shows : Shows v id mediaType) :
    Shows (.arr items) id mediaType

def LogShows (stored : StoredSession) (id mediaType : String) : Prop := ∃ ev ∈ stored.events, Shows ev.data id mediaType

section
variable {id mediaType : String}

theorem mem_noteImage {o : Json.Members} {found : Images} : toLex (id, mediaType) ∈ noteImage o found ↔
    toLex (id, mediaType) ∈ found ∨ (getString o "type" = "image" ∧ getString o "attachment_id" ≠ "" ∧
      id = getString o "attachment_id" ∧ mediaType = getString o "media_type") := by
  unfold noteImage
  split_ifs with image
  · rw [SortedSet.mem_insert, EmbeddingLike.apply_eq_iff_eq, Prod.mk.injEq]
    tauto
  · tauto

theorem shows_arr {items : List Json} : Shows (.arr items) id mediaType ↔ ∃ v ∈ items, Shows v id mediaType := by
  constructor
  · intro shown
    cases shown with
    | item there shows => exact ⟨_, there, shows⟩
  · rintro ⟨v, there, shows⟩
    exact .item there shows

theorem shows_obj {o : Json.Members} : Shows (.obj o) id mediaType ↔
    (getString o "type" = "image" ∧ getString o "attachment_id" ≠ "" ∧ id = getString o "attachment_id" ∧
      mediaType = getString o "media_type") ∨ ∃ m ∈ o, Shows m.2 id mediaType := by
  constructor
  · intro shown
    cases shown with
    | image kind named => exact .inl ⟨kind, named, rfl, rfl⟩
    | member there shows => exact .inr ⟨_, there, shows⟩
  · rintro (⟨kind, named, rfl, rfl⟩ | ⟨m, there, shows⟩)
    · exact .image kind named
    · exact .member there shows

mutual

theorem mem_collectImages : (v : Json) → (found : Images) → (toLex (id, mediaType) ∈ collectImages v found ↔
    toLex (id, mediaType) ∈ found ∨ Shows v id mediaType)
  | .arr items, found => by rw [collectImages, mem_collectItems items found, shows_arr]
  | .obj o, found => by
      rw [collectImages, mem_collectMembers o (noteImage o found), mem_noteImage, shows_obj, or_assoc]
  | .null, found | .bool _, found | .int _, found | .uint _, found | .double _, found | .str _, found => by
      refine ⟨Or.inl, ?_⟩
      rintro (kept | shows)
      · exact kept
      · cases shows

theorem mem_collectItems : (vs : List Json) → (found : Images) → (toLex (id, mediaType) ∈ collectItems vs found ↔
    toLex (id, mediaType) ∈ found ∨ ∃ v ∈ vs, Shows v id mediaType)
  | [], found => by simp [collectItems]
  | v :: vs, found => by
      rw [collectItems, mem_collectItems vs, mem_collectImages v found, or_assoc]
      simp

theorem mem_collectMembers : (ms : List (String × Json)) → (found : Images) →
    (toLex (id, mediaType) ∈ collectMembers ms found ↔
      toLex (id, mediaType) ∈ found ∨ ∃ m ∈ ms, Shows m.2 id mediaType)
  | [], found => by simp [collectMembers]
  | m :: ms, found => by
      rw [collectMembers, mem_collectMembers ms, mem_collectImages m.2 found, or_assoc]
      simp

end

theorem mem_collectImagesOf (stored : StoredSession) (found : Images) :
    toLex (id, mediaType) ∈ collectImagesOf stored found ↔
      toLex (id, mediaType) ∈ found ∨ LogShows stored id mediaType := by
  unfold collectImagesOf LogShows
  generalize stored.events = events
  induction events generalizing found with
  | nil => simp
  | cons ev events ih =>
      rw [List.foldl_cons, ih, mem_collectImages, or_assoc]
      simp

end

/-! The exporter -/

/-- The services it was given; a read of the persistence may throw. -/
structure Exporter where
  store : Option (SessionId → Option StoredSession)
  persistence : Option (SessionId → Except String (Option StoredSession))
  attachments : Option (String → Option Bytes)
  query : Option (SessionId → Option Query.SessionTrace)

def serializeLog (codec : Codec) (stored : StoredSession) : Bytes :=
  utf8 (String.ofList (recordLine codec (headerRecord stored.header) ++
    stored.events.flatMap fun ev => recordLine codec (eventRecord ev)))

structure Gathered where
  seen : SortedSet SessionId
  files : List ZipFile
  images : Images

namespace Exporter
variable (e : Exporter) (codec : Codec)

def load (id : SessionId) : Option StoredSession :=
  match e.store.bind fun get => get id with
  | some live => some live
  | none => e.persistence.bind fun read => (read id).toOption.join

def descendants (session : SessionId) : List SessionId :=
  ((e.query.bind fun trace => trace session).map fun trace => trace.descendants.map (·.node.header.id)).getD []

def addDescendant (g : Gathered) (id : SessionId) : Gathered :=
  if id ∈ g.seen then g
  else match e.load id with
    | none => { g with seen := g.seen.insert id }
    | some stored =>
      { seen := g.seen.insert id, files := g.files ++ [(subagentName id, serializeLog codec stored)]
        images := collectImagesOf stored g.images }

def gather (session : SessionId) (root : StoredSession) (includeDescendants : Bool) : Gathered :=
  let g : Gathered :=
    { seen := (∅ : SortedSet SessionId).insert session, files := [(rootName, serializeLog codec root)]
      images := collectImagesOf root ∅ }
  if includeDescendants then (e.descendants session).foldl (e.addDescendant codec) g else g

def mediaFile (image : String ×ₗ String) : Option ZipFile :=
  (e.attachments.bind fun load => load (ofLex image).1).map fun data =>
    (mediaName (ofLex image).1 (ofLex image).2, data)

/-- What `build_zip` adds to the archive. -/
def entries (session : SessionId) (includeDescendants : Bool) : Except String (List ZipFile) :=
  match e.load session with
  | none => .error ("session not found: " ++ session)
  | some root =>
    let g := e.gather codec session root includeDescendants
    .ok (g.files ++ g.images.toList.filterMap e.mediaFile)

def buildZip (z : Zlib) (session : SessionId) (includeDescendants : Bool) : Except String Bytes :=
  (e.entries codec session includeDescendants).map (archive z)

/-! What is exported -/

variable (session : SessionId) (includeDescendants : Bool)

/-- The session, and with its descendants those whose log can be read. -/
def Exports (id : SessionId) (stored : StoredSession) : Prop :=
  e.load id = some stored ∧ (id = session ∨ includeDescendants = true ∧ id ∈ e.descendants session)

def Attaches (id mediaType : String) (data : Bytes) : Prop :=
  (∃ owner stored, e.Exports session includeDescendants owner stored ∧ LogShows stored id mediaType) ∧
    e.attachments.bind (fun load => load id) = some data

inductive Item where
  | log (id : SessionId)
  | attachment (id : String)

inductive Holds : Item → Bytes → Prop
  | log {id : SessionId} {stored : StoredSession} (exported : e.Exports session includeDescendants id stored) :
    Holds (.log id) (serializeLog codec stored)
  | attachment {id mediaType : String} {data : Bytes} (attached : e.Attaches session includeDescendants id mediaType data) :
    Holds (.attachment id) data

end Exporter

/-- The files of an archive once unpacked: a later entry overwrites the file of an earlier one. -/
def unpacked (files : List ZipFile) : Bytes → Option Bytes :=
  files.foldl (fun disk file => Function.update disk file.1 (some file.2)) fun _ => none

/-- Every log and every attachment has a file of its own, and no two entries have one name. -/
structure Exporter.Complete (e : Exporter) (codec : Codec) (session : SessionId) (includeDescendants : Bool)
    (files : List ZipFile) : Prop where
  apart : (files.map Prod.fst).Nodup
  own : ∃ place : Exporter.Item → Bytes,
    (∀ item data, e.Holds codec session includeDescendants item data → unpacked files (place item) = some data) ∧
      ∀ item item' data data', e.Holds codec session includeDescendants item data →
        e.Holds codec session includeDescendants item' data' → place item = place item' → item = item'

/-- Ids that sanitise alike are the same: those of two descendants, and those of two images with one extension. -/
structure Exporter.NamesApart (e : Exporter) (session : SessionId) (includeDescendants : Bool) : Prop where
  logs : ∀ a b log log', e.Exports session includeDescendants a log → e.Exports session includeDescendants b log' →
    a ≠ session → b ≠ session → sanitizeId a = sanitizeId b → a = b
  images : ∀ i j m n data data', e.Attaches session includeDescendants i m data →
    e.Attaches session includeDescendants j n data' → sanitizeId i = sanitizeId j →
    extensionFor m = extensionFor n → i = j ∧ m = n

/-! The walk over the descendants -/

/-- The walk has come past the sessions of `done`. -/
structure Gathered.Covers (e : Exporter) (codec : Codec) (session : SessionId) (root : StoredSession)
    (done : List SessionId) (g : Gathered) : Prop where
  seen : ∀ x, x ∈ g.seen ↔ x = session ∨ x ∈ done
  files : ∃ logs : List (SessionId × StoredSession), (logs.map Prod.fst).Nodup ∧
    g.files = (rootName, serializeLog codec root) :: logs.map (fun p => (subagentName p.1, serializeLog codec p.2)) ∧
      ∀ x log, (x, log) ∈ logs ↔ x ≠ session ∧ x ∈ done ∧ e.load x = some log
  images : ∀ i m, toLex (i, m) ∈ g.images ↔
    ∃ owner log, e.load owner = some log ∧ (owner = session ∨ owner ∈ done) ∧ LogShows log i m

section
variable {e : Exporter} {codec : Codec} {session : SessionId} {root : StoredSession} {done : List SessionId}
  {g : Gathered}

/-- A session that the walk has seen, or that cannot be read, adds nothing. -/
theorem Gathered.Covers.skip (h : g.Covers e codec session root done) {id : SessionId} {seen : SortedSet SessionId}
    (marked : ∀ x, x ∈ seen ↔ x = id ∨ x ∈ g.seen)
    (nothing : ∀ log, e.load id = some log → id = session ∨ id ∈ done) :
    ({ g with seen } : Gathered).Covers e codec session root (done ++ [id]) := by
  have same : ∀ x log, e.load x = some log → ((x = session ∨ x ∈ done ++ [id]) ↔ (x = session ∨ x ∈ done)) := by
    intro x log found
    rw [List.mem_append, List.mem_singleton]
    constructor
    · rintro (top | old | rfl)
      · exact .inl top
      · exact .inr old
      · exact nothing log found
    · exact Or.imp_right Or.inl
  refine ⟨?_, ?_, ?_⟩
  · intro x
    rw [marked, h.seen, List.mem_append, List.mem_singleton]
    tauto
  · obtain ⟨logs, distinct, files, mem⟩ := h.files
    refine ⟨logs, distinct, files, ?_⟩
    intro x log
    rw [mem]
    constructor
    · rintro ⟨below, old, found⟩
      exact ⟨below, List.mem_append_left _ old, found⟩
    · rintro ⟨below, there, found⟩
      exact ⟨below, ((same x log found).mp (.inr there)).resolve_left below, found⟩
  · intro i m
    rw [h.images]
    constructor
    · rintro ⟨owner, log, found, listed, shows⟩
      exact ⟨owner, log, found, (same owner log found).mpr listed, shows⟩
    · rintro ⟨owner, log, found, listed, shows⟩
      exact ⟨owner, log, found, (same owner log found).mp listed, shows⟩

theorem Gathered.Covers.add (h : g.Covers e codec session root done) {id : SessionId} {stored : StoredSession}
    (fresh : id ∉ g.seen) (found : e.load id = some stored) :
    Gathered.Covers e codec session root (done ++ [id])
      { seen := g.seen.insert id, files := g.files ++ [(subagentName id, serializeLog codec stored)]
        images := collectImagesOf stored g.images } := by
  have below : id ≠ session := fun same => fresh ((h.seen id).mpr (.inl same))
  have new : id ∉ done := fun old => fresh ((h.seen id).mpr (.inr old))
  refine ⟨?_, ?_, ?_⟩
  · intro x
    rw [SortedSet.mem_insert, h.seen, List.mem_append, List.mem_singleton]
    tauto
  · obtain ⟨logs, distinct, files, mem⟩ := h.files
    refine ⟨logs ++ [(id, stored)], ?_, ?_, ?_⟩
    · rw [List.map_append, List.nodup_append]
      refine ⟨distinct, List.nodup_singleton _, ?_⟩
      intro x old y last
      obtain ⟨⟨z, log⟩, there, rfl⟩ := List.mem_map.mp old
      rw [List.map_cons, List.map_nil, List.mem_singleton] at last
      subst last
      rintro rfl
      exact new ((mem z log).mp there).2.1
    · rw [files, List.map_append, List.cons_append]
      rfl
    · intro x log
      rw [List.mem_append, List.mem_singleton, Prod.mk.injEq, mem, List.mem_append, List.mem_singleton]
      constructor
      · rintro (⟨away, old, read⟩ | ⟨rfl, rfl⟩)
        · exact ⟨away, .inl old, read⟩
        · exact ⟨below, .inr rfl, found⟩
      · rintro ⟨away, old | rfl, read⟩
        · exact .inl ⟨away, old, read⟩
        · exact .inr ⟨rfl, Option.some.inj (read.symm.trans found)⟩
  · intro i m
    rw [mem_collectImagesOf, h.images]
    constructor
    · rintro (⟨owner, log, read, listed, shows⟩ | shows)
      · exact ⟨owner, log, read, listed.imp_right (List.mem_append_left _), shows⟩
      · exact ⟨id, stored, found, .inr (List.mem_append_right _ (List.mem_singleton_self _)), shows⟩
    · rintro ⟨owner, log, read, listed, shows⟩
      rw [List.mem_append, List.mem_singleton] at listed
      rcases listed with top | old | rfl
      · exact .inl ⟨owner, log, read, .inl top, shows⟩
      · exact .inl ⟨owner, log, read, .inr old, shows⟩
      · obtain rfl := Option.some.inj (read.symm.trans found)
        exact .inr shows

theorem addDescendant_covers (h : g.Covers e codec session root done) (id : SessionId) :
    (e.addDescendant codec g id).Covers e codec session root (done ++ [id]) := by
  unfold Exporter.addDescendant
  split_ifs with seen
  · have marked : ∀ x, x ∈ g.seen ↔ x = id ∨ x ∈ g.seen := by
      intro x
      exact ⟨Or.inr, Or.rec (fun same => same ▸ seen) fun old => old⟩
    apply h.skip marked
    intro log _
    exact (h.seen id).mp seen
  · split
    · next absent =>
        apply h.skip
        · intro x
          exact SortedSet.mem_insert
        · intro log found
          rw [absent] at found
          exact absurd found (Option.some_ne_none log).symm
    · next stored found => exact h.add seen found

theorem addDescendants_covers (ids : List SessionId) (h : g.Covers e codec session root done) :
    (ids.foldl (e.addDescendant codec) g).Covers e codec session root (done ++ ids) := by
  induction ids generalizing done g with
  | nil =>
      rw [List.append_nil]
      exact h
  | cons id ids ih =>
      have rest := ih (addDescendant_covers h id)
      rwa [List.append_assoc] at rest

theorem gather_covers (codec : Codec) (found : e.load session = some root) (includeDescendants : Bool) :
    (e.gather codec session root includeDescendants).Covers e codec session root
      (if includeDescendants then e.descendants session else []) := by
  have start : Gathered.Covers e codec session root []
      { seen := (∅ : SortedSet SessionId).insert session, files := [(rootName, serializeLog codec root)]
        images := collectImagesOf root ∅ } := by
    refine ⟨?_, ⟨[], List.nodup_nil, rfl, ?_⟩, ?_⟩
    · intro x
      simp
    · simp
    · intro i m
      rw [mem_collectImagesOf]
      simp [found]
  unfold Exporter.gather
  cases includeDescendants with
  | false => exact start
  | true => exact addDescendants_covers _ start

end

/-! The entries -/

/-- The logs below the root, and the images that can be loaded. -/
structure Listed (e : Exporter) (session : SessionId) (includeDescendants : Bool)
    (logs : List (SessionId × StoredSession)) (images : List (String ×ₗ String)) : Prop where
  logs_distinct : (logs.map Prod.fst).Nodup
  images_distinct : images.Nodup
  mem_logs : ∀ x log, (x, log) ∈ logs ↔ x ≠ session ∧ e.Exports session includeDescendants x log
  mem_images : ∀ i m, toLex (i, m) ∈ images ↔ ∃ data, e.Attaches session includeDescendants i m data

section
variable {e : Exporter} {codec : Codec} {session : SessionId} {includeDescendants : Bool} {root : StoredSession}

theorem entries_listed (codec : Codec) (found : e.load session = some root) (includeDescendants : Bool) :
    ∃ logs images, Listed e session includeDescendants logs images ∧
      e.entries codec session includeDescendants = .ok ((rootName, serializeLog codec root) ::
        logs.map (fun p => (subagentName p.1, serializeLog codec p.2)) ++ images.filterMap e.mediaFile) := by
  have h := gather_covers codec found includeDescendants
  have below : ∀ x, x ∈ (if includeDescendants then e.descendants session else []) ↔
      includeDescendants = true ∧ x ∈ e.descendants session := by
    intro x
    cases includeDescendants with
    | false => simp
    | true => simp
  obtain ⟨logs, distinct, files, mem⟩ := h.files
  refine ⟨logs, (e.gather codec session root includeDescendants).images.toList.filter fun image =>
    (e.mediaFile image).isSome, ⟨distinct, (SortedSet.nodup _).filter _, ?_, ?_⟩, ?_⟩
  · intro x log
    rw [mem, below]
    unfold Exporter.Exports
    tauto
  · intro i m
    rw [List.mem_filter, ← SortedSet.mem_def, h.images]
    simp only [below, Exporter.mediaFile, ofLex_toLex, Option.isSome_map, Option.isSome_iff_exists]
    constructor
    · rintro ⟨⟨owner, log, read, listed, shows⟩, data, loaded⟩
      exact ⟨data, ⟨owner, log, ⟨read, listed⟩, shows⟩, loaded⟩
    · rintro ⟨data, ⟨owner, log, ⟨read, listed⟩, shows⟩, loaded⟩
      exact ⟨⟨owner, log, read, listed, shows⟩, data, loaded⟩
  · unfold Exporter.entries
    rw [found]
    simp only [files]
    congr 2
    rw [List.filterMap_filter]
    congr 1
    funext image
    cases e.mediaFile image with
    | none => rfl
    | some file => rfl

variable {logs : List (SessionId × StoredSession)} {images : List (String ×ₗ String)}

def imageName (image : String ×ₗ String) : Bytes := mediaName (ofLex image).1 (ofLex image).2

theorem Listed.mediaFile_eq (h : Listed e session includeDescendants logs images) {image : String ×ₗ String}
    (there : image ∈ images) : ∃ data, e.mediaFile image = some (imageName image, data) ∧
      e.Attaches session includeDescendants (ofLex image).1 (ofLex image).2 data := by
  obtain ⟨data, attached⟩ := (h.mem_images (ofLex image).1 (ofLex image).2).mp there
  refine ⟨data, ?_, attached⟩
  unfold Exporter.mediaFile
  rw [attached.2]
  rfl

theorem Listed.media_names (h : Listed e session includeDescendants logs images) :
    (images.filterMap e.mediaFile).map Prod.fst = images.map imageName := by
  have all : ∀ image ∈ images, (e.mediaFile image).map Prod.fst = some (imageName image) := by
    intro image there
    obtain ⟨data, file, _⟩ := h.mediaFile_eq there
    rw [file]
    rfl
  clear h
  induction images with
  | nil => rfl
  | cons image images ih =>
      rw [List.map_filterMap] at ih ⊢
      simp only [List.filterMap_cons, all image List.mem_cons_self, List.map_cons]
      rw [ih fun other there => all other (List.mem_cons_of_mem _ there)]

theorem Listed.log_names_nodup (h : Listed e session includeDescendants logs images) :
    ((logs.map Prod.fst).map subagentName).Nodup ↔ ∀ a b log log', e.Exports session includeDescendants a log →
      e.Exports session includeDescendants b log' → a ≠ session → b ≠ session → sanitizeId a = sanitizeId b →
      a = b := by
  rw [List.nodup_map_iff_inj_on h.logs_distinct]
  have mem : ∀ x, x ∈ logs.map Prod.fst ↔ ∃ log, x ≠ session ∧ e.Exports session includeDescendants x log := by
    intro x
    rw [List.mem_map]
    constructor
    · rintro ⟨⟨y, log⟩, there, rfl⟩
      exact ⟨log, (h.mem_logs y log).mp there⟩
    · rintro ⟨log, listed⟩
      exact ⟨(x, log), (h.mem_logs x log).mpr listed, rfl⟩
  constructor
  · intro inj a b log log' first second below below' same
    exact inj a ((mem a).mpr ⟨log, below, first⟩) b ((mem b).mpr ⟨log', below', second⟩) (subagentName_eq_iff.mpr same)
  · intro apart a first b second same
    obtain ⟨log, below, first⟩ := (mem a).mp first
    obtain ⟨log', below', second⟩ := (mem b).mp second
    exact apart a b log log' first second below below' (subagentName_eq_iff.mp same)

theorem Listed.image_names_nodup (h : Listed e session includeDescendants logs images) :
    (images.map imageName).Nodup ↔ ∀ i j m n data data', e.Attaches session includeDescendants i m data →
      e.Attaches session includeDescendants j n data' → sanitizeId i = sanitizeId j →
      extensionFor m = extensionFor n → i = j ∧ m = n := by
  rw [List.nodup_map_iff_inj_on h.images_distinct]
  constructor
  · intro inj i j m n data data' first second ids extensions
    have same := inj (toLex (i, m)) ((h.mem_images i m).mpr ⟨data, first⟩) (toLex (j, n))
      ((h.mem_images j n).mpr ⟨data', second⟩) (mediaName_eq_iff.mpr ⟨ids, extensions⟩)
    exact Prod.mk.inj (toLex_inj.mp same)
  · intro apart image there other there' same
    obtain ⟨data, _, first⟩ := h.mediaFile_eq there
    obtain ⟨data', _, second⟩ := h.mediaFile_eq there'
    obtain ⟨ids, extensions⟩ := mediaName_eq_iff.mp same
    obtain ⟨id, mediaType⟩ := apart _ _ _ _ data data' first second ids extensions
    exact ofLex_inj.mp (Prod.ext id mediaType)

theorem Listed.names_nodup (h : Listed e session includeDescendants logs images) :
    (((rootName, serializeLog codec root) :: logs.map (fun p => (subagentName p.1, serializeLog codec p.2)) ++
      images.filterMap e.mediaFile).map Prod.fst).Nodup ↔ e.NamesApart session includeDescendants := by
  have split : ((rootName, serializeLog codec root) :: logs.map (fun p => (subagentName p.1, serializeLog codec p.2)) ++
      images.filterMap e.mediaFile).map Prod.fst =
        rootName :: ((logs.map Prod.fst).map subagentName ++ images.map imageName) := by
    rw [List.cons_append, List.map_cons, List.map_append, h.media_names, List.map_map, List.map_map]
    rfl
  rw [split, List.nodup_cons, List.nodup_append, h.log_names_nodup, h.image_names_nodup]
  constructor
  · rintro ⟨_, logs, images, _⟩
    exact ⟨logs, images⟩
  · rintro ⟨logs, images⟩
    refine ⟨?_, logs, images, ?_⟩
    · intro there
      rcases List.mem_append.mp there with log | image
      · obtain ⟨id, _, same⟩ := List.mem_map.mp log
        exact rootName_ne_subagent id same.symm
      · obtain ⟨image, _, same⟩ := List.mem_map.mp image
        exact (media_apart _ _).1 same
    · intro name log name' image
      obtain ⟨id, _, rfl⟩ := List.mem_map.mp log
      obtain ⟨image, _, rfl⟩ := List.mem_map.mp image
      exact ((media_apart _ _).2 id).symm

/-! Unpacking -/

theorem unpacked_of_mem {files : List ZipFile} (apart : (files.map Prod.fst).Nodup) {name data : Bytes}
    (there : (name, data) ∈ files) : unpacked files name = some data := by
  have kept : ∀ (files : List ZipFile) (disk : Bytes → Option Bytes), name ∉ files.map Prod.fst →
      (files.foldl (fun (disk : Bytes → Option Bytes) file => Function.update disk file.1 (some file.2)) disk) name =
        disk name := by
    intro files
    induction files with
    | nil => exact fun _ _ => rfl
    | cons file files ih =>
        intro disk absent
        rw [List.map_cons, List.mem_cons, not_or] at absent
        rw [List.foldl_cons, ih _ absent.2, Function.update_of_ne absent.1]
  unfold unpacked
  generalize (fun _ => none : Bytes → Option Bytes) = disk
  induction files generalizing disk with
  | nil => exact absurd there List.not_mem_nil
  | cons file files ih =>
      obtain ⟨fresh, apart⟩ := List.nodup_cons.mp apart
      rw [List.foldl_cons]
      rcases List.mem_cons.mp there with rfl | there
      · rw [kept files _ fresh, Function.update_self]
      · exact ih apart there _

/-- Where the entries have an item. -/
noncomputable def Exporter.place (e : Exporter) (session : SessionId) (includeDescendants : Bool) : Exporter.Item → Bytes
  | .log id => if id = session then rootName else subagentName id
  | .attachment id =>
    mediaName id (Classical.epsilon fun mediaType => ∃ data, e.Attaches session includeDescendants id mediaType data)

theorem Exporter.place_attachment (e : Exporter) (session : SessionId) (includeDescendants : Bool) (id : String) :
    ∃ mediaType, e.place session includeDescendants (.attachment id) = mediaName id mediaType := ⟨_, rfl⟩

theorem Listed.holds_mem (h : Listed e session includeDescendants logs images) (found : e.load session = some root)
    {item : Exporter.Item} {data : Bytes} (held : e.Holds codec session includeDescendants item data) :
    (e.place session includeDescendants item, data) ∈ (rootName, serializeLog codec root) ::
      logs.map (fun p => (subagentName p.1, serializeLog codec p.2)) ++ images.filterMap e.mediaFile := by
  cases held with
  | @log id stored exported =>
      rw [Exporter.place]
      split_ifs with top
      · rw [top] at exported
        obtain rfl := Option.some.inj (found.symm.trans exported.1)
        exact List.mem_append_left _ List.mem_cons_self
      · exact List.mem_append_left _ (List.mem_cons_of_mem _
          (List.mem_map.mpr ⟨(id, stored), (h.mem_logs id stored).mpr ⟨top, exported⟩, rfl⟩))
  | @attachment id mediaType data attached =>
      have some : ∃ mediaType data, e.Attaches session includeDescendants id mediaType data := ⟨mediaType, data, attached⟩
      obtain ⟨other, chosen⟩ := Classical.epsilon_spec some
      obtain rfl := Option.some.inj (attached.2.symm.trans chosen.2)
      have there := (h.mem_images id _).mpr ⟨data, chosen⟩
      obtain ⟨data', file, again⟩ := h.mediaFile_eq there
      obtain rfl := Option.some.inj (attached.2.symm.trans again.2)
      exact List.mem_append_right _ (List.mem_filterMap.mpr ⟨_, there, file⟩)

theorem Exporter.NamesApart.place_inj (apart : e.NamesApart session includeDescendants) {item item' : Exporter.Item}
    {data data' : Bytes} (held : e.Holds codec session includeDescendants item data)
    (held' : e.Holds codec session includeDescendants item' data')
    (same : e.place session includeDescendants item = e.place session includeDescendants item') : item = item' := by
  cases held with
  | @log a log exported =>
      cases held' with
      | @log b log' exported' =>
          simp only [Exporter.place] at same
          split_ifs at same with top top' top'
          · rw [top, top']
          · exact absurd same (rootName_ne_subagent b)
          · exact absurd same.symm (rootName_ne_subagent a)
          · rw [apart.logs a b log log' exported exported' top top' (subagentName_eq_iff.mp same)]
      | @attachment j n data' attached' =>
          obtain ⟨chosen, named⟩ := e.place_attachment session includeDescendants j
          rw [named, Exporter.place] at same
          split_ifs at same with top
          · exact absurd same.symm (media_apart _ _).1
          · exact absurd same.symm ((media_apart _ _).2 a)
  | @attachment i m data attached =>
      cases held' with
      | @log b log' exported' =>
          obtain ⟨chosen, named⟩ := e.place_attachment session includeDescendants i
          rw [named, Exporter.place] at same
          split_ifs at same with top
          · exact absurd same (media_apart _ _).1
          · exact absurd same ((media_apart _ _).2 b)
      | @attachment j n data' attached' =>
          have here : ∃ m data, e.Attaches session includeDescendants i m data := ⟨m, data, attached⟩
          have there : ∃ n data, e.Attaches session includeDescendants j n data := ⟨n, data', attached'⟩
          obtain ⟨first, attached⟩ := Classical.epsilon_spec here
          obtain ⟨second, attached'⟩ := Classical.epsilon_spec there
          obtain ⟨ids, extensions⟩ := mediaName_eq_iff.mp same
          rw [(apart.images _ _ _ _ first second attached attached' ids extensions).1]

/-- Each exported log and image has an entry of its own just when the ids stay apart as entry names. -/
theorem own_entries_iff (e : Exporter) (codec : Codec) (z : Zlib) (session : SessionId) (includeDescendants : Bool)
    (known : (e.load session).isSome) : ∃ files, e.entries codec session includeDescendants = .ok files ∧
      e.buildZip codec z session includeDescendants = .ok (archive z files) ∧
      (e.Complete codec session includeDescendants files ↔ e.NamesApart session includeDescendants) := by
  obtain ⟨root, found⟩ := Option.isSome_iff_exists.mp known
  obtain ⟨logs, images, listed, built⟩ := entries_listed codec found includeDescendants
  refine ⟨_, built, ?_, ?_⟩
  · unfold Exporter.buildZip
    rw [built]
    rfl
  · constructor
    · intro complete
      exact listed.names_nodup.mp complete.apart
    · intro apart
      have distinct : (((rootName, serializeLog codec root) ::
          logs.map (fun p => (subagentName p.1, serializeLog codec p.2)) ++ images.filterMap e.mediaFile).map
            Prod.fst).Nodup := listed.names_nodup.mpr apart
      refine ⟨distinct, e.place session includeDescendants, ?_, ?_⟩
      · intro item data held
        exact unpacked_of_mem distinct (listed.holds_mem found held)
      · intro item item' data data' held held' same
        exact apart.place_inj held held' same

end

/-! Two subagents -/

def plainCodec : Codec where
  serialize := Json.render fun _ => ['0']
  parse := fun _ => none

/-- A session with two subagents, whose ids differ in a character that no entry name keeps. -/
def twoSubagents : Exporter where
  store := some fun id => if id = "r" ∨ id = "a/b" ∨ id = "a_b" then some ⟨{ id, createdAt := 0 }, []⟩ else none
  persistence := none
  attachments := none
  query := some fun _ =>
    some { target := { header := { id := "r", createdAt := 0 } }
           descendants := ["a/b", "a_b"].map fun id => { node := { header := { id, createdAt := 0 } } } }

theorem own_entries_subagents : ∃ files, twoSubagents.entries plainCodec "r" true = .ok files ∧
    twoSubagents.buildZip plainCodec storedZlib "r" true = .ok (archive storedZlib files) ∧
      (twoSubagents.Complete plainCodec "r" true files ↔ twoSubagents.NamesApart "r" true) :=
  own_entries_iff twoSubagents plainCodec storedZlib "r" true (by decide)

theorem subagent_overwritten : ¬ ∃ files, twoSubagents.entries plainCodec "r" true = .ok files ∧
    twoSubagents.Complete plainCodec "r" true files := by
  rintro ⟨files, built, complete⟩
  have names : (twoSubagents.entries plainCodec "r" true).toOption.map (fun files => files.map Prod.fst) =
      some [rootName, subagentName "a/b", subagentName "a_b"] := by rfl
  rw [built] at names
  have same : files.map Prod.fst = [rootName, subagentName "a/b", subagentName "a_b"] := Option.some.inj names
  have apart := complete.apart
  rw [same] at apart
  exact absurd apart (by decide)

end Araya.Export
