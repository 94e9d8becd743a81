import Araya.Persistence.Jsonl
import Araya.Llm.Sse
import Araya.Util.Files

/-!
The store of image attachments: a directory of files, each named after the digest of what it holds. A save whose
stream fails after it was opened goes on as if it had written; how much reached the file is an input here.
-/

namespace Araya.Attachment
open Files
open Llm (Bytes)
open Persistence (hexBytes)

/-! Images -/

structure ImageInfo where
  mediaType : String
  width : UInt32 := 0
  height : UInt32 := 0

structure ImageRef where
  attachmentId : Name
  mediaType : String
  bytes : Nat := 0
  width : UInt32 := 0
  height : UInt32 := 0
  name : String

def byteAt (data : Bytes) (index : Nat) : UInt32 := (data.getD index 0).toUInt32

def be32 (data : Bytes) (offset : Nat) : UInt32 :=
  (byteAt data offset <<< 24) ||| (byteAt data (offset + 1) <<< 16) ||| (byteAt data (offset + 2) <<< 8) |||
    byteAt data (offset + 3)

def be16 (data : Bytes) (offset : Nat) : UInt32 := (byteAt data offset <<< 8) ||| byteAt data (offset + 1)

def le16 (data : Bytes) (offset : Nat) : UInt32 := byteAt data offset ||| (byteAt data (offset + 1) <<< 8)

/-- The markers of a JPEG from the cursor on, up to the frame header. -/
def sniffFrame (data : Bytes) (cursor : Nat) : Option ImageInfo :=
  if cursor + 9 < data.length then
    let marker := byteAt data (cursor + 1)
    if byteAt data cursor ≠ 0xFF then sniffFrame data (cursor + 1)
    else if marker = 0x01 ∨ 0xD0 ≤ marker ∧ marker ≤ 0xD7 then sniffFrame data (cursor + 2)
    else if marker = 0xD9 ∨ marker = 0xDA then none
    else if 0xC0 ≤ marker ∧ marker ≤ 0xCF ∧ marker ≠ 0xC4 ∧ marker ≠ 0xC8 ∧ marker ≠ 0xCC then
      some { mediaType := "image/jpeg", width := be16 data (cursor + 7), height := be16 data (cursor + 5) }
    else sniffFrame data (cursor + (2 + (be16 data (cursor + 2)).toNat))
  else none
termination_by data.length - cursor

def sniff (data : Bytes) : Option ImageInfo :=
  if 24 ≤ data.length ∧ data.take 8 = [0x89, 0x50, 0x4E, 0x47, 0x0D, 0x0A, 0x1A, 0x0A] then
    some { mediaType := "image/png", width := be32 data 16, height := be32 data 20 }
  else if 10 ≤ data.length ∧
      (data.take 6 = [0x47, 0x49, 0x46, 0x38, 0x37, 0x61] ∨ data.take 6 = [0x47, 0x49, 0x46, 0x38, 0x39, 0x61]) then
    some { mediaType := "image/gif", width := le16 data 6, height := le16 data 8 }
  else if 4 ≤ data.length ∧ data.take 3 = [0xFF, 0xD8, 0xFF] then sniffFrame data 2
  else none

/-! The service -/

/-- The digest of the crypto library, taken as injective. -/
structure Sha256 where
  digest : Bytes → Bytes
  injective : Function.Injective digest
  filled : ∀ data, digest data ≠ []

def Sha256.hex (sha : Sha256) (data : Bytes) : Name := hexBytes (sha.digest data)

/-- A directory opens as a stream, but has no content: what comes of it is bytes of some kind, or an exception. -/
structure LocalAttachments where
  sha : Sha256
  root : Path
  known : ∀ name ∈ root, Plain name
  readDirectory : Path → Except String Bytes

/-- What the file system does in a save: an error for the root, whether the file opens, and how much of the data it
takes. -/
structure Outcome where
  rootError : Option String := none
  opens : Bool := true
  written : Nat

namespace LocalAttachments
variable (a : LocalAttachments) (disk : Disk Bytes)

def nodeAt (id : Name) : Option (Node Bytes) := (located disk a.root id).bind disk

def createRoot (io : Outcome) : Except String (Disk Bytes) :=
  match io.rootError, createDirectories disk a.root with
  | some error, _ => .error error
  | none, none => .error "Not a directory"
  | none, some disk => .ok disk

def write (id : Name) (data : Bytes) (io : Outcome) : Option (Disk Bytes) :=
  if io.opens then
    (located disk a.root id).map fun path => Function.update disk path (some (.file (data.take io.written)))
  else none

def imageRef (data : Bytes) (info : ImageInfo) (name : String) : ImageRef :=
  { attachmentId := a.sha.hex data, mediaType := info.mediaType, bytes := data.length, width := info.width
    height := info.height, name }

def saveImage (data : Bytes) (mediaType name : String) (io : Outcome) : Except String ImageRef × Disk Bytes :=
  match sniff data with
  | none => (.error "unsupported image format (PNG/JPEG/GIF only)", disk)
  | some info =>
    if mediaType ≠ "" ∧ mediaType ≠ info.mediaType then
      (.error ("declared media type " ++ mediaType ++ " does not match the file signature " ++ info.mediaType), disk)
    else match a.createRoot disk io with
      | .error error => (.error ("cannot create attachment root: " ++ error), disk)
      | .ok disk =>
        if (a.nodeAt disk (a.sha.hex data)).isSome then (.ok (a.imageRef data info name), disk)
        else match a.write disk (a.sha.hex data) data io with
          | none => (.error ("cannot write attachment " ++ String.ofList (a.sha.hex data)), disk)
          | some disk => (.ok (a.imageRef data info name), disk)

def load (attachmentId : Name) : Except String (Option Bytes) :=
  match located disk a.root attachmentId with
  | none => .ok none
  | some path =>
    match disk path with
    | none => .ok none
    | some .directory => (a.readDirectory path).map some
    | some (.file data) => .ok (some data)

end LocalAttachments

/-! Runs -/

inductive StoreEvent where
  | save (data : Bytes) (mediaType name : String) (io : Outcome)
  | load (attachmentId : Name)

namespace LocalAttachments
variable (a : LocalAttachments) (disk : Disk Bytes)

def step : StoreEvent → Disk Bytes
  | .save data mediaType name io => (a.saveImage disk data mediaType name io).2
  | .load _ => disk

def run (events : List StoreEvent) : Disk Bytes := events.foldl a.step disk

/-- What a load gives is nothing, or a file of the store with the digest asked for. -/
def Loads (id : Name) : Prop :=
  a.load disk id = .ok none ∨ ∃ data, a.load disk id = .ok (some data) ∧ a.sha.hex data = id ∧
    ∃ name, located disk a.root id = some (a.root ++ [name])

/-- What the store owes at an event: to a load what it gives, to a save that its data can be loaded from then on. -/
def Owes (disk : Disk Bytes) (rest : List StoreEvent) : StoreEvent → Prop
  | .load id => a.Loads disk id
  | .save data mediaType name io => ∀ ref, (a.saveImage disk data mediaType name io).1 = .ok ref →
      ∀ more, more <+: rest →
        a.load (a.run (a.saveImage disk data mediaType name io).2 more) ref.attachmentId = .ok (some data)

def Upheld : Disk Bytes → List StoreEvent → Prop
  | _, [] => True
  | disk, event :: rest => a.Owes disk rest event ∧ Upheld (a.step disk event) rest

/-- Every file of the store holds what its name says. -/
def Intact : Prop :=
  ∀ name node, disk (a.root ++ [name]) = some node → ∃ data, node = .file data ∧ a.sha.hex data = name

/-- A save that comes to write a file. -/
def Writes (data : Bytes) (mediaType : String) (io : Outcome) : Prop :=
  ∃ info made, sniff data = some info ∧ (mediaType = "" ∨ mediaType = info.mediaType) ∧
    a.createRoot disk io = .ok made ∧ a.nodeAt made (a.sha.hex data) = none ∧ io.opens = true

/-- A save writes all it writes, and a load names a file by its plain name or nothing at all. -/
def Meets : StoreEvent → Prop
  | .save data mediaType _ io => a.Writes disk data mediaType io → data.length ≤ io.written
  | .load id => Plain id ∨ a.nodeAt disk id = none

def AllMeet : Disk Bytes → List StoreEvent → Prop
  | _, [] => True
  | disk, event :: rest => a.Meets disk event ∧ AllMeet (a.step disk event) rest

end LocalAttachments

/-! Digests as names -/

theorem digit_not_special (n : Nat) (small : n < 16) :
    Nat.digitChar n ≠ '.' ∧ Nat.digitChar n ≠ '/' ∧ Nat.digitChar n ≠ '\x00' := by
  have all : ∀ n : Fin 16, Nat.digitChar n ≠ '.' ∧ Nat.digitChar n ≠ '/' ∧ Nat.digitChar n ≠ '\x00' := by decide
  exact all ⟨n, small⟩

theorem mem_hexBytes {bytes : Bytes} {c : Char} (there : c ∈ hexBytes bytes) : ∃ n, n < 16 ∧ c = Nat.digitChar n := by
  obtain ⟨b, _, digit⟩ := List.mem_flatMap.mp there
  have small := b.toNat_lt
  rw [List.mem_cons, List.mem_singleton] at digit
  rcases digit with high | low
  · exact ⟨_, by omega, high⟩
  · exact ⟨_, by omega, low⟩

namespace Sha256
variable (sha : Sha256)

theorem hex_injective : Function.Injective sha.hex := fun _ _ same =>
  sha.injective (Persistence.hexBytes_injective same)

theorem hex_plain (data : Bytes) : Plain (sha.hex data) := by
  have special : ∀ c ∈ sha.hex data, c ≠ '.' ∧ c ≠ '/' ∧ c ≠ '\x00' := by
    intro c there
    obtain ⟨n, small, rfl⟩ := mem_hexBytes there
    exact digit_not_special n small
  have filled : sha.hex data ≠ [] := by
    unfold Sha256.hex
    cases bytes : sha.digest data with
    | nil => exact absurd bytes (sha.filled data)
    | cons b bs => exact List.cons_ne_nil _ _
  refine ⟨filled, ?_, ?_, fun there => (special _ there).2.1 rfl, fun there => (special _ there).2.2 rfl⟩
  · intro same
    exact (special '.' (same ▸ List.mem_cons_self)).1 rfl
  · intro same
    exact (special '.' (same ▸ List.mem_cons_self)).1 rfl

end Sha256

/-! What a save does -/

namespace LocalAttachments

/-- The ways of a save: refused, stored already, failed at opening the file, or written. -/
inductive Saving (a : LocalAttachments) (disk : Disk Bytes) (data : Bytes) (mediaType : String) (io : Outcome) :
    Except String ImageRef → Disk Bytes → Prop
  | refused (error : String) : Saving a disk data mediaType io (.error error) disk
  | unopened (error : String) {made : Disk Bytes} (root : a.createRoot disk io = .ok made) :
    Saving a disk data mediaType io (.error error) made
  | present {ref : ImageRef} {made : Disk Bytes} (root : a.createRoot disk io = .ok made)
    (named : ref.attachmentId = a.sha.hex data) (there : a.nodeAt made (a.sha.hex data) ≠ none) :
    Saving a disk data mediaType io (.ok ref) made
  | written {ref : ImageRef} {made disk' : Disk Bytes} (root : a.createRoot disk io = .ok made)
    (named : ref.attachmentId = a.sha.hex data) (writes : a.Writes disk data mediaType io)
    (done : a.write made (a.sha.hex data) data io = some disk') :
    Saving a disk data mediaType io (.ok ref) disk'

section
variable {a : LocalAttachments} {disk made disk' : Disk Bytes} {data : Bytes} {mediaType name : String} {io : Outcome}

theorem saveImage_saving : Saving a disk data mediaType io (a.saveImage disk data mediaType name io).1
    (a.saveImage disk data mediaType name io).2 := by
  unfold saveImage
  split
  · exact .refused _
  · next info sniffed =>
      split_ifs with mismatch
      · exact .refused _
      · split
        · exact .refused _
        · next made root =>
            split_ifs with there
            · exact .present root rfl (Option.isSome_iff_ne_none.mp there)
            · split
              · exact .unopened _ root
              · next disk' done =>
                  have opened : io.opens = true := by
                    unfold write at done
                    split_ifs at done with opened
                    exact opened
                  have absent := Option.not_isSome_iff_eq_none.mp there
                  refine .written root rfl ⟨info, made, sniffed, ?_, root, absent, opened⟩ done
                  exact or_iff_not_imp_left.mpr fun declared => not_not.mp fun other => mismatch ⟨declared, other⟩

theorem createRoot_made (root : a.createRoot disk io = .ok made) : createDirectories disk a.root = some made := by
  unfold createRoot at root
  split at root
  · exact absurd root (by simp)
  · exact absurd root (by simp)
  · next h =>
      obtain rfl := Except.ok.inj root
      exact h

/-- The directories down to the root are there. -/
def Opened (a : LocalAttachments) (disk : Disk Bytes) : Prop := ∀ path, path <+: a.root → isDirectory disk path = true

theorem createRoot_opened (root : a.createRoot disk io = .ok made) : a.Opened made :=
  fun _ below => createDirectories_open (createRoot_made root) below

theorem not_prefix_root (name : Name) : ¬ a.root ++ [name] <+: a.root := by
  intro below
  have := below.length_le
  simp at this

theorem createRoot_inside (root : a.createRoot disk io = .ok made) (name : Name) :
    made (a.root ++ [name]) = disk (a.root ++ [name]) :=
  createDirectories_rest (createRoot_made root) (not_prefix_root name)

theorem located_hex (opened : a.Opened disk) (data : Bytes) :
    located disk a.root (a.sha.hex data) = some (a.root ++ [a.sha.hex data]) :=
  located_below a.known (a.sha.hex_plain data) opened

theorem write_eq (opened : a.Opened made) (done : a.write made (a.sha.hex data) data io = some disk') :
    disk' = Function.update made (a.root ++ [a.sha.hex data]) (some (.file (data.take io.written))) := by
  unfold write at done
  split_ifs at done
  rw [located_hex opened, Option.map_some, Option.some.injEq] at done
  exact done.symm

theorem write_succeeds (opened : a.Opened made) (opens : io.opens = true) :
    a.write made (a.sha.hex data) data io =
      some (Function.update made (a.root ++ [a.sha.hex data]) (some (.file (data.take io.written)))) := by
  unfold write
  rw [if_pos opens, located_hex opened, Option.map_some]

theorem nodeAt_hex (opened : a.Opened disk) (data : Bytes) :
    a.nodeAt disk (a.sha.hex data) = disk (a.root ++ [a.sha.hex data]) := by
  unfold nodeAt
  rw [located_hex opened, Option.bind_some]

theorem load_file {id : Name} {path : Path} {bytes : Bytes} (found : located disk a.root id = some path)
    (node : disk path = some (.file bytes)) : a.load disk id = .ok (some bytes) := by
  unfold load
  simp only [found, node]

theorem load_nothing_iff {id : Name} : a.load disk id = .ok none ↔ a.nodeAt disk id = none := by
  unfold load nodeAt
  cases found : located disk a.root id with
  | none => simp
  | some path =>
      cases node : disk path with
      | none => simp [node]
      | some node' =>
          cases node' with
          | directory => cases read : a.readDirectory path <;> simp [node, read, Except.map]
          | file data => simp [node]

theorem load_hex (opened : a.Opened disk) {bytes : Bytes}
    (node : disk (a.root ++ [a.sha.hex data]) = some (.file bytes)) :
    a.load disk (a.sha.hex data) = .ok (some bytes) :=
  load_file (located_hex opened data) node

/-- A save that comes to write reports success, whatever reached the file. -/
theorem saveImage_writes (writes : a.Writes disk data mediaType io) (name : String) :
    ∃ ref made, (a.saveImage disk data mediaType name io).1 = .ok ref ∧ ref.attachmentId = a.sha.hex data ∧
      a.Opened made ∧ (a.saveImage disk data mediaType name io).2 =
        Function.update made (a.root ++ [a.sha.hex data]) (some (.file (data.take io.written))) := by
  obtain ⟨info, made, sniffed, declared, root, absent, opens⟩ := writes
  have opened := createRoot_opened root
  have accepted : ¬ (mediaType ≠ "" ∧ mediaType ≠ info.mediaType) := by
    rintro ⟨given, other⟩
    exact declared.elim given other
  have missing : ¬ (a.nodeAt made (a.sha.hex data)).isSome := by
    rw [absent]
    exact Bool.false_ne_true
  refine ⟨a.imageRef data info name, made, ?_, rfl, opened, ?_⟩
  · unfold saveImage
    simp only [sniffed, if_neg accepted, root, if_neg missing, write_succeeds opened opens]
  · unfold saveImage
    simp only [sniffed, if_neg accepted, root, if_neg missing, write_succeeds opened opens]

/-! Intact stores -/

theorem Intact.created (intact : a.Intact disk) (root : a.createRoot disk io = .ok made) : a.Intact made := by
  intro name node there
  rw [createRoot_inside root] at there
  exact intact name node there

theorem loads_iff (intact : a.Intact disk) {id : Name} : a.Loads disk id ↔ Plain id ∨ a.nodeAt disk id = none := by
  constructor
  · rintro (nothing | ⟨data, _, same, _⟩)
    · exact .inr (load_nothing_iff.mp nothing)
    · rw [← same]
      exact .inl (a.sha.hex_plain data)
  · rintro (plain | absent)
    · cases found : located disk a.root id with
      | none =>
          left
          rw [load_nothing_iff, nodeAt, found, Option.bind_none]
      | some path =>
          have inside := located_plain a.known plain found
          cases node : disk path with
          | none =>
              left
              rw [load_nothing_iff, nodeAt, found, Option.bind_some, node]
          | some node' =>
              rw [inside] at node found
              obtain ⟨data, rfl, same⟩ := intact id node' node
              exact .inr ⟨data, load_file found node, same, id, found⟩
    · exact .inl (load_nothing_iff.mpr absent)

/-- The data of a save is there to be loaded. -/
structure Holds (a : LocalAttachments) (disk : Disk Bytes) (data : Bytes) : Prop where
  opened : a.Opened disk
  file : disk (a.root ++ [a.sha.hex data]) = some (.file data)

theorem Holds.load (h : a.Holds disk data) : a.load disk (a.sha.hex data) = .ok (some data) :=
  load_hex h.opened h.file

theorem opened_update (opened : a.Opened made) (id : Name) (node : Option (Node Bytes)) :
    a.Opened (Function.update made (a.root ++ [id]) node) := by
  intro path below
  have other : path ≠ a.root ++ [id] := fun same => not_prefix_root id (same ▸ below)
  have := opened path below
  unfold isDirectory at this ⊢
  rwa [Function.update_of_ne other]

theorem Holds.save {kept : Bytes} (h : a.Holds disk kept) :
    a.Holds (a.saveImage disk data mediaType name io).2 kept := by
  have saving : Saving a disk data mediaType io (a.saveImage disk data mediaType name io).1
      (a.saveImage disk data mediaType name io).2 := saveImage_saving
  generalize (a.saveImage disk data mediaType name io).1 = result at saving
  generalize (a.saveImage disk data mediaType name io).2 = disk' at saving
  cases saving with
  | refused error => exact h
  | unopened error root => exact ⟨createRoot_opened root, (createRoot_inside root _).trans h.file⟩
  | present root named there => exact ⟨createRoot_opened root, (createRoot_inside root _).trans h.file⟩
  | @written ref made disk' root named writes done =>
      have opened := createRoot_opened root
      rw [write_eq opened done]
      refine ⟨opened_update opened _ _, ?_⟩
      obtain ⟨_, made', _, _, root', absent, _⟩ := writes
      obtain rfl := Except.ok.inj (root.symm.trans root')
      rw [nodeAt_hex opened] at absent
      have other : a.root ++ [a.sha.hex kept] ≠ a.root ++ [a.sha.hex data] := by
        intro same
        rw [← same, createRoot_inside root, h.file] at absent
        exact absurd absent (Option.some_ne_none _)
      rw [Function.update_of_ne other, createRoot_inside root, h.file]

theorem Holds.run {kept : Bytes} (h : a.Holds disk kept) (events : List StoreEvent) :
    a.Holds (a.run disk events) kept := by
  unfold LocalAttachments.run
  induction events generalizing disk with
  | nil => exact h
  | cons event events ih =>
      rw [List.foldl_cons]
      cases event with
      | save data mediaType name io => exact ih h.save
      | load id => exact ih h

/-- A save that writes all of its data leaves an intact store behind, and holds what it reports. -/
theorem Intact.save (intact : a.Intact disk) (whole : a.Writes disk data mediaType io → data.length ≤ io.written) :
    a.Intact (a.saveImage disk data mediaType name io).2 ∧
      ∀ ref, (a.saveImage disk data mediaType name io).1 = .ok ref →
        ref.attachmentId = a.sha.hex data ∧ a.Holds (a.saveImage disk data mediaType name io).2 data := by
  have saving : Saving a disk data mediaType io (a.saveImage disk data mediaType name io).1
      (a.saveImage disk data mediaType name io).2 := saveImage_saving
  generalize (a.saveImage disk data mediaType name io).1 = result at saving
  generalize (a.saveImage disk data mediaType name io).2 = disk' at saving
  cases saving with
  | refused error =>
      refine ⟨intact, ?_⟩
      intro ref same
      cases same
  | unopened error root =>
      refine ⟨intact.created root, ?_⟩
      intro ref same
      cases same
  | @present ref made root named there =>
      refine ⟨intact.created root, ?_⟩
      rintro _ ⟨⟩
      have opened := createRoot_opened root
      rw [nodeAt_hex opened] at there
      obtain ⟨node, found⟩ := Option.ne_none_iff_exists'.mp there
      obtain ⟨other, rfl, same⟩ := intact.created root _ node found
      rw [a.sha.hex_injective same] at found
      exact ⟨named, opened, found⟩
  | @written ref made disk' root named writes done =>
      have opened := createRoot_opened root
      have all : data.take io.written = data := List.take_of_length_le (whole writes)
      have disk_eq := write_eq opened done
      rw [all] at disk_eq
      subst disk_eq
      constructor
      · intro other node there
        by_cases same : a.root ++ [other] = a.root ++ [a.sha.hex data]
        · rw [same, Function.update_self] at there
          have last : other = a.sha.hex data := List.singleton_inj.mp (List.append_cancel_left same)
          exact ⟨data, (Option.some.inj there).symm, last.symm⟩
        · rw [Function.update_of_ne same] at there
          exact intact.created root other node there
      · rintro _ ⟨⟩
        exact ⟨named, opened_update opened _ _, Function.update_self _ _ _⟩

/-! Whole runs -/

theorem owes_iff (intact : a.Intact disk) (rest : List StoreEvent) (event : StoreEvent) :
    a.Owes disk rest event ↔ a.Meets disk event := by
  cases event with
  | load id => exact loads_iff intact
  | save data mediaType name io =>
      constructor
      · intro owes writes
        obtain ⟨ref, made, saved, named, opened, after⟩ := saveImage_writes writes name
        have back := owes ref saved [] List.nil_prefix
        rw [after, named] at back
        have cut := load_hex (opened_update opened _ _) (Function.update_self (a.root ++ [a.sha.hex data])
          (some (Node.file (data.take io.written))) made)
        have whole : data.take io.written = data := Option.some.inj (Except.ok.inj (cut.symm.trans back))
        have size := congrArg List.length whole
        rw [List.length_take] at size
        omega
      · intro whole ref saved more _
        obtain ⟨named, held⟩ := (intact.save whole).2 ref saved
        rw [named]
        exact (held.run more).load

theorem Intact.step (intact : a.Intact disk) {event : StoreEvent} (meets : a.Meets disk event) :
    a.Intact (a.step disk event) := by
  cases event with
  | load id => exact intact
  | save data mediaType name io => exact (intact.save meets).1

/-- The store keeps what it owes in a run just when all its writes are whole and its loads are for plain names. -/
theorem store_integrity_iff (a : LocalAttachments) (disk : Disk Bytes) (intact : a.Intact disk)
    (events : List StoreEvent) : a.Upheld disk events ↔ a.AllMeet disk events := by
  induction events generalizing disk with
  | nil => exact Iff.rfl
  | cons event rest ih =>
      rw [Upheld, AllMeet, owes_iff intact]
      constructor
      · rintro ⟨meets, upheld⟩
        exact ⟨meets, (ih _ (intact.step meets)).mp upheld⟩
      · rintro ⟨meets, rest⟩
        exact ⟨meets, (ih _ (intact.step meets)).mpr rest⟩

end

end LocalAttachments

/-! A picture -/

/-- The header of a picture three wide and two high. -/
def picture : Bytes :=
  [0x89, 0x50, 0x4E, 0x47, 0x0D, 0x0A, 0x1A, 0x0A, 0, 0, 0, 13, 0x49, 0x48, 0x44, 0x52, 0, 0, 0, 3, 0, 0, 0, 2]

/-- The SHA-256 of the picture. -/
def pictureDigest : Bytes :=
  [251, 255, 61, 35, 179, 66, 61, 54, 16, 199, 167, 13, 223, 202, 193, 196, 112, 190, 113, 216, 244, 86, 215, 89, 117,
    175, 224, 225, 134, 43, 105, 152]

def digestAs (data : Bytes) : Bytes := if data = picture then pictureDigest else 0 :: data

theorem digestAs_injective : Function.Injective digestAs := by
  intro a b same
  unfold digestAs at same
  split_ifs at same with first second second
  · rw [first, second]
  · exact absurd (List.cons.inj same).1 (by decide)
  · exact absurd (List.cons.inj same).1 (by decide)
  · exact (List.cons.inj same).2

theorem digestAs_filled (data : Bytes) : digestAs data ≠ [] := by
  unfold digestAs
  split_ifs
  · decide
  · exact List.cons_ne_nil _ _

theorem pictures_known : ∀ name ∈ [['s']], Plain name := by decide

/-- The store in the directory `s`. -/
def pictures : LocalAttachments where
  sha := ⟨digestAs, digestAs_injective, digestAs_filled⟩
  root := [['s']]
  known := pictures_known
  readDirectory := fun _ => .error "basic_string::_M_replace_aux"

/-- Beside the store stands a file `n`. -/
def notesBeside : Disk Bytes := fun path =>
  if path = [] ∨ path = [['s']] then some .directory else if path = [['n']] then some (.file [1]) else none

theorem notesBeside_intact : pictures.Intact notesBeside := by
  intro name node there
  simp [notesBeside, pictures] at there

theorem store_integrity_picture : pictures.Upheld notesBeside [.save picture "" "p" { written := 24 }] ↔
    pictures.AllMeet notesBeside [.save picture "" "p" { written := 24 }] :=
  LocalAttachments.store_integrity_iff pictures notesBeside notesBeside_intact _

/-- A save cut short after ten bytes, and a load that leads out of the store. -/
theorem store_broken : pictures.Intact notesBeside ∧
    ¬ pictures.Upheld notesBeside [.save picture "" "p" { written := 10 }] ∧
      ¬ pictures.Upheld notesBeside [.load ['.', '.', '/', 'n']] := by
  refine ⟨notesBeside_intact, ?_, ?_⟩
  · rintro ⟨owes, _⟩
    have whole := (LocalAttachments.owes_iff notesBeside_intact _ _).mp owes
    have writes : pictures.Writes notesBeside picture "" { written := 10 } :=
      ⟨_, _, rfl, .inl rfl, rfl, rfl, rfl⟩
    exact absurd (whole writes) (by decide)
  · rintro ⟨loads, _⟩
    rcases (LocalAttachments.loads_iff notesBeside_intact).mp loads with plain | absent
    · exact plain.no_separator (by decide)
    · exact absurd absent (Option.some_ne_none _)

end Araya.Attachment
