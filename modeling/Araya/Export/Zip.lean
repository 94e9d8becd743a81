import Araya.Llm.Sse
import Araya.Util.Words
import Mathlib.Data.List.Forall2

/-!
The archive writer of the session export, and a reader of archives. Every file stands behind a header of its own; the
directory repeats the headers with the offsets, and the end record says where the directory is.
-/

namespace Araya.Export
open Llm (Bytes)

/-- The compression library. -/
structure Zlib where
  deflate : Bytes → Bytes
  inflate : Bytes → Option Bytes
  crc32 : Bytes → UInt32
  undoes : ∀ data, inflate (deflate data) = some data

structure ZipEntry where
  name : Bytes
  payload : Bytes
  crc : UInt32
  compressed : UInt32
  uncompressed : UInt32
  offset : UInt32
  method : UInt16

structure ZipWriter where
  out : Bytes := []
  entries : List ZipEntry := []

def dosDate : UInt16 := 0x0021

/-- What both headers have in common: from the method to the length of the name, and no extra field. -/
def ZipEntry.fields (r : ZipEntry) : Bytes :=
  put16 r.method ++ put16 0 ++ put16 dosDate ++ put32 r.crc ++ put32 r.compressed ++ put32 r.uncompressed ++
    put16 (UInt16.ofNat r.name.length) ++ put16 0

def writeLocalHeader (r : ZipEntry) : Bytes := put32 0x04034b50 ++ put16 20 ++ put16 0 ++ r.fields ++ r.name

def writeCentralHeader (r : ZipEntry) : Bytes :=
  put32 0x02014b50 ++ put16 20 ++ put16 20 ++ put16 0 ++ r.fields ++ put16 0 ++ put16 0 ++ put16 0 ++ put32 0 ++
    put32 r.offset ++ r.name

namespace ZipWriter
variable (z : Zlib) (w : ZipWriter)

/-- The record of a file: deflated where that is shorter, and else stored. -/
def record (name data : Bytes) : ZipEntry :=
  let deflated := z.deflate data
  if deflated.length < data.length then
    { name, payload := deflated, crc := z.crc32 data, compressed := UInt32.ofNat deflated.length
      uncompressed := UInt32.ofNat data.length, offset := UInt32.ofNat w.out.length, method := 8 }
  else
    { name, payload := data, crc := z.crc32 data, compressed := UInt32.ofNat data.length
      uncompressed := UInt32.ofNat data.length, offset := UInt32.ofNat w.out.length, method := 0 }

def add (name data : Bytes) : ZipWriter :=
  let r := w.record z name data
  { out := w.out ++ writeLocalHeader r ++ r.payload, entries := w.entries ++ [r] }

def directory : Bytes := w.entries.flatMap writeCentralHeader

def finish : Bytes :=
  let directoryOffset := UInt32.ofNat w.out.length
  let directorySize := UInt32.ofNat (w.out ++ w.directory).length - directoryOffset
  w.out ++ w.directory ++ (put32 0x06054b50 ++ put16 0 ++ put16 0 ++ put16 (UInt16.ofNat w.entries.length) ++
    put16 (UInt16.ofNat w.entries.length) ++ put32 directorySize ++ put32 directoryOffset ++ put16 0)

end ZipWriter

abbrev ZipFile := Bytes × Bytes

def zipWriter (z : Zlib) (files : List ZipFile) : ZipWriter := files.foldl (fun w file => w.add z file.1 file.2) {}

def archive (z : Zlib) (files : List ZipFile) : Bytes := (zipWriter z files).finish

/-! A reader of archives -/

/-- What a header says of its file. -/
structure ZipHeader where
  method : Nat
  crc : Nat
  compressed : Nat
  uncompressed : Nat
  nameLength : Nat
  extraLength : Nat
  deriving DecidableEq

structure EndRecord where
  entries : Nat
  directorySize : Nat
  directoryOffset : Nat

def readFields (s : Bytes) : Option (ZipHeader × Bytes) := do
  let (method, s) ← take16 s
  let (_, s) ← take16 s
  let (_, s) ← take16 s
  let (crc, s) ← take32 s
  let (compressed, s) ← take32 s
  let (uncompressed, s) ← take32 s
  let (nameLength, s) ← take16 s
  let (extraLength, s) ← take16 s
  some (⟨method, crc, compressed, uncompressed, nameLength, extraLength⟩, s)

/-- An entry of the directory: its header, the name and the offset. -/
def readCentral (s : Bytes) : Option ((ZipHeader × Bytes × Nat) × Bytes) := do
  let (signature, s) ← take32 s
  let (_, s) ← take16 s
  let (_, s) ← take16 s
  let (_, s) ← take16 s
  let (header, s) ← readFields s
  let (commentLength, s) ← take16 s
  let (_, s) ← take16 s
  let (_, s) ← take16 s
  let (_, s) ← take32 s
  let (offset, s) ← take32 s
  let (name, s) ← takeBytes header.nameLength s
  let (_, s) ← takeBytes (header.extraLength + commentLength) s
  if signature = 0x02014b50 then some ((header, name, offset), s) else none

def readDirectory : Nat → Bytes → Option (List (ZipHeader × Bytes × Nat) × Bytes)
  | 0, s => some ([], s)
  | n + 1, s => do
    let (entry, s) ← readCentral s
    let (entries, s) ← readDirectory n s
    some (entry :: entries, s)

def unpack (z : Zlib) (method : Nat) (payload : Bytes) : Option Bytes :=
  if method = 8 then z.inflate payload else if method = 0 then some payload else none

/-- The file of a directory entry. Its own header must say the same, and its size and checksum must be right. -/
def readFile (z : Zlib) (text : Bytes) (entry : ZipHeader × Bytes × Nat) : Option ZipFile := do
  let (signature, s) ← take32 (text.drop entry.2.2)
  let (_, s) ← take16 s
  let (_, s) ← take16 s
  let (header, s) ← readFields s
  let (name, s) ← takeBytes header.nameLength s
  let (_, s) ← takeBytes header.extraLength s
  let (payload, _) ← takeBytes header.compressed s
  let data ← unpack z header.method payload
  if signature = 0x04034b50 ∧ header = entry.1 ∧ name = entry.2.1 ∧ data.length = header.uncompressed ∧
    (z.crc32 data).toNat = header.crc then some (name, data) else none

/-- The end record is what the last 22 bytes are. -/
def readEnd (text : Bytes) : Option EndRecord := do
  let (signature, s) ← take32 (text.drop (text.length - 22))
  let (_, s) ← take16 s
  let (_, s) ← take16 s
  let (here, s) ← take16 s
  let (entries, s) ← take16 s
  let (directorySize, s) ← take32 s
  let (directoryOffset, s) ← take32 s
  let (commentLength, _) ← take16 s
  if signature = 0x06054b50 ∧ here = entries ∧ commentLength = 0 then some ⟨entries, directorySize, directoryOffset⟩ else none

/-- The directory stands where the end record says, and has as many entries and bytes. -/
def unzip (z : Zlib) (text : Bytes) : Option (List ZipFile) := do
  let last ← readEnd text
  let (entries, s) ← readDirectory last.entries (text.drop last.directoryOffset)
  if last.directoryOffset + last.directorySize + 22 = text.length ∧ s.length = 22 then entries.mapM (readFile z text) else none

/-! Headers -/

def ZipEntry.header (r : ZipEntry) : ZipHeader where
  method := r.method.toNat
  crc := r.crc.toNat
  compressed := r.compressed.toNat
  uncompressed := r.uncompressed.toNat
  nameLength := (UInt16.ofNat r.name.length).toNat
  extraLength := 0

section
variable {z : Zlib} {w : ZipWriter} {r : ZipEntry} {file : ZipFile} {files before : List ZipFile} {text : Bytes}

theorem readFields_fields (r : ZipEntry) (rest : Bytes) : readFields (r.fields ++ rest) = some (r.header, rest) := by
  simp only [readFields, ZipEntry.fields, List.append_assoc, take16_put16, take32_put32, Option.bind_eq_bind, Option.bind_some]
  rfl

theorem nameLength_eq (short : r.name.length < 2 ^ 16) : r.header.nameLength = r.name.length :=
  UInt16.toNat_ofNat_of_lt' short

theorem readCentral_write (short : r.name.length < 2 ^ 16) (rest : Bytes) :
    readCentral (writeCentralHeader r ++ rest) = some ((r.header, r.name, r.offset.toNat), rest) := by
  have none : takeBytes (r.header.extraLength + 0) rest = some ([], rest) := takeBytes_append rest []
  simp only [readCentral, writeCentralHeader, List.append_assoc, take16_put16, take32_put32, readFields_fields,
    Option.bind_eq_bind, Option.bind_some, nameLength_eq short, takeBytes_append, UInt16.toNat_zero, none]
  exact if_pos rfl

theorem readDirectory_write {entries : List ZipEntry} (short : ∀ r ∈ entries, r.name.length < 2 ^ 16) (rest : Bytes) :
    readDirectory entries.length (entries.flatMap writeCentralHeader ++ rest) =
      some (entries.map fun r => (r.header, r.name, r.offset.toNat), rest) := by
  induction entries with
  | nil => rfl
  | cons r entries ih =>
      have later := ih fun r' member => short r' (List.mem_cons_of_mem r member)
      simp only [List.length_cons, readDirectory, List.flatMap_cons, List.append_assoc,
        readCentral_write (short r List.mem_cons_self), later, Option.bind_eq_bind, Option.bind_some]
      rfl

theorem writeLocalHeader_length (r : ZipEntry) : (writeLocalHeader r).length = 30 + r.name.length := by
  simp only [writeLocalHeader, ZipEntry.fields, List.length_append, put16_length, put32_length]

/-! Where the files are -/

/-- A record stands in the text with its file behind it, and every number in it is that of the bytes. -/
structure Placed (z : Zlib) (text : Bytes) (r : ZipEntry) (file : ZipFile) : Prop where
  name : r.name = file.1
  nameLength : r.header.nameLength = file.1.length
  crc : r.crc = z.crc32 file.2
  uncompressed : r.uncompressed.toNat = file.2.length
  compressed : r.compressed.toNat = r.payload.length
  payload : r.method = 8 ∧ r.payload = z.deflate file.2 ∨ r.method = 0 ∧ r.payload = file.2
  place : ∃ front back, text = front ++ (writeLocalHeader r ++ (r.payload ++ back)) ∧ r.offset.toNat = front.length

theorem Placed.grow (h : Placed z text r file) (more : Bytes) : Placed z (text ++ more) r file := by
  obtain ⟨front, back, rfl, offset⟩ := h.place
  refine ⟨h.name, h.nameLength, h.crc, h.uncompressed, h.compressed, h.payload, front, back ++ more, ?_, offset⟩
  simp only [List.append_assoc]

theorem add_placed (short : file.1.length < 2 ^ 16) (small : file.2.length < 2 ^ 32) (room : w.out.length < 2 ^ 32) :
    Placed z (w.add z file.1 file.2).out (w.record z file.1 file.2) file := by
  have place : ∃ front back, (w.add z file.1 file.2).out = front ++ (writeLocalHeader (w.record z file.1 file.2) ++
      ((w.record z file.1 file.2).payload ++ back)) ∧ UInt32.toNat (UInt32.ofNat w.out.length) = front.length := by
    refine ⟨w.out, [], ?_, UInt32.toNat_ofNat_of_lt' room⟩
    rw [List.append_nil, ← List.append_assoc]
    rfl
  have length : (UInt16.ofNat file.1.length).toNat = file.1.length := UInt16.toNat_ofNat_of_lt' short
  have size : (UInt32.ofNat file.2.length).toNat = file.2.length := UInt32.toNat_ofNat_of_lt' small
  revert place
  unfold ZipWriter.record
  dsimp only
  split
  · rename_i shorter
    intro place
    exact ⟨rfl, length, rfl, size, UInt32.toNat_ofNat_of_lt' (Nat.lt_trans shorter small), .inl ⟨rfl, rfl⟩, place⟩
  · intro place
    exact ⟨rfl, length, rfl, size, size, .inr ⟨rfl, rfl⟩, place⟩

theorem out_grows (files : List ZipFile) (w : ZipWriter) :
    ∃ more, (files.foldl (fun w file => w.add z file.1 file.2) w).out = w.out ++ more := by
  induction files generalizing w with
  | nil => exact ⟨[], (List.append_nil _).symm⟩
  | cons file files ih =>
      obtain ⟨more, grown⟩ := ih (w.add z file.1 file.2)
      refine ⟨writeLocalHeader (w.record z file.1 file.2) ++ ((w.record z file.1 file.2).payload ++ more), ?_⟩
      rw [List.foldl_cons, grown]
      simp only [ZipWriter.add, List.append_assoc]

theorem all_placed (short : ∀ file ∈ files, file.1.length < 2 ^ 16) (small : ∀ file ∈ files, file.2.length < 2 ^ 32)
    (room : (files.foldl (fun w file => w.add z file.1 file.2) w).out.length < 2 ^ 32)
    (placed : List.Forall₂ (Placed z w.out) w.entries before) :
    List.Forall₂ (Placed z (files.foldl (fun w file => w.add z file.1 file.2) w).out)
      (files.foldl (fun w file => w.add z file.1 file.2) w).entries (before ++ files) := by
  induction files generalizing w before with
  | nil => rwa [List.append_nil]
  | cons file files ih =>
      have here : w.out.length < 2 ^ 32 := by
        obtain ⟨more, grown⟩ := out_grows (z := z) (file :: files) w
        rw [grown, List.length_append] at room
        omega
      have next : List.Forall₂ (Placed z (w.add z file.1 file.2).out) (w.add z file.1 file.2).entries (before ++ [file]) := by
        refine List.rel_append (placed.imp fun r old h => ?_) (.cons ?_ .nil)
        · have grown := h.grow (writeLocalHeader (w.record z file.1 file.2) ++ (w.record z file.1 file.2).payload)
          rwa [← List.append_assoc] at grown
        · exact add_placed (short file List.mem_cons_self) (small file List.mem_cons_self) here
      have later := ih (fun file' member => short file' (List.mem_cons_of_mem file member))
        (fun file' member => small file' (List.mem_cons_of_mem file member)) room next
      rwa [List.append_assoc] at later

theorem readFile_placed (h : Placed z text r file) : readFile z text (r.header, r.name, r.offset.toNat) = some file := by
  obtain ⟨front, back, rfl, offset⟩ := h.place
  have there : (front ++ (writeLocalHeader r ++ (r.payload ++ back))).drop r.offset.toNat =
      writeLocalHeader r ++ (r.payload ++ back) := by
    rw [offset, List.drop_left]
  have none (rest : Bytes) : takeBytes r.header.extraLength rest = some ([], rest) := takeBytes_append rest []
  have name (rest : Bytes) : takeBytes r.header.nameLength (r.name ++ rest) = some (r.name, rest) := by
    rw [h.nameLength, ← h.name, takeBytes_append]
  have payload : takeBytes r.header.compressed (r.payload ++ back) = some (r.payload, back) := by
    have size : r.header.compressed = r.payload.length := h.compressed
    rw [size, takeBytes_append]
  have data : unpack z r.header.method r.payload = some file.2 := by
    unfold unpack
    obtain ⟨method, same⟩ | ⟨method, same⟩ := h.payload
    · have deflated : r.header.method = 8 := congrArg UInt16.toNat method
      rw [if_pos deflated, same, z.undoes]
    · have stored : r.header.method = 0 := congrArg UInt16.toNat method
      rw [stored, if_neg (by decide), if_pos rfl, same]
  unfold readFile
  dsimp only
  rw [there]
  simp only [writeLocalHeader, List.append_assoc, take16_put16, take32_put32, readFields_fields, Option.bind_eq_bind,
    Option.bind_some, name, none, payload, data]
  rw [if_pos ⟨rfl, trivial, trivial, h.uncompressed.symm, congrArg UInt32.toNat h.crc.symm⟩, h.name]

/-! The archive -/

/-- The end record of an archive has its counts and the place of its directory. -/
theorem readEnd_finish (few : w.entries.length < 2 ^ 16) (room : w.finish.length < 2 ^ 32) :
    readEnd w.finish = some ⟨w.entries.length, w.directory.length, w.out.length⟩ ∧
      w.finish.length = w.out.length + w.directory.length + 22 ∧
      ∃ last : Bytes, last.length = 22 ∧ w.finish = w.out ++ w.directory ++ last := by
  have length : w.finish.length = (w.out ++ w.directory).length + 22 := List.length_append
  have total : (w.out ++ w.directory).length = w.out.length + w.directory.length := List.length_append
  have whole : (w.out ++ w.directory).length < 2 ^ 32 := by omega
  have offset : (UInt32.ofNat w.out.length).toNat = w.out.length :=
    UInt32.toNat_ofNat_of_lt' (Nat.lt_of_le_of_lt (total ▸ Nat.le_add_right ..) whole)
  have size : (UInt32.ofNat (w.out ++ w.directory).length - UInt32.ofNat w.out.length).toNat = w.directory.length := by
    rw [UInt32.toNat_sub, offset, UInt32.toNat_ofNat_of_lt' whole, total]
    omega
  have count : (UInt16.ofNat w.entries.length).toNat = w.entries.length := UInt16.toNat_ofNat_of_lt' few
  refine ⟨?_, by rw [length, total], _, rfl, rfl⟩
  have there : w.finish.drop (w.finish.length - 22) = put32 0x06054b50 ++ (put16 0 ++ (put16 0 ++
      (put16 (UInt16.ofNat w.entries.length) ++ (put16 (UInt16.ofNat w.entries.length) ++
        (put32 (UInt32.ofNat (w.out ++ w.directory).length - UInt32.ofNat w.out.length) ++
          (put32 (UInt32.ofNat w.out.length) ++ (put16 0 ++ []))))))) := by
    rw [length, Nat.add_sub_cancel]
    unfold ZipWriter.finish
    dsimp only
    rw [List.drop_left]
    simp only [List.append_assoc, List.append_nil]
  unfold readEnd
  rw [there]
  simp only [take16_put16, take32_put32, Option.bind_eq_bind, Option.bind_some, offset, size, count]
  exact if_pos ⟨rfl, trivial, rfl⟩

theorem names_short {entries : List ZipEntry} (placed : List.Forall₂ (Placed z text) entries files)
    (short : ∀ file ∈ files, file.1.length < 2 ^ 16) : ∀ r ∈ entries, r.name.length < 2 ^ 16 := by
  induction placed with
  | nil => exact List.forall_mem_nil _
  | cons h _ ih =>
      refine List.forall_mem_cons.mpr ⟨?_, ih fun file member => short file (List.mem_cons_of_mem _ member)⟩
      rw [h.name]
      exact short _ List.mem_cons_self

theorem mapM_placed {entries : List ZipEntry} (placed : List.Forall₂ (Placed z text) entries files) :
    (entries.map fun r => (r.header, r.name, r.offset.toNat)).mapM (readFile z text) = some files := by
  induction placed with
  | nil => rfl
  | cons h _ ih =>
      rw [List.map_cons, List.mapM_cons, readFile_placed h, ih]
      rfl

/-- Every number of an archive is that of the bytes written, and the archive reads back as the files. -/
theorem zip_round_trip (z : Zlib) (files : List ZipFile) (few : files.length < 2 ^ 16)
    (short : ∀ file ∈ files, file.1.length < 2 ^ 16) (small : ∀ file ∈ files, file.2.length < 2 ^ 32)
    (total : (archive z files).length < 2 ^ 32) : unzip z (archive z files) = some files ∧
      List.Forall₂ (Placed z (archive z files)) (zipWriter z files).entries files ∧
      readEnd (archive z files) =
        some ⟨files.length, (zipWriter z files).directory.length, (zipWriter z files).out.length⟩ ∧
      ∃ last : Bytes, last.length = 22 ∧ archive z files = (zipWriter z files).out ++ (zipWriter z files).directory ++ last := by
  have room : (zipWriter z files).out.length < 2 ^ 32 := by
    unfold archive ZipWriter.finish at total
    simp only [List.length_append] at total
    omega
  have placed : List.Forall₂ (Placed z (zipWriter z files).out) (zipWriter z files).entries ([] ++ files) :=
    all_placed (w := {}) short small room .nil
  rw [List.nil_append] at placed
  have count : (zipWriter z files).entries.length = files.length := placed.length_eq
  obtain ⟨last, all, rest, size, whole⟩ := readEnd_finish (w := zipWriter z files) (by omega) total
  rw [count] at last
  change readEnd (archive z files) = _ at last
  change archive z files = _ at whole
  have stored : List.Forall₂ (Placed z (archive z files)) (zipWriter z files).entries files := by
    refine placed.imp fun r file h => ?_
    rw [whole, List.append_assoc]
    exact h.grow _
  refine ⟨?_, stored, last, rest, size, whole⟩
  have directory := readDirectory_write (names_short placed short) rest
  rw [count] at directory
  have there : (archive z files).drop (zipWriter z files).out.length =
      (zipWriter z files).entries.flatMap writeCentralHeader ++ rest := by
    rw [whole, List.append_assoc, List.drop_left]
    rfl
  unfold unzip
  rw [last]
  simp only [Option.bind_eq_bind, Option.bind_some, there, directory]
  rw [if_pos, mapM_placed stored]
  exact ⟨all.symm, size⟩

end

/-! Level 0 -/

def crcBits : Nat → UInt32 → UInt32
  | 0, c => c
  | n + 1, c => crcBits n (if c &&& 1 = 1 then (0xEDB88320 : UInt32) ^^^ (c >>> 1) else c >>> 1)

def crc32 (data : Bytes) : UInt32 := data.foldl (fun c b => crcBits 8 (c ^^^ b.toUInt32)) 0xFFFFFFFF ^^^ 0xFFFFFFFF

/-- One stored block, with its length and the complement of it. -/
def storeBlock (data : Bytes) : Bytes :=
  1 :: (put16 (UInt16.ofNat data.length) ++ put16 (UInt16.ofNat data.length ^^^ 0xFFFF) ++ data)

theorem storeBlock_undone (data : Bytes) : some ((storeBlock data).drop 5) = some data := rfl

def storedZlib : Zlib where
  deflate := storeBlock
  inflate block := some (block.drop 5)
  crc32 := crc32
  undoes := storeBlock_undone

theorem zip_round_trip_stored : unzip storedZlib (archive storedZlib [([97], [1, 2, 3]), ([98, 99], [])]) =
    some [([97], [1, 2, 3]), ([98, 99], [])] :=
  (zip_round_trip storedZlib [([97], [1, 2, 3]), ([98, 99], [])] (by decide) (by decide) (by decide) (by decide +kernel)).1

end Araya.Export
