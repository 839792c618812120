import RoomScript.Archive.Inflate
import RoomScript.Cursor
import RoomScript.Text.Raw

/-!
# Zip archives

An archive holds named members, in an order, and a directory of them at its end.  Archives are
written with members stored as they are, and read with members stored or deflated.

* `Archive.crc32` is the check that every member carries;
* `Archive.write` makes the bytes of an archive;
* `Archive.directory` finds the directory and lists the members;
* `Archive.Entry.read` gives the content of a member.
-/

namespace RoomScript.Archive

/-! ## Errors -/

/-- Why an archive or a member cannot be read. -/
inductive Error where
  | notArchive
  | unsupportedMethod
  | checksum
  | endOfData
  | unexpectedEnd
  | corrupt (offset : Nat)
  | negativeOffset
  deriving DecidableEq, Repr

/-- The wording of an error. -/
def Error.message : Error → String
  | notArchive => "zip: not a valid zip file"
  | unsupportedMethod => "zip: unsupported compression algorithm"
  | checksum => "zip: checksum error"
  | endOfData => "EOF"
  | unexpectedEnd => "unexpected EOF"
  | corrupt offset => "flate: corrupt input before offset " ++ toString offset
  | negativeOffset => "bytes.Reader.ReadAt: negative offset"

/-! ## Checksums

The cyclic redundancy check of 32 bits, with the reflected polynomial `0xEDB88320`. -/

/-- One bit of division by the polynomial. -/
def crcBit (c : UInt32) : UInt32 :=
  if c &&& 1 = 1 then (c >>> 1) ^^^ 0xEDB88320 else c >>> 1

/-- The remainder of one byte. -/
def crcByte (b : UInt32) : UInt32 :=
  crcBit (crcBit (crcBit (crcBit (crcBit (crcBit (crcBit (crcBit b)))))))

/-- The remainders of all bytes. -/
def crcTable : Array UInt32 :=
  ((List.range 256).map fun b => crcByte b.toUInt32).toArray

/-- Add one byte to a running check. -/
def crcStep (c : UInt32) (b : UInt8) : UInt32 :=
  crcTable.getD ((c ^^^ b.toUInt32) &&& 0xFF).toNat 0 ^^^ (c >>> 8)

/-- The check of a byte string. -/
def crc32 (data : ByteArray) : UInt32 :=
  data.foldl crcStep 0xFFFFFFFF ^^^ 0xFFFFFFFF

/-! ## Records -/

/-- The little-endian bytes of a number. -/
def number (width value : Nat) : List UInt8 :=
  (List.range width).map fun i => UInt8.ofNat (value / Nat.pow 256 i)

/-- The little-endian number at a place; bytes behind the end count as zero. -/
def numberAt (data : ByteArray) (place width : Nat) : Nat :=
  (List.range width).foldr (fun i n => (Bits.byteAt data (place + i)).toNat + 256 * n) 0

def memberSignature : Nat := 0x04034b50
def entrySignature : Nat := 0x02014b50
def endSignature : Nat := 0x06054b50
def end64Signature : Nat := 0x06064b50
def locator64Signature : Nat := 0x07064b50
def descriptorSignature : Nat := 0x08074b50

/-- The sizes of the records without their texts. -/
def memberLength : Nat := 30
def entryLength : Nat := 46
def endLength : Nat := 22

/-- A member as the directory describes it. -/
structure Entry where
  name : RawText
  flags : Nat
  method : Nat
  checksum : Nat
  packedSize : Nat
  size : Nat
  /-- Where the member's own record starts, as a signed number of 64 bits. -/
  offset : Int
  deriving DecidableEq, Repr

/-! ## Writing -/

/-- The part that the two records of a member have in common. -/
def commonFields (name : String) (data : ByteArray) : List UInt8 :=
  number 2 0x800 ++ number 2 0 ++ number 2 0 ++ number 2 0x21 ++ number 4 (crc32 data).toNat ++
    number 4 data.size ++ number 4 data.size ++ number 2 name.utf8ByteSize ++ number 2 0

/-- The members and the directory entries written so far. -/
structure Writer where
  members : ByteArray := ByteArray.empty
  entries : ByteArray := ByteArray.empty
  count : Nat := 0

/-- Append a member. -/
def Writer.add (w : Writer) (member : String × ByteArray) : Writer :=
  let (name, data) := member
  let common := commonFields name data
  { members := w.members ++ (number 4 memberSignature ++ number 2 20 ++ common).toByteArray ++
      name.toUTF8 ++ data
    entries := w.entries ++ (number 4 entrySignature ++ number 2 20 ++ number 2 20 ++ common ++
      number 2 0 ++ number 2 0 ++ number 2 0 ++ number 4 0 ++
      number 4 w.members.size).toByteArray ++ name.toUTF8
    count := w.count + 1 }

/-- The bytes of an archive with the given members. -/
def write (members : List (String × ByteArray)) : ByteArray :=
  let w := members.foldl Writer.add {}
  w.members ++ w.entries ++ (number 4 endSignature ++ number 2 0 ++ number 2 0 ++
    number 2 w.count ++ number 2 w.count ++ number 4 w.entries.size ++ number 4 w.members.size ++
    number 2 0).toByteArray

/-! ## The directory -/

/-- Look for the end record, backwards from `start + n`.  A record whose comment is cut off ends the
search. -/
def findEnd (data : ByteArray) (start : Nat) : Nat → Option Nat
  | 0 => none
  | n + 1 =>
    let place := start + n
    if numberAt data place 4 = endSignature then
      if place + endLength + numberAt data (place + 20) 2 > data.size then none else some place
    else findEnd data start n

/-- The end record is looked for in the last kilobyte first, and in the last 65 kilobytes then. -/
def findEnd? (data : ByteArray) : Option Nat :=
  let within (size : Nat) : Option Nat :=
    findEnd data (data.size - size) (min size data.size + 1 - endLength)
  (within 1024).or (within (65 * 1024))

/-- What the end record says about the directory. -/
structure Ending where
  /-- Where the directory has ended. -/
  offset : Nat
  count : Nat
  directorySize : Nat
  directoryOffset : Nat

/-- Take over the numbers of the large end record, if the end record points to one. -/
def Ending.widen (e : Ending) (data : ByteArray) : Except Error Ending :=
  let locator := e.offset - 20
  let place := numberAt data (locator + 8) 8
  if e.offset < 20 ∨ numberAt data locator 4 ≠ locator64Signature ∨
      numberAt data (locator + 4) 4 ≠ 0 ∨ numberAt data (locator + 16) 4 ≠ 1 ∨ place ≥ Nat.pow 2 63 then
    .ok e
  else if place + 56 > data.size then .error .endOfData
  else if numberAt data place 4 ≠ end64Signature then .error .notArchive
  else
    .ok { offset := place, count := numberAt data (place + 32) 8,
          directorySize := numberAt data (place + 40) 8,
          directoryOffset := numberAt data (place + 48) 8 }

/-- Read the end record. -/
def ending (data : ByteArray) : Except Error Ending :=
  match findEnd? data with
  | none => .error .notArchive
  | some place =>
    let e : Ending :=
      { offset := place, count := numberAt data (place + 10) 2,
        directorySize := numberAt data (place + 12) 4,
        directoryOffset := numberAt data (place + 16) 4 }
    if e.count = 0xFFFF ∨ e.directorySize = 0xFFFFFFFF ∨ e.directoryOffset = 0xFFFFFFFF then
      e.widen data
    else .ok e

/-- Take one wide number, if it is wanted. -/
def takeWide (data : ByteArray) (wanted : Bool) (place stop : Nat) :
    Except Error (Option Nat × Nat) :=
  if ¬wanted then .ok (none, place)
  else if place + 8 > stop then .error .notArchive
  else .ok (some (numberAt data place 8), place + 8)

/-- Read a wide extra field, which gives the numbers that did not fit their fields.  `size` and
`packedSize` say whether the sizes are among them; the offset is, as long as it has not been
given. -/
def Entry.readWide (e : Entry) (data : ByteArray) (size packedSize : Bool) (place stop : Nat) :
    Except Error Entry :=
  match takeWide data size place stop with
  | .error err => .error err
  | .ok (size, place) =>
    match takeWide data packedSize place stop with
    | .error err => .error err
    | .ok (packedSize, place) =>
      match takeWide data (e.offset == 0xFFFFFFFF) place stop with
      | .error err => .error err
      | .ok (offset, _) =>
        .ok { e with size := size.getD e.size, packedSize := packedSize.getD e.packedSize,
                     offset := (offset.map fun n => wrap64 n).getD e.offset }

/-- Read all wide extra fields between two places. -/
def Entry.readExtra (e : Entry) (data : ByteArray) (size packedSize : Bool) (place stop : Nat) :
    Except Error Entry :=
  if place + 4 > stop then .ok e
  else
    let next := place + 4 + numberAt data (place + 2) 2
    if next > stop then .ok e
    else if numberAt data place 2 = 1 then
      match e.readWide data size packedSize (place + 4) next with
      | .error err => .error err
      | .ok e => e.readExtra data size packedSize next stop
    else e.readExtra data size packedSize next stop
termination_by stop - place
decreasing_by
  all_goals omega

/-- Read the directory entry at a place.  The second result is the place behind it. -/
def entryAt (data : ByteArray) (place : Nat) : Except Error (Entry × Nat) :=
  if place ≥ data.size then .error .endOfData
  else if place + entryLength > data.size then .error .unexpectedEnd
  else if numberAt data place 4 ≠ entrySignature then .error .notArchive
  else
    let nameStart := place + entryLength
    let extraStart := nameStart + numberAt data (place + 28) 2
    let commentStart := extraStart + numberAt data (place + 30) 2
    let stop := commentStart + numberAt data (place + 32) 2
    if stop > data.size then
      .error (if nameStart = data.size then .endOfData else .unexpectedEnd)
    else
      let e : Entry :=
        { name := ⟨data.extract nameStart extraStart⟩
          flags := numberAt data (place + 8) 2
          method := numberAt data (place + 10) 2
          checksum := numberAt data (place + 16) 4
          packedSize := numberAt data (place + 20) 4
          size := numberAt data (place + 24) 4
          offset := numberAt data (place + 42) 4 }
      match e.readExtra data (e.size == 0xFFFFFFFF) (e.packedSize == 0xFFFFFFFF) extraStart
        commentStart with
      | .error err => .error err
      | .ok e => .ok (e, stop)

theorem place_lt_of_entryAt {data : ByteArray} {place next : Nat} {e : Entry}
    (h : entryAt data place = .ok (e, next)) : place < next ∧ place < data.size := by
  unfold entryAt at h
  split at h
  · simp at h
  · split at h
    · simp at h
    · split at h
      · simp at h
      · simp only at h
        split at h
        · simp at h
        · split at h
          · simp at h
          · simp only [Except.ok.injEq, Prod.mk.injEq] at h
            simp only [entryLength] at *
            omega

/-- Read directory entries from a place on, as many as there are.  The second result is why reading
stopped. -/
def entriesFrom (data : ByteArray) (place : Nat) (out : Array Entry) : Array Entry × Error :=
  match _entry : entryAt data place with
  | .error e => (out, e)
  | .ok (e, next) => entriesFrom data next (out.push e)
termination_by data.size - place
decreasing_by
  have := place_lt_of_entryAt _entry
  omega

/-- Where the offsets of an archive count from: bytes may stand in front of it. -/
def base (data : ByteArray) (e : Ending) : Int :=
  let shift : Int := (e.offset : Int) - e.directorySize - e.directoryOffset
  if shift > 0 ∧ (entryAt data e.directoryOffset).isOk then 0 else shift

/-- The entries of a directory with offsets that count from the start of the data, and why reading
them stopped.  When nothing can be read where the directory should be, the offsets are taken to
count from the start already. -/
def entries (data : ByteArray) (e : Ending) : Array Entry × Error :=
  let base := base data e
  let found := entriesFrom data (base + e.directoryOffset).toNat #[]
  if base ≠ 0 ∧ found.1.isEmpty ∧ found.2 = .notArchive then entriesFrom data e.directoryOffset #[]
  else (found.1.map fun m => { m with offset := wrap64 (m.offset + base) }, found.2)

/-- The members of an archive in the order of its directory. -/
def directory (data : ByteArray) : Except Error (List Entry) :=
  match ending data with
  | .error e => .error e
  | .ok e =>
    let start : Int := (e.offset : Int) - e.directorySize
    if e.directorySize ≥ Nat.pow 2 63 ∨ e.directoryOffset ≥ Nat.pow 2 63 ∨ start < 0 ∨
        start ≥ data.size then
      .error .notArchive
    else
      match entries data e with
      | (_, .endOfData) => .error .endOfData
      | (found, stopped) =>
        if found.size % 0x10000 ≠ e.count % 0x10000 then .error stopped else .ok found.toList

/-! ## Members -/

/-- Why the content of a member cannot be had: it cannot be opened, or reading it fails. -/
inductive ReadError where
  | opening (e : Error)
  | reading (e : Error)
  deriving DecidableEq, Repr

/-- Unpack the bytes of a member. -/
def unpack (method : Nat) (packed : ByteArray) : ByteArray × Option Error :=
  if method = 0 then (packed, none)
  else
    match inflate packed with
    | (out, none) => (out, none)
    | (out, some .unexpectedEnd) => (out, some .unexpectedEnd)
    | (out, some (.corrupt offset)) => (out, some (.corrupt offset))

/-- Check the record behind a member that repeats its checksum.  Its signature may be missing. -/
def checkDescriptor (data : ByteArray) (place : Int) (checksum : Nat) : Option Error :=
  if place < 0 then some .negativeOffset
  else
    let signed := numberAt data place.toNat 4 = descriptorSignature
    let found := numberAt data (place.toNat + if signed then 4 else 0) 4
    if place + (if signed then 16 else 12) > data.size then some .unexpectedEnd
    else if found ≠ checksum then some .checksum
    else none

/-- Check unpacked content against what the directory says. -/
def Entry.verify (e : Entry) (data : ByteArray) (stop : Int) (out : ByteArray)
    (fault : Option Error) : Option Error :=
  if out.size > e.size then some .notArchive
  else if fault.isSome then fault
  else if out.size ≠ e.size then some .unexpectedEnd
  else if e.flags / 8 % 2 = 1 then
    (checkDescriptor data stop e.checksum).or
      (if (crc32 out).toNat ≠ e.checksum then some .checksum else none)
  else if e.checksum ≠ 0 ∧ (crc32 out).toNat ≠ e.checksum then some .checksum
  else none

/-- The packed content of a member starts at `start`.  A size that is negative as a number of 64
bits sets no end. -/
def Entry.packed (e : Entry) (data : ByteArray) (start : Nat) : ByteArray :=
  data.extract start
    (if wrap64 e.packedSize < 0 then data.size else min (start + e.packedSize) data.size)

/-- The content of a member. -/
def Entry.read (data : ByteArray) (e : Entry) : Except ReadError ByteArray :=
  if e.offset < 0 then .error (.opening .negativeOffset)
  else
    let place := e.offset.toNat
    if place + memberLength > data.size then .error (.opening .endOfData)
    else if numberAt data place 4 ≠ memberSignature then .error (.opening .notArchive)
    else if e.name.bytes.toList.getLast? = some '/'.toUInt8 then
      if e.size ≠ 0 then .error (.reading .notArchive) else .ok ByteArray.empty
    else if e.method ≠ 0 ∧ e.method ≠ 8 then .error (.opening .unsupportedMethod)
    else
      let start := place + memberLength + numberAt data (place + 26) 2 + numberAt data (place + 28) 2
      let (out, fault) := unpack e.method (e.packed data start)
      match e.verify data (wrap64 (start + e.packedSize)) out fault with
      | some err => .error (.reading err)
      | none => .ok out

/-- All members of an archive with their content, when all of it can be read. -/
def members? (data : ByteArray) : Option (List (String × ByteArray)) :=
  match directory data with
  | .error _ => none
  | .ok entries => entries.mapM fun e => (e.read data).toOption.map (e.name.text, ·)

end RoomScript.Archive
