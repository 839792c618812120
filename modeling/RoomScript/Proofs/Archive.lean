import Mathlib.Tactic
import RoomScript.Archive

/-!
# Archives read back

An archive that is small enough for its number fields gives back the members that were stored in it:
its directory lists them in their order, and each of them is read with its content.

* `StandsAt` says which bytes stand at a place of an archive, and `StandsAt.numberAt` reads a number
  there;
* `toList_write` splits an archive into the records of its members, those of its directory and the
  end record;
* `entryAt_of_standsAt` and `read_of_standsAt` read one record, `entriesFrom_of_standsAt` all of the
  directory;
* `givesBack_of_fits` puts this together.
-/

namespace RoomScript.Archive

/-! ## Bytes -/

theorem toList_loop (data : ByteArray) (i : ℕ) (r : List UInt8) :
    ByteArray.toList.loop data i r = r.reverse ++ data.data.toList.drop i := by
  fun_induction ByteArray.toList.loop data i r with
  | case1 i r small ih =>
    have here : i < data.data.toList.length := small
    rw [ih, List.drop_eq_getElem_cons here, List.reverse_cons, List.append_assoc]
    have get : data.get! i = data.data.toList[i] := by
      rw [Array.getElem_toList]
      exact getElem!_pos data.data i small
    rw [get]
    rfl
  | case2 i r large =>
    have behind : data.data.toList.length ≤ i := Nat.not_lt.1 large
    rw [List.drop_eq_nil_of_le behind, List.append_nil]

theorem toList_eq (data : ByteArray) : data.toList = data.data.toList := by
  rw [ByteArray.toList, toList_loop, List.reverse_nil, List.nil_append, List.drop_zero]

theorem toList_toByteArray (data : List UInt8) : data.toByteArray.toList = data := by
  rw [toList_eq, List.toList_data_toByteArray]

/-! ## Bytes at a place -/

/-- Bytes that stand at a place of the data. -/
def StandsAt (data : ByteArray) (place : ℕ) (bytes : List UInt8) : Prop :=
  bytes <+: data.data.toList.drop place

theorem standsAt_append {data : ByteArray} {place : ℕ} {first second : List UInt8} :
    StandsAt data place (first ++ second) ↔
      StandsAt data place first ∧ StandsAt data (place + first.length) second := by
  unfold StandsAt
  constructor
  · rintro ⟨rest, split⟩
    refine ⟨⟨second ++ rest, by rw [← split, List.append_assoc]⟩, ⟨rest, ?_⟩⟩
    rw [← List.drop_drop, ← split, List.append_assoc, List.drop_left]
  · rintro ⟨⟨rest, split⟩, there⟩
    rw [← List.drop_drop, ← split, List.drop_left] at there
    rw [← split, List.prefix_append_right_inj]
    exact there

theorem standsAt_of_eq_append {data : ByteArray} {before bytes after : List UInt8}
    (split : data.data.toList = before ++ (bytes ++ after)) :
    StandsAt data before.length bytes := by
  rw [StandsAt, split, List.drop_left]
  exact List.prefix_append bytes after

namespace StandsAt

variable {data : ByteArray} {place : ℕ} {bytes : List UInt8}

theorem le_size (stands : StandsAt data place bytes) (filled : 0 < bytes.length) :
    place + bytes.length ≤ data.size := by
  have := stands.length_le
  have size : data.data.toList.length = data.size := rfl
  rw [List.length_drop] at *
  omega

theorem byteAt {b : UInt8} (stands : StandsAt data place (b :: bytes)) :
    Bits.byteAt data place = b := by
  have small : place < data.size := by
    have := stands.le_size (List.length_pos_of_mem List.mem_cons_self)
    rw [List.length_cons] at this
    omega
  obtain ⟨rest, split⟩ := stands
  have first := congrArg (·[0]?) split
  rw [Bits.byteAt, dif_pos small]
  simp only [List.cons_append, List.getElem?_cons_zero, List.getElem?_drop, Nat.add_zero] at first
  have here : data.data.toList[place]? = some data[place] := List.getElem?_eq_getElem small
  exact Option.some.inj (here.symm.trans first.symm)

/-- What is taken out of the data. -/
theorem extract (stands : StandsAt data place bytes) :
    data.extract place (place + bytes.length) = bytes.toByteArray := by
  obtain ⟨rest, split⟩ := stands
  refine ByteArray.ext (Array.toList_inj.1 ?_)
  rw [ByteArray.data_extract, Array.toList_extract, List.toList_data_toByteArray,
    List.extract_eq_take_drop, ← split, Nat.add_sub_cancel_left, List.take_left]

/-- A byte string is taken out from where it stands. -/
theorem extract_toByteArray {content : ByteArray}
    (stands : StandsAt data place content.data.toList) :
    data.extract place (place + content.size) = content :=
  stands.extract.trans (ByteArray.ext (by simp))

end StandsAt

/-! ## Numbers -/

@[simp] theorem length_number (width value : ℕ) : (number width value).length = width := by
  simp [number]

theorem number_succ (width value : ℕ) :
    number (width + 1) value = UInt8.ofNat value :: number width (value / 256) := by
  have later : ∀ i : ℕ, value / Nat.pow 256 (i + 1) = value / 256 / Nat.pow 256 i := by
    intro i
    have power : Nat.pow 256 (i + 1) = 256 * Nat.pow 256 i := Nat.pow_succ'
    rw [power, Nat.div_div_eq_div_mul]
  rw [number, number, List.range_succ_eq_map, List.map_cons, List.map_map]
  refine congrArg₂ List.cons ?_ (List.map_congr_left fun i _ => ?_)
  · exact congrArg UInt8.ofNat (Nat.div_one value)
  · exact congrArg UInt8.ofNat (later i)

theorem numberAt_succ (data : ByteArray) (place width : ℕ) :
    numberAt data place (width + 1) =
      (Bits.byteAt data place).toNat + 256 * numberAt data (place + 1) width := by
  rw [numberAt, numberAt, List.range_succ_eq_map, List.foldr_cons, List.foldr_map, Nat.add_zero]
  congr 3
  funext i n
  rw [Nat.succ_eq_add_one, Nat.add_assoc, Nat.add_comm 1 i]

/-- A number that fits its field is read from there. -/
theorem StandsAt.numberAt {data : ByteArray} {place width value : ℕ}
    (stands : StandsAt data place (number width value)) (fits : value < 256 ^ width) :
    numberAt data place width = value := by
  induction width generalizing place value with
  | zero =>
    rw [Nat.pow_zero, Nat.lt_one_iff] at fits
    rw [fits]
    rfl
  | succ width ih =>
    rw [number_succ] at stands
    have rest : StandsAt data (place + 1) (number width (value / 256)) :=
      ((@standsAt_append data place [UInt8.ofNat value] _).1 stands).2
    have small : value / 256 < 256 ^ width := by
      rw [Nat.div_lt_iff_lt_mul (by decide), ← Nat.pow_succ]
      exact fits
    rw [numberAt_succ, stands.byteAt, ih rest small]
    have low : (UInt8.ofNat value).toNat = value % 256 := by simp
    omega

theorem wrap64_of_lt {n : ℕ} (small : n < 2 ^ 63) : wrap64 n = n := by
  have modulus : Nat.pow 2 64 = 2 ^ 64 := rfl
  rw [wrap64, modulus]
  exact Int.bmod_eq_of_le_mul_two (by omega) (by omega)

/-! ## The parts of an archive -/

/-- The record of a member. -/
def memberRecord (m : String × ByteArray) : List UInt8 :=
  number 4 memberSignature ++ (number 2 20 ++ (commonFields m.1 m.2 ++
    (m.1.toUTF8.data.toList ++ m.2.data.toList)))

/-- The record of the directory for a member whose own record starts at an offset. -/
def entryRecord (offset : ℕ) (m : String × ByteArray) : List UInt8 :=
  number 4 entrySignature ++ (number 2 20 ++ (number 2 20 ++ (commonFields m.1 m.2 ++
    (number 2 0 ++ (number 2 0 ++ (number 2 0 ++ (number 4 0 ++ (number 4 offset ++
      m.1.toUTF8.data.toList))))))))

/-- The directory of members whose records start at an offset. -/
def directoryRecords (offset : ℕ) : List (String × ByteArray) → List UInt8
  | [] => []
  | m :: ms => entryRecord offset m ++ directoryRecords (offset + (memberRecord m).length) ms

/-- The record at the end of an archive. -/
def endRecord (count directorySize directoryOffset : ℕ) : List UInt8 :=
  number 4 endSignature ++ (number 2 0 ++ (number 2 0 ++ (number 2 count ++ (number 2 count ++
    (number 4 directorySize ++ (number 4 directoryOffset ++ number 2 0))))))

theorem length_commonFields (name : String) (data : ByteArray) :
    (commonFields name data).length = 24 := by
  simp [commonFields]

theorem length_memberRecord (m : String × ByteArray) :
    (memberRecord m).length = memberLength + m.1.utf8ByteSize + m.2.size := by
  have name : m.1.toUTF8.data.toList.length = m.1.utf8ByteSize := rfl
  have content : m.2.data.toList.length = m.2.size := rfl
  simp only [memberRecord, List.length_append, length_number, length_commonFields, name, content,
    memberLength]
  omega

theorem length_entryRecord (offset : ℕ) (m : String × ByteArray) :
    (entryRecord offset m).length = entryLength + m.1.utf8ByteSize := by
  have name : m.1.toUTF8.data.toList.length = m.1.utf8ByteSize := rfl
  simp only [entryRecord, List.length_append, length_number, length_commonFields, name, entryLength]
  omega

theorem length_endRecord (count directorySize directoryOffset : ℕ) :
    (endRecord count directorySize directoryOffset).length = endLength := by
  simp [endRecord, endLength]

theorem toList_foldl_add (ms : List (String × ByteArray)) (w : Writer) :
    (ms.foldl Writer.add w).members.data.toList = w.members.data.toList ++ ms.flatMap memberRecord ∧
      (ms.foldl Writer.add w).entries.data.toList =
        w.entries.data.toList ++ directoryRecords w.members.size ms ∧
      (ms.foldl Writer.add w).count = w.count + ms.length := by
  induction ms generalizing w with
  | nil => simp [directoryRecords]
  | cons m ms ih =>
    have member : (w.add m).members.data.toList = w.members.data.toList ++ memberRecord m := by
      simp [Writer.add, memberRecord]
    have entry : (w.add m).entries.data.toList =
        w.entries.data.toList ++ entryRecord w.members.size m := by
      simp [Writer.add, entryRecord]
    have size : (w.add m).members.size = w.members.size + (memberRecord m).length := by
      have := congrArg List.length member
      rwa [List.length_append] at this
    obtain ⟨members, entries, count⟩ := ih (w.add m)
    rw [List.foldl_cons, members, entries, count, member, entry, size]
    refine ⟨?_, ?_, ?_⟩
    · rw [List.flatMap_cons, List.append_assoc]
    · rw [directoryRecords, List.append_assoc]
    · have next : (w.add m).count = w.count + 1 := rfl
      rw [List.length_cons, next]
      omega

/-- The records of an archive. -/
theorem toList_write (ms : List (String × ByteArray)) :
    (write ms).data.toList = ms.flatMap memberRecord ++ (directoryRecords 0 ms ++
      endRecord ms.length (directoryRecords 0 ms).length (ms.flatMap memberRecord).length) := by
  obtain ⟨members, entries, count⟩ := toList_foldl_add ms {}
  have size : (ms.foldl Writer.add {}).members.size = (ms.flatMap memberRecord).length :=
    congrArg List.length members
  have size' : (ms.foldl Writer.add {}).entries.size = (directoryRecords 0 ms).length :=
    congrArg List.length entries
  simp only [write, ByteArray.toList_data_append, List.toList_data_toByteArray, members, entries,
    count, size, size']
  simp [endRecord, ByteArray.size_empty]

/-! ## Reading a record -/

/-- A member as the directory describes it, its own record starting at an offset. -/
def described (offset : ℕ) (m : String × ByteArray) : Entry :=
  { name := RawText.ofString m.1, flags := 0x800, method := 0, checksum := (crc32 m.2).toNat,
    packedSize := m.2.size, size := m.2.size, offset := offset }

/-- The members of an archive as its directory describes them. -/
def describedFrom (offset : ℕ) : List (String × ByteArray) → List Entry
  | [] => []
  | m :: ms => described offset m :: describedFrom (offset + (memberRecord m).length) ms

section Records

variable {data : ByteArray} {place offset : ℕ} {m : String × ByteArray}

/-- An entry of the directory is read from its record. -/
theorem entryAt_of_standsAt (stands : StandsAt data place (entryRecord offset m))
    (name : m.1.utf8ByteSize < 2 ^ 16) (size : m.2.size < 2 ^ 32 - 1) (near : offset < 2 ^ 32 - 1) :
    entryAt data place = .ok (described offset m, place + (entryRecord offset m).length) := by
  have filled : 0 < (entryRecord offset m).length := by
    rw [length_entryRecord, entryLength]
    omega
  have room := stands.le_size filled
  rw [length_entryRecord] at room ⊢
  simp only [entryRecord, commonFields, List.append_assoc, standsAt_append, length_number,
    Nat.add_assoc, Nat.reduceAdd] at stands
  obtain ⟨signature, -, -, flags, method, -, -, checksum, packed, plain, nameLength, extraLength,
    commentLength, -, -, -, start, text⟩ := stands
  replace signature := signature.numberAt (by decide)
  replace flags := flags.numberAt (by decide)
  replace method := method.numberAt (by decide)
  replace checksum := checksum.numberAt (crc32 m.2).toNat_lt
  replace packed := packed.numberAt (by omega)
  replace plain := plain.numberAt (by omega)
  replace nameLength := nameLength.numberAt (by omega)
  replace extraLength := extraLength.numberAt (by decide)
  replace commentLength := commentLength.numberAt (by decide)
  replace start := start.numberAt (by omega)
  have written : data.extract (place + 46) (place + 46 + m.1.utf8ByteSize) = m.1.toUTF8 :=
    text.extract_toByteArray
  have inside : ¬place ≥ data.size := by
    rw [entryLength] at room
    omega
  have whole : ¬place + entryLength > data.size := by omega
  have small : (m.2.size == 0xFFFFFFFF) = false := by
    rw [beq_eq_false_iff_ne]
    omega
  unfold entryAt
  rw [if_neg inside, if_neg whole, if_neg (not_not.2 signature)]
  simp only [flags, method, checksum, packed, plain, nameLength, extraLength, commentLength, start,
    entryLength, Nat.add_zero, small] at room ⊢
  rw [if_neg (by omega), Entry.readExtra, if_pos (by omega), written]
  simp [described, RawText.ofString, Nat.add_assoc]

/-- A member is read from its record. -/
theorem read_of_standsAt (stands : StandsAt data offset (memberRecord m))
    (name : m.1.utf8ByteSize < 2 ^ 16) (near : offset + (memberRecord m).length < 2 ^ 32)
    (file : m.1.toUTF8.toList.getLast? ≠ some '/'.toUInt8) :
    (described offset m).read data = .ok m.2 := by
  have filled : 0 < (memberRecord m).length := by
    rw [length_memberRecord, memberLength]
    omega
  have room := stands.le_size filled
  rw [length_memberRecord] at room near
  simp only [memberRecord, commonFields, List.append_assoc, standsAt_append, length_number,
    Nat.add_assoc, Nat.reduceAdd] at stands
  obtain ⟨signature, -, -, -, -, -, -, -, -, nameLength, extraLength, -, content⟩ := stands
  replace nameLength := nameLength.numberAt (by omega)
  replace extraLength := extraLength.numberAt (by decide)
  have written : data.extract (offset + (30 + m.1.utf8ByteSize))
      (offset + (30 + m.1.utf8ByteSize) + m.2.size) = m.2 := content.extract_toByteArray
  rw [memberLength] at room near
  have inside : ¬offset + memberLength > data.size := by
    rw [memberLength]
    omega
  have start : offset + memberLength + numberAt data (offset + 26) 2 +
      numberAt data (offset + 28) 2 = offset + (30 + m.1.utf8ByteSize) := by
    rw [nameLength, extraLength, memberLength]
    omega
  have packed : (described offset m).packed data (offset + (30 + m.1.utf8ByteSize)) = m.2 := by
    have size : wrap64 (m.2.size : ℤ) = m.2.size := wrap64_of_lt (by omega)
    have positive : ¬((m.2.size : ℤ) < 0) := Int.not_lt.2 (Int.natCast_nonneg _)
    have bound : min (offset + (30 + m.1.utf8ByteSize) + m.2.size) data.size =
        offset + (30 + m.1.utf8ByteSize) + m.2.size := Nat.min_eq_left (by omega)
    simp only [Entry.packed, described, size, if_neg positive, bound, written]
  have verified : ∀ stop, (described offset m).verify data stop m.2 none = none := by
    intro stop
    simp [Entry.verify, described]
  have here : (described offset m).offset = offset := rfl
  have named : (described offset m).name.bytes = m.1.toUTF8 := rfl
  have stored : (described offset m).method = 0 := rfl
  unfold Entry.read
  rw [if_neg (Int.not_lt.2 (here ▸ Int.natCast_nonneg offset))]
  extract_lets place first
  have same : place = offset := Int.toNat_natCast offset
  clear_value place
  subst same
  have same : first = place + (30 + m.1.utf8ByteSize) := start
  clear_value first
  subst same
  rw [if_neg inside, if_neg (not_not.2 (signature.numberAt (by decide))), named, if_neg file, stored,
    if_neg (by decide), packed, unpack, if_pos rfl]
  dsimp only
  rw [verified]

/-- An end record at the end of the data is the first one that is found. -/
theorem findEnd?_of_standsAt {count directorySize directoryOffset : ℕ}
    (stands : StandsAt data place (endRecord count directorySize directoryOffset))
    (size : data.size = place + endLength) : findEnd? data = some place := by
  simp only [endRecord, standsAt_append, length_number, Nat.add_assoc, Nat.reduceAdd] at stands
  obtain ⟨signature, -, -, -, -, -, -, comment⟩ := stands
  rw [endLength] at size
  have tries : min 1024 data.size + 1 - endLength = min 1024 data.size - 22 + 1 := by
    rw [endLength]
    omega
  have last : data.size - 1024 + (min 1024 data.size - 22) = place := by omega
  have whole : ¬place + endLength + numberAt data (place + 20) 2 > data.size := by
    rw [comment.numberAt (by decide), endLength]
    omega
  unfold findEnd?
  extract_lets within
  have found : within 1024 = some place := by
    show findEnd data (data.size - 1024) (min 1024 data.size + 1 - endLength) = some place
    rw [tries, findEnd, last, if_pos (signature.numberAt (by decide)), if_neg whole]
  rw [found, Option.some_or]

/-- The numbers of an end record are read if they need no larger fields. -/
theorem ending_of_standsAt {count directorySize directoryOffset : ℕ}
    (stands : StandsAt data place (endRecord count directorySize directoryOffset))
    (size : data.size = place + endLength) (few : count < 2 ^ 16 - 1)
    (short : directorySize < 2 ^ 32 - 1) (near : directoryOffset < 2 ^ 32 - 1) :
    ending data = .ok { offset := place, count, directorySize, directoryOffset } := by
  have found := findEnd?_of_standsAt stands size
  simp only [endRecord, standsAt_append, length_number, Nat.add_assoc, Nat.reduceAdd] at stands
  obtain ⟨-, -, -, -, count', directorySize', directoryOffset', -⟩ := stands
  replace count' := count'.numberAt (by omega)
  replace directorySize' := directorySize'.numberAt (by omega)
  replace directoryOffset' := directoryOffset'.numberAt (by omega)
  unfold ending
  rw [found]
  simp only [count', directorySize', directoryOffset']
  rw [if_neg (by omega)]

end Records

/-! ## Reading an archive -/

/-- Members that fit into the fields of an archive, none of which is named like a directory. -/
structure Fits (ms : List (String × ByteArray)) : Prop where
  count : ms.length < 2 ^ 16 - 1
  size : (write ms).size < 2 ^ 32 - 1
  names : ∀ m ∈ ms, m.1.utf8ByteSize < 2 ^ 16
  files : ∀ m ∈ ms, m.1.toUTF8.toList.getLast? ≠ some '/'.toUInt8

/-- An archive gives back what is stored in it: its directory lists the members in their order, and
each of them is read with its content. -/
def GivesBack (ms : List (String × ByteArray)) : Prop :=
  ∃ entries, directory (write ms) = .ok entries ∧
    List.Forall₂ (fun (e : Entry) (m : String × ByteArray) =>
      e.name = RawText.ofString m.1 ∧ e.read (write ms) = .ok m.2) entries ms

/-- The records of a directory are read one after the other. -/
theorem entriesFrom_of_standsAt {data : ByteArray} {ms : List (String × ByteArray)}
    (names : ∀ m ∈ ms, m.1.utf8ByteSize < 2 ^ 16) {place offset : ℕ} (out : Array Entry)
    (near : offset + (ms.flatMap memberRecord).length < 2 ^ 32 - 1)
    (stands : StandsAt data place (directoryRecords offset ms)) :
    entriesFrom data place out = entriesFrom data
      (place + (directoryRecords offset ms).length) (out ++ (describedFrom offset ms).toArray) := by
  induction ms generalizing place offset out with
  | nil => simp [directoryRecords, describedFrom]
  | cons m ms ih =>
    obtain ⟨name, names⟩ := List.forall_mem_cons.1 names
    rw [directoryRecords, standsAt_append] at stands
    rw [List.flatMap_cons, List.length_append] at near
    have size := length_memberRecord m
    have first := entryAt_of_standsAt stands.1 name (by omega) (by omega)
    have rest := ih names (out.push (described offset m)) (by omega) stands.2
    rw [directoryRecords, describedFrom, List.length_append, ← Nat.add_assoc]
    conv_lhs => unfold entriesFrom
    split
    · rename_i e failed
      cases failed.symm.trans first
    · rename_i e next read
      cases read.symm.trans first
      rw [rest]
      simp

/-- All members of an archive are read from their records. -/
theorem forall₂_read {data : ByteArray} {ms : List (String × ByteArray)} {offset : ℕ}
    (names : ∀ m ∈ ms, m.1.utf8ByteSize < 2 ^ 16)
    (files : ∀ m ∈ ms, m.1.toUTF8.toList.getLast? ≠ some '/'.toUInt8)
    (near : offset + (ms.flatMap memberRecord).length < 2 ^ 32)
    (stands : StandsAt data offset (ms.flatMap memberRecord)) :
    List.Forall₂ (fun (e : Entry) (m : String × ByteArray) =>
      e.name = RawText.ofString m.1 ∧ e.read data = .ok m.2) (describedFrom offset ms) ms := by
  induction ms generalizing offset with
  | nil => exact .nil
  | cons m ms ih =>
    obtain ⟨name, names⟩ := List.forall_mem_cons.1 names
    obtain ⟨file, files⟩ := List.forall_mem_cons.1 files
    rw [List.flatMap_cons, standsAt_append] at stands
    rw [List.flatMap_cons, List.length_append] at near
    exact .cons ⟨rfl, read_of_standsAt stands.1 name (by omega) file⟩
      (ih names files (by omega) stands.2)

section Written

variable {ms : List (String × ByteArray)}

theorem size_write (ms : List (String × ByteArray)) : (write ms).size =
    (ms.flatMap memberRecord).length + (directoryRecords 0 ms).length + endLength := by
  have size := congrArg List.length (toList_write ms)
  rw [List.length_append, List.length_append, length_endRecord, ← Nat.add_assoc] at size
  exact size

theorem size_le_size_write {m : String × ByteArray} (mem : m ∈ ms) :
    m.2.size ≤ (write ms).size := by
  have size := size_write ms
  have record := length_memberRecord m
  have all : (memberRecord m).length ≤ (ms.flatMap memberRecord).length := by
    obtain ⟨before, after, rfl⟩ := List.append_of_mem mem
    rw [List.flatMap_append, List.flatMap_cons, List.length_append, List.length_append]
    omega
  omega

/-- Behind the directory there is no room for another record. -/
theorem entriesFrom_end {data : ByteArray} {place : ℕ} (size : data.size = place + endLength)
    (out : Array Entry) : entriesFrom data place out = (out, .unexpectedEnd) := by
  have stopped : entryAt data place = .error .unexpectedEnd := by
    rw [endLength] at size
    unfold entryAt
    rw [if_neg (by omega), if_pos (by rw [entryLength]; omega)]
  unfold entriesFrom
  split
  · rename_i e failed
    cases failed.symm.trans stopped
    rfl
  · rename_i e next read
    cases read.symm.trans stopped

theorem offset_of_mem_describedFrom {offset : ℕ} {e : Entry} (mem : e ∈ describedFrom offset ms) :
    ∃ n : ℕ, e.offset = n ∧ n ≤ offset + (ms.flatMap memberRecord).length := by
  induction ms generalizing offset with
  | nil => cases mem
  | cons m ms ih =>
    rw [List.flatMap_cons, List.length_append]
    rcases List.mem_cons.1 mem with rfl | mem
    · exact ⟨offset, rfl, by omega⟩
    · obtain ⟨n, place, near⟩ := ih mem
      exact ⟨n, place, by omega⟩

theorem length_describedFrom (offset : ℕ) : (describedFrom offset ms).length = ms.length := by
  induction ms generalizing offset with
  | nil => rfl
  | cons m ms ih => rw [describedFrom, List.length_cons, ih, List.length_cons]

/-- Where the end record says that nothing stands in front, offsets count from the start. -/
theorem entries_eq_of_close (data : ByteArray) {e : Ending}
    (close : e.offset = e.directoryOffset + e.directorySize) :
    entries data e = ((entriesFrom data e.directoryOffset #[]).1.map
      fun m => { m with offset := wrap64 (m.offset + 0) },
      (entriesFrom data e.directoryOffset #[]).2) := by
  have shift : (e.offset : ℤ) - e.directorySize - e.directoryOffset = 0 := by omega
  have base : base data e = 0 := by
    unfold Archive.base
    rw [shift]
    simp
  unfold entries
  rw [base]
  simp

/-- Offsets that count from the start of the data stay as they are. -/
theorem map_wrap64_describedFrom (small : (ms.flatMap memberRecord).length < 2 ^ 63) :
    (describedFrom 0 ms).map (fun e => { e with offset := wrap64 (e.offset + 0) }) =
      describedFrom 0 ms := by
  refine (List.map_congr_left fun e mem => ?_).trans (List.map_id _)
  obtain ⟨n, place, near⟩ := offset_of_mem_describedFrom mem
  have same : wrap64 (e.offset + 0) = e.offset := by
    rw [place, Int.add_zero, wrap64_of_lt (by omega)]
  rw [same]
  rfl

/-- The directory of an archive is found, and its members are listed in their order. -/
theorem directory_write (fits : Fits ms) :
    directory (write ms) = .ok (describedFrom 0 ms) := by
  have size := size_write ms
  have small := fits.size
  have count := fits.count
  have records := toList_write ms
  have stands := standsAt_of_eq_append records
  have records' := records.trans (List.append_assoc ..).symm
  rw [← List.append_nil (endRecord _ _ _)] at records'
  have last := standsAt_of_eq_append records'
  rw [List.length_append] at last
  have listed := entriesFrom_of_standsAt fits.names #[] (by omega) stands
  have ended := ending_of_standsAt last size count (by omega) (by omega)
  have near : (ms.flatMap memberRecord).length < 2 ^ 63 := by omega
  have kept := map_wrap64_describedFrom near
  rw [entriesFrom_end size, Array.empty_append] at listed
  have found := entries_eq_of_close (write ms)
    (e := ⟨(ms.flatMap memberRecord).length + (directoryRecords 0 ms).length, ms.length,
      (directoryRecords 0 ms).length, (ms.flatMap memberRecord).length⟩) rfl
  dsimp only at found
  rw [listed, List.map_toArray, kept] at found
  have even : (describedFrom 0 ms).toArray.size = ms.length := by
    rw [List.size_toArray, length_describedFrom]
  have power : Nat.pow 2 63 = 2 ^ 63 := rfl
  unfold directory
  rw [ended]
  dsimp only
  rw [found, power, if_neg (by rw [endLength] at size; omega)]
  dsimp only
  rw [even, if_neg (not_not.2 rfl)]

/-- An archive gives back the members that fit into it. -/
theorem givesBack_of_fits (fits : Fits ms) : GivesBack ms := by
  have size := size_write ms
  have small := fits.size
  have stands : StandsAt (write ms) 0 (ms.flatMap memberRecord) :=
    @standsAt_of_eq_append _ [] _ _ (toList_write ms)
  exact ⟨_, directory_write fits, forall₂_read fits.names fits.files (by omega) stands⟩

end Written

end RoomScript.Archive
