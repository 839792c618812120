/-!
# Readers

A reader takes a value from the front of a byte string.  What it leaves is shorter, and it carries
the proof of that along, so that loops over readers end.
-/

namespace RoomScript.Json

/-- A value taken from the front of `bytes`, and the bytes behind it. -/
structure Taken (bytes : List UInt8) (α : Type) where
  value : α
  rest : List UInt8
  shorter : rest.length < bytes.length

/-- A reader gives a value from the front of a byte string, or fails. -/
abbrev Reader (α : Type) : Type :=
  (bytes : List UInt8) → Option (Taken bytes α)

/-- What is taken behind something taken is taken behind both. -/
def Taken.behind {α β : Type} {bytes : List UInt8} (x : Taken bytes α) (y : Taken x.rest β) :
    Taken bytes β :=
  ⟨y.value, y.rest, Nat.lt_trans y.shorter x.shorter⟩

/-- Read one value, and then another that depends on it. -/
def Reader.followed {α β : Type} (first : Reader α) (second : α → Reader β) : Reader β :=
  fun bytes =>
    match first bytes with
    | none => none
    | some x => (second x.value x.rest).map x.behind

/-- Turn the value that is read into another. -/
def Reader.map {α β : Type} (f : α → β) (r : Reader α) : Reader β :=
  fun bytes => (r bytes).map fun x => ⟨f x.value, x.rest, x.shorter⟩

/-- White space between the parts of a value. -/
def isSpace (b : UInt8) : Bool :=
  b == ' '.toUInt8 || b == '\t'.toUInt8 || b == '\n'.toUInt8 || b == '\r'.toUInt8

theorem length_dropSpace (bytes : List UInt8) : (bytes.dropWhile isSpace).length ≤ bytes.length :=
  (List.dropWhile_suffix isSpace).length_le

/-- What is taken behind white space is taken. -/
def Taken.spaced {α : Type} {bytes : List UInt8} (x : Taken (bytes.dropWhile isSpace) α) :
    Taken bytes α :=
  ⟨x.value, x.rest, Nat.lt_of_lt_of_le x.shorter (length_dropSpace bytes)⟩

/-- The next byte that is not white space. -/
def token : Reader UInt8 := fun bytes =>
  match _spaced : bytes.dropWhile isSpace with
  | [] => none
  | b :: rest =>
    some ⟨b, rest, by
      have := length_dropSpace bytes
      rw [_spaced] at this
      exact this⟩

/-- Read a mark, with white space in front of it or none. -/
def mark (c : Char) : Reader Unit := fun bytes =>
  match token bytes with
  | none => none
  | some b => if b.value = c.toUInt8 then some ⟨(), b.rest, b.shorter⟩ else none

/-- The bytes behind an ASCII word, when they start with it. -/
def dropWord? (word : String) (bytes : List UInt8) : Option (List UInt8) :=
  let expected := word.toUTF8.toList
  if expected.isPrefixOf bytes then some (bytes.drop expected.length) else none

theorem length_dropWord? {word : String} {bytes rest : List UInt8}
    (h : dropWord? word bytes = some rest) : rest.length ≤ bytes.length := by
  simp only [dropWord?, Option.ite_none_right_eq_some, Option.some.injEq] at h
  simp [← h.2]

/-- A value that stands for the rest of a word, the beginning of which has been taken. -/
def Taken.word {α β : Type} {bytes : List UInt8} (x : Taken bytes α) (word : String) (value : β) :
    Option (Taken bytes β) :=
  match _dropped : dropWord? word x.rest with
  | none => none
  | some rest =>
    some ⟨value, rest, Nat.lt_of_le_of_lt (length_dropWord? _dropped) x.shorter⟩

end RoomScript.Json
