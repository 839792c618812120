/-!
# Bytes read as text

Source text is a list of code points read from bytes.  Every well-formed UTF-8 sequence gives its
code point; a byte that starts no well-formed sequence gives U+FFFD on its own, and reading goes on
with the byte after it.
-/

namespace RoomScript.Text

/-- The character that stands for a byte which is not part of any well-formed sequence. -/
def replacement : Char := Char.ofNat 0xFFFD

/-- A number that is half of a pair, two of which stand for one character. -/
def isSurrogate (n : Nat) : Bool :=
  0xD800 ≤ n && n < 0xE000

/-- A byte that may follow the first byte of a sequence. -/
def isContinuation (b : UInt8) : Bool :=
  0x80 ≤ b && b ≤ 0xBF

/-- The six low bits of a continuation byte. -/
def payload (b : UInt8) : Nat :=
  b.toNat % 64

/-- The second bytes a three-byte sequence admits: no overlong forms and no surrogates. -/
def isSecondOfThree (first second : UInt8) : Bool :=
  isContinuation second && (first != 0xE0 || 0xA0 ≤ second) && (first != 0xED || second ≤ 0x9F)

/-- The second bytes a four-byte sequence admits: no overlong forms and nothing past U+10FFFF. -/
def isSecondOfFour (first second : UInt8) : Bool :=
  isContinuation second && (first != 0xF0 || 0x90 ≤ second) && (first != 0xF4 || second ≤ 0x8F)

/-- Read the well-formed sequence that starts with `b`, if there is one, and return its character
and the bytes after it. -/
def readChar? (b : UInt8) (rest : List UInt8) : Option (Char × List UInt8) :=
  if b < 0x80 then some (Char.ofNat b.toNat, rest)
  else if 0xC2 ≤ b && b ≤ 0xDF then
    match rest with
    | c :: r =>
      if isContinuation c then some (Char.ofNat (b.toNat % 32 * 64 + payload c), r) else none
    | [] => none
  else if 0xE0 ≤ b && b ≤ 0xEF then
    match rest with
    | c :: d :: r =>
      if isSecondOfThree b c && isContinuation d then
        some (Char.ofNat ((b.toNat % 16 * 64 + payload c) * 64 + payload d), r)
      else none
    | _ => none
  else if 0xF0 ≤ b && b ≤ 0xF4 then
    match rest with
    | c :: d :: e :: r =>
      if isSecondOfFour b c && isContinuation d && isContinuation e then
        some (Char.ofNat (((b.toNat % 8 * 64 + payload c) * 64 + payload d) * 64 + payload e), r)
      else none
    | _ => none
  else none

/-- A sequence takes at least one byte. -/
theorem length_readChar? {b : UInt8} {rest after : List UInt8} {c : Char}
    (h : readChar? b rest = some (c, after)) : after.length ≤ rest.length := by
  unfold readChar? at h
  split at h
  · simp only [Option.some.injEq, Prod.mk.injEq] at h
    simp [h.2]
  · split at h
    · split at h
      · split at h
        · simp only [Option.some.injEq, Prod.mk.injEq] at h
          simp [h.2]
        · simp at h
      · simp at h
    · split at h
      · split at h
        · split at h
          · simp only [Option.some.injEq, Prod.mk.injEq] at h
            simp only [List.length_cons, h.2]
            omega
          · simp at h
        · simp at h
      · split at h
        · split at h
          · split at h
            · simp only [Option.some.injEq, Prod.mk.injEq] at h
              simp only [List.length_cons, h.2]
              omega
            · simp at h
          · simp at h
        · simp at h

/-- Read one character that starts with `b`, and return the bytes after it. -/
def decodeChar (b : UInt8) (rest : List UInt8) : Char × List UInt8 :=
  (readChar? b rest).getD (replacement, rest)

/-- One character takes at least one byte. -/
theorem length_decodeChar (b : UInt8) (rest : List UInt8) :
    (decodeChar b rest).2.length ≤ rest.length := by
  unfold decodeChar
  cases read : readChar? b rest with
  | none => simp
  | some found => exact length_readChar? read

/-- Read all characters, putting them in front of the reversed list `read`. -/
def decodeOnto (bytes : List UInt8) (read : List Char) : List Char :=
  match bytes with
  | [] => read.reverse
  | b :: rest =>
    have := length_decodeChar b rest
    decodeOnto (decodeChar b rest).2 ((decodeChar b rest).1 :: read)
termination_by bytes.length
decreasing_by simp; omega

/-- The code points of a byte string. -/
def decode (bytes : List UInt8) : List Char :=
  decodeOnto bytes []

/-- The text of a byte string: as it is when it is valid UTF-8, with replacement characters
otherwise. -/
def ofBytes (bytes : ByteArray) : String :=
  match String.fromUTF8? bytes with
  | some text => text
  | none => String.ofList (decode bytes.toList)

/-- The bytes of a text are read as that text. -/
theorem ofBytes_toUTF8 (s : String) : ofBytes s.toUTF8 = s := by
  have read : String.fromUTF8? s.toUTF8 = some s := by
    simp only [String.fromUTF8?, String.toUTF8_eq_toByteArray, dif_pos s.isValidUTF8]
    rfl
  simp only [ofBytes, read]

end RoomScript.Text
