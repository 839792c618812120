import RoomScript.Text.Utf8

/-!
# Operands and signatures

A signature is a mnemonic with one character for each operand.  The character decides how wide an
operand is and whether it is signed; the operands follow one another without gaps, and bytes of the
instruction that no operand covers are padding operands of their own.

* `Signature.layout` gives the operands of an instruction with their offsets;
* `Operand.encode` and `Operand.decode` turn values into little-endian bytes and back.
-/

namespace RoomScript

/-- One operand of an instruction: its signature character, its offset from the first operand byte
and its encoding. -/
structure Operand where
  kind : Char
  offset : Nat
  width : Nat
  signed : Bool
  deriving DecidableEq, Repr

namespace Operand

/-- The size in bytes of operands with a signature character. -/
def widthOf (kind : Char) : Nat :=
  if kind ∈ ['U', 'I', 'L', '@', '~', 'T'] then 2 else 1

/-- Operands with this signature character are read as two's complement. -/
def signedOf (kind : Char) : Bool :=
  kind == 'I' || kind == '~'

/-- The operand with a signature character at an offset. -/
def ofKind (kind : Char) (offset : Nat) : Operand :=
  ⟨kind, offset, widthOf kind, signedOf kind⟩

/-- A padding byte at an offset. -/
def padding (offset : Nat) : Operand :=
  ⟨'u', offset, 1, false⟩

/-- The least value an operand accepts. -/
def low (o : Operand) : Int :=
  if o.width = 2 then -0x8000 else -0x80

/-- The greatest value an operand accepts: signed and unsigned spellings of the same bits are both
allowed. -/
def high (o : Operand) : Int :=
  if o.width = 2 then 0xFFFF else 0xFF

/-- The low eight bits of a number. -/
def lowByte (v : Int) : UInt8 :=
  UInt8.ofNat (v % 256).toNat

/-- The bytes of a value, low byte first. -/
def encode (o : Operand) (v : Int) : List UInt8 :=
  if o.width = 2 then [lowByte v, lowByte (v / 256)] else [lowByte v]

/-- The two's complement value of a 16-bit number. -/
def signedWord (n : Nat) : Int :=
  if n < 0x8000 then n else (n : Int) - 0x10000

/-- The value of an operand's bytes.  Bytes that are missing count as zero. -/
def decode (o : Operand) (bytes : List UInt8) : Int :=
  let first := (bytes.getD 0 0).toNat
  if o.width = 2 then
    let word := first + 256 * (bytes.getD 1 0).toNat
    if o.signed then signedWord word else word
  else first

/-- The bytes of an operand within the operand block of its instruction. -/
def slice (o : Operand) (block : List UInt8) : List UInt8 :=
  (block.drop o.offset).take o.width

end Operand

/-- A mnemonic and its operand characters, which are the bytes of the operand text. -/
structure Signature where
  mnemonic : String
  kinds : List Char
  deriving DecidableEq, Repr

namespace Signature

/-- The bytes of a text, each as the character with its number. -/
def byteChars (text : List Char) : List Char :=
  text.flatMap fun c =>
    if c.toNat < 0x80 then [c] else (String.utf8EncodeChar c).map fun b => Char.ofNat b.toNat

/-- Cut a signature text at its first colon. -/
def parse (text : String) : Signature :=
  let cs := text.toList
  ⟨String.ofList (cs.takeWhile (· != ':')), byteChars (cs.dropWhile (· != ':')).tail⟩

/-- A signature without a mnemonic marks an opcode that is not in use. -/
def isReserved (s : Signature) : Bool :=
  s.mnemonic == ""

/-- The operand text. -/
def operands (s : Signature) : String :=
  Text.ofBytes (s.kinds.map fun kind => UInt8.ofNat kind.toNat).toByteArray

/-- The characters of a text's bytes have the numbers of these bytes. -/
theorem map_byteChars (text : List Char) :
    (byteChars text).map (fun kind => UInt8.ofNat kind.toNat) =
      text.flatMap String.utf8EncodeChar := by
  rw [byteChars, List.map_flatMap]
  congr 1
  funext c
  split
  case isTrue small => simp [String.utf8EncodeChar, Nat.le_of_lt_succ small]
  case isFalse large =>
    rw [List.map_map]
    refine (List.map_congr_left fun b _ => ?_).trans (List.map_id _)
    have number : (Char.ofNat b.toNat).toNat = b.toNat := by
      have valid : b.toNat.isValidChar := Or.inl (Nat.lt_trans b.toNat_lt (by decide))
      rw [Char.ofNat, dif_pos valid]
      rfl
    rw [Function.comp_apply, number, UInt8.ofNat_toNat, id]

/-- The operand text is what stands behind the colon. -/
theorem operands_parse (text : String) :
    (parse text).operands = String.ofList (text.toList.dropWhile (· != ':')).tail := by
  rw [operands, parse, map_byteChars]
  exact Text.ofBytes_toUTF8 (String.ofList _)

/-- The number of bytes that the operand characters describe. -/
def width (s : Signature) : Nat :=
  s.kinds.foldr (fun kind total => Operand.widthOf kind + total) 0

/-- Operands for the given characters, one after the other from an offset on. -/
def layoutFrom (offset : Nat) : List Char → List Operand
  | [] => []
  | kind :: rest => Operand.ofKind kind offset :: layoutFrom (offset + Operand.widthOf kind) rest

/-- The operands of an instruction of `size` bytes, the opcode byte counted. -/
def layout (s : Signature) (size : Nat) : List Operand :=
  layoutFrom 0 s.kinds ++
    (List.range (size - 1 - s.width)).map fun i => Operand.padding (s.width + i)

end Signature

end RoomScript
