import RoomScript.Diagnostic
import RoomScript.Opcode.Table

/-!
# Cutting bytecode into instructions

Bytecode is read from the front, one instruction after the other.  Where the size of the next
instruction is not known, or not all of it is there, the rest is kept as raw bytes and the reason is
reported.  The pieces in their order are the bytes they were cut from.
-/

namespace RoomScript.Listing

/-- A piece of bytecode. -/
inductive Piece where
  /-- A whole instruction in use. -/
  | instruction (opcode : UInt8) (operands : List UInt8)
  /-- Bytes with no mnemonic. -/
  | raw (bytes : List UInt8)
  deriving DecidableEq, Repr

/-- The bytes of a piece. -/
def Piece.bytes : Piece → List UInt8
  | instruction opcode operands => opcode :: operands
  | raw bytes => bytes

/-- The report that nothing is known about the instruction at an offset. -/
def unknownSize (opcode : UInt8) (offset : Nat) : Diagnostic :=
  ⟨"", 0, 0, .unknownSize opcode.toNat offset⟩

/-- The report that bytes of the instruction at an offset are missing. -/
def truncated (opcode : UInt8) (offset needed remaining : Nat) : Diagnostic :=
  ⟨"", 0, 0, .truncated opcode.toNat offset needed remaining⟩

/-- Cut bytes that start at an offset, putting the pieces after `out`. -/
def cutOnto (offset : Nat) (data : List UInt8) (out : Array Piece) :
    Array Piece × Option Diagnostic :=
  match data with
  | [] => (out, none)
  | opcode :: rest =>
    let size := Opcode.size opcode
    if size = 0 then (out.push (.raw data), some (unknownSize opcode offset))
    else
      let operands := rest.take (size - 1)
      if operands.length < size - 1 then
        (out.push (.raw data), some (truncated opcode offset size data.length))
      else
        let piece : Piece :=
          if (Opcode.signature opcode).isReserved then .raw (opcode :: operands)
          else .instruction opcode operands
        cutOnto (offset + size) (rest.drop (size - 1)) (out.push piece)
termination_by data.length
decreasing_by
  simp only [List.length_drop, List.length_cons]
  omega

/-- The pieces of a procedure, and why the last one is raw if the bytes do not end with a whole
instruction. -/
def cut (data : List UInt8) : List Piece × Option Diagnostic :=
  let (pieces, fault) := cutOnto 0 data #[]
  (pieces.toList, fault)

end RoomScript.Listing
