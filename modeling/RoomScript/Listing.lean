import RoomScript.Listing.Nesting
import RoomScript.Listing.Walk
import RoomScript.Opcode.Names
import RoomScript.Script

/-!
# Listings

A listing is the source text of a script.  Every procedure is written with its default name, one
instruction to a line, operands by their symbolic names where they have one.  Bytes that are no
instruction are written as they are, sixteen to a line.

* `Listing.procedure` lists one procedure, `Listing.script` all of them by kind.
-/

namespace RoomScript.Listing

/-- What a listing shows.  No setting changes the bytes that the text stands for. -/
structure Options where
  /-- Put the offset of each line behind it. -/
  offsets : Bool := false
  /-- Write numbers instead of names. -/
  numeric : Bool := false
  deriving DecidableEq, Repr

/-- Blanks for a nesting depth. -/
def indent (depth : Nat) : String :=
  Text.repeated depth "    "

/-- One operand of an instruction. -/
def operandText (options : Options) (opcode : UInt8) (block : List UInt8) (index : Nat)
    (operand : Operand) : String :=
  let value := operand.decode (operand.slice block)
  let name :=
    if options.numeric then none
    else (Opcode.instructionName? opcode index { data := block }).or
      (Opcode.valueName? operand.kind value)
  name.getD (Text.decimal 0 value)

/-- An instruction without its indentation. -/
def instructionText (options : Options) (opcode : UInt8) (block : List UInt8) : String :=
  let signature := Opcode.signature opcode
  match signature.layout (block.length + 1) with
  | [] => signature.mnemonic
  | layout =>
    signature.mnemonic ++ " " ++
      ", ".intercalate (layout.zipIdx.map fun (operand, i) =>
        operandText options opcode block i operand)

/-- End a line that stands for the bytes at an offset. -/
def endLine (options : Options) (offset : Nat) (line : String) : String :=
  if options.offsets then line ++ " ; 0x" ++ Text.hex 4 offset ++ "\n" else line ++ "\n"

/-- A line of bytes as they are. -/
def rawLine (depth : Nat) (bytes : List UInt8) : String :=
  indent depth ++ ".db " ++ ", ".intercalate (bytes.map fun b => "0x" ++ Text.hex 2 b.toNat)

/-- How many raw bytes stand on a line. -/
def rawPerLine : Nat := 16

/-- Lines of raw bytes from an offset on, put after `out`. -/
def rawOnto (options : Options) (depth offset : Nat) (bytes : List UInt8) (out : String) : String :=
  match bytes with
  | [] => out
  | b :: rest =>
    rawOnto options depth (offset + ((b :: rest).take rawPerLine).length)
      ((b :: rest).drop rawPerLine)
      (out ++ endLine options offset (rawLine depth ((b :: rest).take rawPerLine)))
termination_by bytes.length
decreasing_by
  simp only [rawPerLine, List.length_drop, List.length_cons]
  omega

/-- The state of listing a procedure. -/
structure State where
  text : String
  offset : Nat := 0
  nesting : Nesting := {}

/-- List one piece of a procedure. -/
def State.piece (options : Options) (s : State) : Piece → State
  | .raw bytes =>
    { s with text := rawOnto options s.nesting.depth s.offset bytes s.text,
             offset := s.offset + bytes.length }
  | .instruction opcode block =>
    let mnemonic := (Opcode.signature opcode).mnemonic
    let isCondition := Opcode.isCondition opcode
    let nesting := s.nesting.before mnemonic
    let margin := match nesting.condition, isCondition with
      | some depth, true => indent depth ++ "  "
      | _, _ => indent nesting.depth
    { text := s.text ++ endLine options s.offset (margin ++ instructionText options opcode block)
      offset := s.offset + 1 + block.length
      nesting := nesting.after mnemonic isCondition }

/-- List a procedure behind `text`. -/
def procedureOnto (options : Options) (text : String) (p : Procedure) : String :=
  ((cut p.data).1.foldl (State.piece options)
    { text := text ++ ".proc " ++ Procedure.defaultName p.kind p.index ++ "\n" }).text

/-- The listing of a procedure. -/
def procedure (options : Options) (p : Procedure) : String :=
  procedureOnto options "" p

/-- List the procedures of one kind behind `text`. -/
def kindOnto (options : Options) (s : Script) (text : String) (kind : Kind) : String :=
  match s.ofKind kind with
  | [] => text
  | procedures =>
    procedures.foldl (fun text p => procedureOnto options (text ++ "\n") p)
      (text ++ "\n." ++ kind.name ++ "\n")

/-- The listing of a script: its version, and its procedures by kind. -/
def script (options : Options) (s : Script) : String :=
  Kind.named.foldl (kindOnto options s)
    (".version " ++ Text.decimal 0 s.version.number ++ "\n")

/-- The reports on the procedures of a script, in the order of the listing. -/
def diagnostics (s : Script) : List Diagnostic :=
  Kind.named.flatMap fun kind => (s.ofKind kind).flatMap fun p => (cut p.data).2.toList

end RoomScript.Listing
