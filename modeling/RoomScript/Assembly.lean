import RoomScript.Assembly.Declarations
import RoomScript.Assembly.Value
import RoomScript.Preprocess.Stream

/-!
# Assembling

Expanded text becomes a script in two passes over its lines.  The first gives every procedure its
index (`Declarations.ofLines`); the second collects the statements of each procedure
(`Block.ofLines`) and encodes them.  A statement's bytes depend on the line and the declared names
only.

* `Line.encode` gives the bytes and diagnostics of one line;
* `assemble` puts the procedures together;
* `assembleFile` does so for a file of a library.
-/

namespace RoomScript.Assembly

/-! ## Statements -/

namespace Line

/-- Check the engine version a script is written for. -/
def versionDiagnostics (l : Line) : List Diagnostic :=
  match l.operands with
  | [[t]] =>
    match if t.kind = .number then Text.int32? t.lexeme else none with
    | none => [t.diagnostic (.invalidNumber t.lexeme)]
    | some v =>
      if v = Version.bio2.number then []
      else [t.diagnostic (.versionMismatch v Version.bio2.number)]
  | _ => [l.wrongCount 1]

/-- Check the name of a procedure. -/
def procedureDiagnostics (l : Line) : List Diagnostic :=
  match l.operands with
  | [operand] =>
    match l.procedureName?, operand with
    | none, t :: _ => [t.diagnostic (.unexpectedToken t.lexeme)]
    | _, _ => []
  | _ => [l.wrongCount 1]

/-- One byte given as it is. -/
def rawByte : Operand := ⟨'u', 0, 1, false⟩

/-- The bytes of those operands that have a value, and the reports on the others. -/
def encodeOperands (procedures : List String) (head : Token) :
    List (Operand × List Token) → List UInt8 × List Diagnostic
  | [] => ([], [])
  | (operand, tokens) :: rest =>
    let (bytes, diagnostics) := encodeOperands procedures head rest
    match operandValue procedures head operand tokens with
    | .ok v => (operand.encode v ++ bytes, diagnostics)
    | .error d => (bytes, d :: diagnostics)

/-- An instruction: the opcode and its operands.  Padding operands may be left out, and are zero
then.  Nothing is encoded when any operand has no value. -/
def encodeInstruction (procedures : List String) (l : Line) : List UInt8 × List Diagnostic :=
  match Opcode.find? l.mnemonic with
  | none => ([], [l.head.diagnostic (.unknownOpcode l.mnemonic)])
  | some opcode =>
    let signature := Opcode.signature opcode
    let layout := signature.layout (Opcode.size opcode)
    if l.operands.length ≠ layout.length ∧ l.operands.length ≠ signature.kinds.length then
      ([], [l.wrongCount layout.length])
    else
      let (bytes, diagnostics) := encodeOperands procedures l.head (layout.zip l.operands)
      let padding := (layout.drop l.operands.length).flatMap (·.encode 0)
      if diagnostics.isEmpty then (opcode :: (bytes ++ padding), []) else ([], diagnostics)

/-- The bytes a line adds to its procedure and the reports on it. -/
def encode (procedures : List String) (l : Line) : List UInt8 × List Diagnostic :=
  match l.role with
  | .stray => ([], [l.head.diagnostic (.unexpectedToken l.head.lexeme)])
  | .switch _ => ([], if l.operands.isEmpty then [] else [l.wrongCount 0])
  | .version => ([], l.versionDiagnostics)
  | .procedure => ([], l.procedureDiagnostics)
  | .bytes => encodeOperands procedures l.head (l.operands.map fun o => (rawByte, o))
  | .unknownDirective => ([], [l.head.diagnostic (.unknownDirective l.mnemonic)])
  | .instruction => l.encodeInstruction procedures

end Line

/-! ## Procedures -/

/-- The lines of one procedure. -/
structure Block where
  kind : Kind
  /-- The name it was given, if any. -/
  name? : Option String := none
  lines : List Line := []

/-- The procedures collected so far, the last one first, each with its last line first. -/
structure Blocks where
  /-- The kind of the procedures that follow. -/
  kind : Kind := .main
  /-- Whether statements belong to the last procedure. -/
  isOpen : Bool := false
  collected : List Block := []

namespace Blocks

/-- Begin a procedure. -/
def start (b : Blocks) (name? : Option String) : Blocks :=
  { b with isOpen := true, collected := { kind := b.kind, name? } :: b.collected }

/-- Add a statement to the last procedure. -/
def addStatement (b : Blocks) (l : Line) : Blocks :=
  match b.collected with
  | [] => b
  | block :: before => { b with collected := { block with lines := l :: block.lines } :: before }

/-- Put a line where it belongs. -/
def line (b : Blocks) (l : Line) : Blocks :=
  match l.role with
  | .stray | .version => b
  | .switch kind => { b with kind, isOpen := false }
  | .procedure => b.start l.procedureName?
  | .bytes | .unknownDirective | .instruction =>
    if b.isOpen then b.addStatement l else (b.start none).addStatement l

end Blocks

/-- The procedures of a text with their statements, in order. -/
def Block.ofLines (lines : List Line) : List Block :=
  ((lines.foldl Blocks.line {}).collected.map fun b => { b with lines := b.lines.reverse }).reverse

/-- Append a procedure with its statements encoded. -/
def Block.addTo (procedures : List String) (s : Script) (b : Block) : Script :=
  let name := b.name?.getD (Procedure.defaultName b.kind (s.ofKind b.kind).length)
  s.add b.kind name (b.lines.flatMap fun l => (l.encode procedures).1)

/-! ## Scripts -/

/-- The result of assembling: the script, and all diagnostics of the run. -/
structure Outcome where
  script : Script
  diagnostics : List Diagnostic
  /-- Remarks for whoever watches. -/
  remarks : List String := []

namespace Outcome

/-- The script, when nothing was reported. -/
def result (o : Outcome) : Except (List Diagnostic) Script :=
  if o.diagnostics.isEmpty then .ok o.script else .error o.diagnostics

end Outcome

/-- The remark on a finished procedure. -/
def procedureRemark (p : Procedure) : String :=
  p.kind.name ++ " procedure " ++ Text.decimal 0 p.index ++ " (" ++ p.name ++ "): " ++
    toString p.data.length ++ " bytes"

/-- Assemble expanded text, adding to what its expansion reported. -/
def assemble (tokens : List Token) (before : List Diagnostic := []) (remarks : List String := []) :
    Outcome :=
  let lines := Line.ofText tokens
  let declarations := Declarations.ofLines lines
  let procedures := declarations.ofKind .main
  let script := (Block.ofLines lines).foldl (Block.addTo procedures) { version := .bio2 }
  { script
    diagnostics := before ++ declarations.diagnostics.toList ++
      lines.flatMap fun l => (l.encode procedures).2
    remarks := remarks ++ script.procedures.map procedureRemark }

/-- Expand and assemble a file, with macros defined beforehand. -/
def assembleFile (lib : Library) (path : String) (defines : List (String × String)) : Outcome :=
  let p := defines.foldl (fun (p : Preprocessor) d => p.define d.1 d.2) {}
  let (tokens, p) := p.expand lib path
  assemble tokens p.diagnostics p.remarks

end RoomScript.Assembly
