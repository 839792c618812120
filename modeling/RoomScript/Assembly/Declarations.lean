import RoomScript.Assembly.Line

/-!
# Declared procedures

Every procedure has an index among those of its kind before any operand is evaluated, so an operand
can name a procedure that is declared further down.  A procedure is declared by its own line, or by
the first statement where no procedure is open.
-/

namespace RoomScript.Assembly

/-- The procedures declared so far. -/
structure Declarations where
  /-- The kind of the procedures that follow. -/
  kind : Kind := .main
  /-- Whether statements belong to the last procedure. -/
  isOpen : Bool := false
  /-- Kinds and names, in the order of declaration. -/
  names : Array (Kind × String) := #[]
  /-- Reports of names that had been given before. -/
  diagnostics : Array Diagnostic := #[]

namespace Declarations

/-- How many procedures of the current kind have been declared. -/
def count (d : Declarations) : Nat :=
  d.names.countP (·.1 == d.kind)

/-- Declare a procedure at a place.  A repeated name is reported. -/
def declare (d : Declarations) (name? : Option String) (place : Token) : Declarations :=
  let name := name?.getD (Procedure.defaultName d.kind d.count)
  { d with
    isOpen := true
    names := d.names.push (d.kind, name)
    diagnostics :=
      if d.names.contains (d.kind, name) then
        d.diagnostics.push (place.diagnostic (.duplicateProcedure name))
      else d.diagnostics }

/-- Take notice of a line. -/
def line (d : Declarations) (l : Line) : Declarations :=
  match l.role with
  | .stray | .version => d
  | .switch kind => { d with kind, isOpen := false }
  | .procedure => d.declare l.procedureName? l.head
  | .bytes | .unknownDirective | .instruction =>
    if d.isOpen then d else d.declare none l.head

/-- The procedures that lines declare. -/
def ofLines (lines : List Line) : Declarations :=
  lines.foldl line {}

/-- The names of one kind in the order of their indices. -/
def ofKind (d : Declarations) (kind : Kind) : List String :=
  (d.names.filter (·.1 == kind)).toList.map (·.2)

/-- The index of the first procedure of a kind with a name. -/
def index? (d : Declarations) (kind : Kind) (name : String) : Option Nat :=
  (d.ofKind kind).idxOf? name

end Declarations

end RoomScript.Assembly
