import RoomScript.Script
import RoomScript.Token

/-!
# Statement lines

The assembler reads expanded text line by line.  Layout is dropped, lines with nothing on them are
passed over, and the rest of a line is cut into operands at its commas.
-/

namespace RoomScript.Assembly

/-- A line with something on it. -/
structure Line where
  /-- The first token. -/
  head : Token
  /-- The operands, each a list of tokens. -/
  operands : List (List Token) := []
  deriving DecidableEq, Repr

namespace Line

/-- A line from its tokens, layout apart. -/
def ofTokens? : List Token → Option Line
  | [] => none
  | [head] => some { head }
  | head :: rest => some { head, operands := rest.splitOnP (·.kind == .comma) }

/-- The lines of expanded text, up to its end. -/
def ofText (tokens : List Token) : List Line :=
  (((tokens.takeWhile (·.kind != .eof)).filter (! ·.isLayout)).splitOnP
    (·.kind == .newline)).filterMap ofTokens?

/-- The name at the beginning of a line, empty when the line begins with something else. -/
def mnemonic (l : Line) : String :=
  if l.head.kind = .symbol then l.head.lexeme else ""

/-- What a line is for. -/
inductive Role where
  /-- The line begins with no name. -/
  | stray
  /-- Procedures of another kind follow. -/
  | switch (kind : Kind)
  /-- The engine version of the script. -/
  | version
  /-- A procedure begins. -/
  | procedure
  /-- Bytes as they are. -/
  | bytes
  /-- A directive that is not known. -/
  | unknownDirective
  | instruction
  deriving DecidableEq, Repr

/-- The role of a line follows from its first name. -/
def role (l : Line) : Role :=
  match l.mnemonic with
  | "" => .stray
  | ".init" => .switch .init
  | ".main" => .switch .main
  | ".event" => .switch .event
  | ".version" => .version
  | ".proc" => .procedure
  | ".db" => .bytes
  | name => if name.toList.head? = some '.' then .unknownDirective else .instruction

/-- The name a line gives to the procedure that begins with it.  An empty text is no name. -/
def procedureName? (l : Line) : Option String :=
  match l.operands with
  | [[t]] => if t.kind = .symbol ∧ t.lexeme ≠ "" then some t.lexeme else none
  | _ => none

/-- The report that a line has the wrong number of operands. -/
def wrongCount (l : Line) (expected : Nat) : Diagnostic :=
  l.head.diagnostic (.wrongOperandCount expected l.operands.length)

end Line

end RoomScript.Assembly
