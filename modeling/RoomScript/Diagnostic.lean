import RoomScript.Text.Character
import RoomScript.Text.Number

/-!
# Diagnostics

What can be wrong with a source text or with bytecode, as a closed list of causes.  A diagnostic is
a cause at a place; its code number and its wording are functions of the cause.

* `Cause.code` and `Cause.message` give the number and the text of a cause;
* `Diagnostic.text` is the one-line form with the place in front;
* `Diagnostic.summary?` joins all diagnostics of a run into one text.
-/

namespace RoomScript

/-- What a diagnostic reports.  Codes below 200 are lexical, below 300 come from expansion, below
400 from assembling and the rest from listing bytecode. -/
inductive Cause where
  | unterminatedString
  | unterminatedComment
  | unexpectedEnd
  | invalidExpression
  | invalidSyntax
  | strayElif
  | strayElse
  | strayEndif
  | missingEndif
  | expectedPath
  | expectedMacroName
  | expectedOperand
  | expectedOpenParen
  | expectedCloseParen
  | wrongOperandCount (expected found : Int)
  | recursiveMacro (name : String)
  | includeNotFound (path reason : String)
  | recursiveInclude (path : String)
  | unknownOpcode (mnemonic : String)
  | unknownSymbol (name : String)
  | operandOutOfRange (value : Int) (kind : Char)
  | unexpectedToken (lexeme : String)
  | unknownDirective (name : String)
  | duplicateProcedure (name : String)
  | versionMismatch (script table : Int)
  | invalidNumber (lexeme : String)
  | unknownSize (opcode offset : Int)
  | truncated (opcode offset needed remaining : Int)
  /-- A code reported without the values its wording asks for. -/
  | bare (code : Int)
  deriving DecidableEq, Repr

namespace Cause

/-- The number of a cause. -/
def code : Cause → Int
  | unterminatedString => 100
  | unterminatedComment => 101
  | unexpectedEnd => 102
  | invalidExpression => 200
  | invalidSyntax => 201
  | strayElif => 202
  | strayElse => 203
  | strayEndif => 204
  | missingEndif => 205
  | expectedPath => 206
  | expectedMacroName => 207
  | expectedOperand => 208
  | expectedOpenParen => 209
  | expectedCloseParen => 210
  | wrongOperandCount .. => 211
  | recursiveMacro _ => 212
  | includeNotFound .. => 213
  | recursiveInclude _ => 214
  | unknownOpcode _ => 300
  | unknownSymbol _ => 301
  | operandOutOfRange .. => 302
  | unexpectedToken _ => 303
  | unknownDirective _ => 304
  | duplicateProcedure _ => 305
  | versionMismatch .. => 306
  | invalidNumber _ => 307
  | unknownSize .. => 400
  | truncated .. => 401
  | bare code => code

/-- The wording of a code before any value is filled in. -/
def template (code : Int) : String :=
  match code with
  | 100 => "unterminated string literal"
  | 101 => "unterminated block comment"
  | 102 => "unexpected end of input"
  | 200 => "invalid expression"
  | 201 => "invalid syntax"
  | 202 => "#elif found outside of #if"
  | 203 => "#else found outside of #if"
  | 204 => "#endif found outside of #if"
  | 205 => "no matching #endif for #if"
  | 206 => "expected a quoted path"
  | 207 => "expected macro name"
  | 208 => "expected operand"
  | 209 => "expected '('"
  | 210 => "expected ')'"
  | 211 => "incorrect number of operands, expected %d but got %d"
  | 212 => "recursive expansion of macro '%s'"
  | 213 => "unable to include '%s': %v"
  | 214 => "'%s' includes itself"
  | 300 => "unknown opcode '%s'"
  | 301 => "unknown symbol '%s'"
  | 302 => "operand %d out of range for type '%c'"
  | 303 => "unexpected '%s'"
  | 304 => "unknown directive '%s'"
  | 305 => "procedure '%s' already defined"
  | 306 => "script targets version %d but table is version %d"
  | 307 => "invalid number '%s'"
  | 400 => "opcode 0x%02X at offset 0x%04X has no known size"
  | 401 => "instruction 0x%02X at offset 0x%04X needs %d bytes but only %d remain"
  | _ => "unknown error"

/-- The wording of a cause. -/
def message : Cause → String
  | wrongOperandCount expected found =>
    "incorrect number of operands, expected " ++ Text.decimal 0 expected ++ " but got " ++
      Text.decimal 0 found
  | recursiveMacro name => "recursive expansion of macro '" ++ name ++ "'"
  | includeNotFound path reason => "unable to include '" ++ path ++ "': " ++ reason
  | recursiveInclude path => "'" ++ path ++ "' includes itself"
  | unknownOpcode mnemonic => "unknown opcode '" ++ mnemonic ++ "'"
  | unknownSymbol name => "unknown symbol '" ++ name ++ "'"
  | operandOutOfRange value kind =>
    "operand " ++ Text.decimal 0 value ++ " out of range for type '" ++ String.singleton kind ++ "'"
  | unexpectedToken lexeme => "unexpected '" ++ lexeme ++ "'"
  | unknownDirective name => "unknown directive '" ++ name ++ "'"
  | duplicateProcedure name => "procedure '" ++ name ++ "' already defined"
  | versionMismatch script table =>
    "script targets version " ++ Text.decimal 0 script ++ " but table is version " ++
      Text.decimal 0 table
  | invalidNumber lexeme => "invalid number '" ++ lexeme ++ "'"
  | unknownSize opcode offset =>
    "opcode 0x" ++ Text.hex 2 opcode ++ " at offset 0x" ++ Text.hex 4 offset ++
      " has no known size"
  | truncated opcode offset needed remaining =>
    "instruction 0x" ++ Text.hex 2 opcode ++ " at offset 0x" ++ Text.hex 4 offset ++ " needs " ++
      Text.decimal 0 needed ++ " bytes but only " ++ Text.decimal 0 remaining ++ " remain"
  | cause => template cause.code

end Cause

/-- A cause at a place of a source file.  A diagnostic about bytecode has the empty path. -/
structure Diagnostic where
  path : String
  line : Int
  column : Int
  cause : Cause
  deriving DecidableEq, Repr

namespace Diagnostic

/-- The written form of a code number. -/
def codeText (code : Int) : String :=
  "E" ++ Text.decimal 3 code

/-- The one-line form of a diagnostic. -/
def text (d : Diagnostic) : String :=
  let body := "error " ++ codeText d.cause.code ++ ": " ++ d.cause.message
  if d.path == "" then body
  else d.path ++ "(" ++ Text.decimal 0 d.line ++ "," ++ Text.decimal 0 d.column ++ "): " ++ body

/-- All diagnostics as one text, or nothing when there are none. -/
def summary? (ds : List Diagnostic) : Option String :=
  match ds with
  | [] => none
  | _ =>
    let heading :=
      if ds.length == 1 then "1 error occurred:" else toString ds.length ++ " errors occurred:"
    let points := ds.map fun d => "* " ++ d.text
    some (Text.trim (heading ++ "\n\t" ++ "\n\t".intercalate points))

end Diagnostic

end RoomScript
