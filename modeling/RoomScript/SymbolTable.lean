import RoomScript.Json
import RoomScript.Opcode.Names
import RoomScript.Text.Quoted

/-!
# Tables of symbol names

The names of operand values can be shown as a table, as JSON or as YAML.
-/

namespace RoomScript.SymbolTable

open Opcode (Symbol)

/-- How the names are shown. -/
inductive Format where
  | table
  | json
  | yaml
  deriving DecidableEq, Repr

/-- The format with a name. -/
def Format.parse? : String → Option Format
  | "table" => some table
  | "json" => some json
  | "yaml" => some yaml
  | _ => none

/-- The names of the kinds that stand in a text; all names when it is empty. -/
def select (kinds : String) : List Symbol :=
  Opcode.symbols.filter fun s => kinds == "" || kinds.toList.contains s.kind

/-! ## Tables -/

/-- The cells of a row. -/
def cells (s : Symbol) : List String :=
  [String.singleton s.kind, toString s.group, "0x" ++ Text.hex 2 s.value, s.name]

/-- The heads of the columns. -/
def heads : List String := ["KIND", "GROUP", "VALUE", "NAME"]

/-- A row with every cell but the last filled up to the width of its column. -/
def row : List Nat → List String → String
  | _, [] => "\n"
  | _, [last] => last ++ "\n"
  | [], cell :: rest => cell ++ row [] rest
  | width :: widths, cell :: rest => Text.padRight width cell ++ row widths rest

/-- The widths of the columns: that of the widest cell and two blanks. -/
def widths (rows : List (List String)) : List Nat :=
  (List.range heads.length).map fun i => (rows.map fun r => (r.getD i "").length).foldl max 0 + 2

/-- Rows with aligned columns, below their heads. -/
def tableText (symbols : List Symbol) : String :=
  let rows := heads :: symbols.map cells
  String.join (rows.map (row (widths rows)))

/-! ## Data formats -/

/-- A name as a JSON object. -/
def jsonItem (s : Symbol) : String :=
  "  \x7b\n    \"kind\": " ++ Json.quoted (String.singleton s.kind) ++ ",\n    \"value\": " ++
    toString s.value ++ ",\n    \"name\": " ++ Json.quoted s.name ++
    (if s.group = 0 then "" else ",\n    \"group\": " ++ toString s.group) ++ "\n  \x7d"

/-- A JSON array; there is none without names. -/
def jsonText (symbols : List Symbol) : String :=
  if symbols.isEmpty then "null\n"
  else "[\n" ++ ",\n".intercalate (symbols.map jsonItem) ++ "\n]\n"

/-- A text in YAML.  It stands in quotes when it would be read as a number. -/
def yamlText (text : String) : String :=
  if (Text.intLiteral 64 text).isOk then "\"" ++ text ++ "\"" else text

/-- A name as a YAML mapping. -/
def yamlItem (s : Symbol) : String :=
  "- kind: " ++ yamlText (String.singleton s.kind) ++ "\n  value: " ++ toString s.value ++
    "\n  name: " ++ yamlText s.name ++ "\n" ++
    (if s.group = 0 then "" else "  group: " ++ toString s.group ++ "\n")

/-- A YAML sequence. -/
def yamlSequence (symbols : List Symbol) : String :=
  if symbols.isEmpty then "[]\n" else String.join (symbols.map yamlItem)

/-- Names in a format. -/
def render : Format → List Symbol → String
  | .table => tableText
  | .json => jsonText
  | .yaml => yamlSequence

end RoomScript.SymbolTable
