import RoomScript.Text.Character
import RoomScript.Text.Number

/-!
# Comma-separated records

A record is a line of fields with commas between them.  A field with a comma, a quote or a line end
in it stands in quotes, where a quote is written twice and the record may go on over several lines.

* `Record.read` reads the first record of a text;
* `Record.write` writes a record on one line, without the line end.
-/

namespace RoomScript.Record

/-! ## Faults -/

/-- Why a text has no record. -/
inductive Error where
  /-- There are empty lines only. -/
  | noRecord
  /-- A quote within a field that does not start with one. -/
  | bareQuote (first line column : Nat)
  /-- A quoted field that is not closed, or goes on behind its closing quote. -/
  | brokenQuotes (first line column : Nat)
  deriving DecidableEq, Repr

/-- Where a fault stands, in a record that starts on the line `first`. -/
def placeText (first line column : Nat) : String :=
  (if first = line then "" else "record on line " ++ toString first ++ "; ") ++
    "parse error on line " ++ toString line ++ ", column " ++ toString column

/-- The wording of a fault. -/
def Error.message : Error → String
  | noRecord => "EOF"
  | bareQuote first line column => placeText first line column ++ ": bare \" in non-quoted-field"
  | brokenQuotes first line column =>
    placeText first line column ++ ": extraneous or missing \" in quoted-field"

/-! ## Lines -/

/-- A line, last character first, without a carriage return at its end. -/
def dropReturn : List Char → List Char
  | '\r' :: line => line
  | line => line

/-- The lines of a text, each with its line end.  The end of a line is a line feed, also where a
carriage return stands before it; a carriage return at the end of the text is dropped, and makes no
line of its own. -/
def linesOnto (line : List Char) : List Char → List (List Char)
  | [] => if (dropReturn line).isEmpty then [] else [(dropReturn line).reverse]
  | '\n' :: rest => ('\n' :: dropReturn line).reverse :: linesOnto [] rest
  | c :: rest => linesOnto (c :: line) rest

/-- The lines of a text. -/
def lines (text : String) : List (List Char) :=
  linesOnto [] text.toList

/-- A line with nothing but its end. -/
def isEmptyLine (line : List Char) : Bool :=
  line = ['\n']

/-! ## Reading -/

/-- Where reading stands in a record. -/
inductive Place where
  /-- At the start of a field. -/
  | start
  /-- In a field without quotes. -/
  | plain
  /-- In quotes. -/
  | quoted
  /-- Behind a quote in quotes. -/
  | closing
  deriving DecidableEq

/-- The state of reading a record. -/
structure State where
  /-- The number of the line that the record starts on. -/
  first : Nat
  line : Nat
  /-- The column in bytes, from one. -/
  column : Nat := 1
  place : Place := .start
  /-- The fields so far, last first. -/
  fields : List String := []
  /-- The characters of the field so far, last first. -/
  field : List Char := []

namespace State

/-- End the field. -/
def close (s : State) : State :=
  { s with fields := String.ofList s.field.reverse :: s.fields, field := [], place := .start }

/-- Put a character to the field. -/
def keep (s : State) (c : Char) (place : Place) : State :=
  { s with field := c :: s.field, place }

/-- Read one character that is not the end of a line outside quotes. -/
def step (s : State) (c : Char) : Except Error State :=
  let next := { s with column := s.column + c.utf8Size }
  match s.place with
  | .start =>
    if c = '"' then .ok { next with place := .quoted }
    else if c = ',' then .ok next.close
    else .ok (next.keep c .plain)
  | .plain =>
    if c = '"' then .error (.bareQuote s.first s.line s.column)
    else if c = ',' then .ok next.close
    else .ok (next.keep c .plain)
  | .quoted => if c = '"' then .ok { next with place := .closing } else .ok (next.keep c .quoted)
  | .closing =>
    if c = '"' then .ok (next.keep c .quoted)
    else if c = ',' then .ok next.close
    else .error (.brokenQuotes s.first s.line (s.column - 1))

/-- Read the rest of a line.  The line end belongs to the field within quotes only. -/
def readLine (s : State) : List Char → Except Error State
  | [] => .ok s
  | c :: rest =>
    if c = '\n' ∧ s.place ≠ .quoted then .ok s
    else
      match s.step c with
      | .error e => .error e
      | .ok s => s.readLine rest

/-- Read lines up to the end of the record, which goes on behind a line that ends in quotes. -/
def readLines (s : State) : List (List Char) → Except Error (List String)
  | [] => .error (.brokenQuotes s.first s.line s.column)
  | line :: rest =>
    match s.readLine line with
    | .error e => .error e
    | .ok after =>
      if after.place ≠ .quoted then .ok after.close.fields.reverse
      else if rest.isEmpty then after.readLines rest
      else { after with line := after.line + 1, column := 1 }.readLines rest

end State

/-- Read the record that starts on the first line that is not empty. -/
def readFrom (number : Nat) : List (List Char) → Except Error (List String)
  | [] => .error .noRecord
  | line :: rest =>
    if isEmptyLine line then readFrom (number + 1) rest
    else State.readLines { first := number, line := number } (line :: rest)

/-- The fields of the first record of a text. -/
def read (text : String) : Except Error (List String) :=
  readFrom 1 (lines text)

/-! ## Writing -/

/-- Whether a field has to stand in quotes. -/
def needsQuotes (field : String) : Bool :=
  field == "\\." || field.toList.any (fun c => c == '\n' || c == '\r' || c == '"' || c == ',') ||
    field.toList.head?.any Text.isBlank

/-- A field as it is written. -/
def writeField (field : String) : String :=
  if needsQuotes field then
    String.ofList ('"' :: (field.toList.flatMap fun c => if c = '"' then ['"', '"'] else [c]) ++ ['"'])
  else field

/-- A record on one line. -/
def write (fields : List String) : String :=
  ",".intercalate (fields.map writeField)

/-- What is read back when fields are written as one record.  Nothing at all is a record without
fields. -/
def reread (fields : List String) : Except Error (List String) :=
  if write fields = "" then .ok [] else read (write fields)

end RoomScript.Record
