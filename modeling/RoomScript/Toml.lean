import RoomScript.Toml.Number
import RoomScript.Toml.Text

/-!
# The grammar of settings files

A settings file is a list of statements: headers, which name a table, and pairs of a key and a
value.  Values can be lists and tables in turn.

* `Toml.statements?` reads the statements of a file.
-/

namespace RoomScript.Toml

/-- A value as it is written. -/
inductive Written where
  | text (value : String)
  | integer (value : Int)
  | decimal
  | boolean (value : Bool)
  | moment
  | list (items : List Written)
  | table (pairs : List (List String × Written))

/-- A line of a settings file, or several. -/
inductive Statement where
  /-- `[key]`: the pairs that follow belong to this table. -/
  | header (key : List String)
  /-- `[[key]]`: the pairs that follow belong to one more table of this list. -/
  | listHeader (key : List String)
  | pair (key : List String) (value : Written)

/-! ## Single values -/

/-- The characters that decimal numbers are made of. -/
def isDecimalChar (c : Char) : Bool :=
  c.isDigit || c == '_' || c == '.' || c == '-' || c == '+' || c == 'e' || c == 'E'

/-- The characters that moments are made of. -/
def isMomentChar (c : Char) : Bool :=
  c.isDigit || "-:Tt .Zz+".toList.contains c

/-- Read a number that starts with the characters `sign` and goes on with decimal digits. -/
def number? (sign cs : List Char) : Option (Written × List Char) :=
  let digits := cs.takeWhile fun c => c.isDigit || c == '_'
  let after := cs.drop digits.length
  if after.head?.any fun c => c == '.' || c == 'e' || c == 'E' then
    let more := after.takeWhile isDecimalChar
    if isDecimal (sign ++ digits ++ more) then some (.decimal, after.drop more.length) else none
  else (integer? (sign ++ digits)).map fun n => (.integer n, after)

/-- Read an integer in another base, behind `0` and a letter. -/
def based? (letter : Char) (isDigit : Char → Bool) (cs : List Char) :
    Option (Written × List Char) :=
  let digits := cs.takeWhile fun c => isDigit c || c == '_'
  if digits.head?.any isDigit then
    (integer? ('0' :: letter :: digits)).map fun n => (.integer n, cs.drop digits.length)
  else none

/-- Read a moment. -/
def moment? (cs : List Char) : Option (Written × List Char) :=
  let more := cs.takeWhile isMomentChar
  if isMoment (Text.dropBlankEnd more) then some (.moment, cs.drop more.length) else none

/-- Read what starts with a digit. -/
def digitsFirst? (cs : List Char) : Option (Written × List Char) :=
  match cs with
  | '0' :: 'b' :: rest => based? 'b' (fun c => c == '0' || c == '1') rest
  | '0' :: 'o' :: rest => based? 'o' (fun c => '0' ≤ c && c ≤ '7') rest
  | '0' :: 'x' :: rest => based? 'x' isHexDigit rest
  | _ =>
    if (cs.dropWhile Char.isDigit).head?.any fun c => c == '-' || c == ':' then moment? cs
    else number? [] cs

/-- The words that are values. -/
def words : List (List Char × Written) :=
  [("true".toList, .boolean true), ("false".toList, .boolean false), ("inf".toList, .decimal),
    ("nan".toList, .decimal)]

/-- Read a word that is one of the given ones. -/
def word? (words : List (List Char × Written)) (cs : List Char) : Option (Written × List Char) :=
  (words.find? fun w => w.1.isPrefixOf cs).map fun w => (w.2, cs.drop w.1.length)

/-- Read a value that is neither a list nor a table. -/
def single? (cs : List Char) : Option (Written × List Char) :=
  match cs with
  | [] => none
  | c :: rest =>
    if c = '"' ∨ c = '\'' then (text? cs).map fun (s, after) => (.text s, after)
    else if c.isDigit then digitsFirst? cs
    else if c = '+' ∨ c = '-' then
      if rest.head?.any Char.isDigit then
        if rest.head? = some '0' ∧ rest[1]?.any (fun b => b == 'b' || b == 'o' || b == 'x') then none
        else number? [c] rest
      else word? (words.drop 2) rest
    else word? words cs

/-! ## Values -/

/-- The characters behind blanks, line ends and comments. -/
def skipLayout : (inComment : Bool) → List Char → List Char
  | _, [] => []
  | true, c :: rest => skipLayout (c != '\n') rest
  | false, c :: rest =>
    if isBlank c || isLineEnd c then skipLayout false rest
    else if c = '#' then skipLayout true rest
    else c :: rest

mutual

/-- Read a value.  A step that goes on costs one unit of `fuel`. -/
def value? : (fuel : Nat) → List Char → Option (Written × List Char)
  | 0, _ => none
  | fuel + 1, cs =>
    match cs with
    | '[' :: rest => items? fuel [] rest
    | '{' :: rest =>
      match skipBlanks rest with
      | '}' :: after => some (.table [], after)
      | after => pairs? fuel [] after
    | _ => single? cs

/-- Read the items of a list up to its end, behind the reversed list `read`.  A comma may stand
behind the last item. -/
def items? : (fuel : Nat) → (read : List Written) → List Char → Option (Written × List Char)
  | 0, _, _ => none
  | fuel + 1, read, cs =>
    match skipLayout false cs with
    | ']' :: rest => some (.list read.reverse, rest)
    | start =>
      match value? fuel start with
      | none => none
      | some (v, after) =>
        match skipLayout false after with
        | ',' :: rest => items? fuel (v :: read) rest
        | ']' :: rest => some (.list (v :: read).reverse, rest)
        | _ => none

/-- Read the pairs of a table up to its end, behind the reversed list `read`.  A table stands on one
line, and a pair follows every comma. -/
def pairs? : (fuel : Nat) → (read : List (List String × Written)) → List Char →
    Option (Written × List Char)
  | 0, _, _ => none
  | fuel + 1, read, cs =>
    match key? cs with
    | some (key, '=' :: rest) =>
      match value? fuel (skipBlanks rest) with
      | none => none
      | some (v, after) =>
        match skipBlanks after with
        | ',' :: rest => pairs? fuel ((key, v) :: read) rest
        | '}' :: rest => some (.table ((key, v) :: read).reverse, rest)
        | _ => none
    | _ => none

end

/-! ## Statements -/

/-- Read a statement. -/
def statement? (cs : List Char) : Option (Statement × List Char) :=
  match cs with
  | '[' :: '[' :: rest =>
    match key? rest with
    | some (key, ']' :: ']' :: after) => some (.listHeader key, after)
    | _ => none
  | '[' :: rest =>
    match key? rest with
    | some (key, ']' :: after) => some (.header key, after)
    | _ => none
  | _ =>
    match key? cs with
    | some (key, '=' :: rest) =>
      (value? (2 * rest.length + 2) (skipBlanks rest)).map fun (v, after) => (.pair key v, after)
    | _ => none

/-- Whether a statement may end here: at the end of a line, at a comment, at the end of the file. -/
def isEnd (cs : List Char) : Bool :=
  (skipBlanks cs).head?.all fun c => c == '#' || isLineEnd c

/-- Read statements behind `read`.  Every statement takes a character, and `fuel` is more than their
number. -/
def statementsOnto : (fuel : Nat) → (read : Array Statement) → List Char → Option (Array Statement)
  | 0, _, _ => none
  | fuel + 1, read, cs =>
    match skipLayout false cs with
    | [] => some read
    | start =>
      match statement? start with
      | none => none
      | some (s, after) => if isEnd after then statementsOnto fuel (read.push s) after else none

/-- A file without the mark of its encoding. -/
def dropMark (bytes : ByteArray) : ByteArray :=
  if bytes.size ≥ 2 ∧ ((bytes.extract 0 2).toList = [0xFF, 0xFE] ∨
      (bytes.extract 0 2).toList = [0xFE, 0xFF]) then bytes.extract 2 bytes.size
  else if (bytes.extract 0 3).toList = [0xEF, 0xBB, 0xBF] then bytes.extract 3 bytes.size
  else bytes

/-- The statements of a settings file. -/
def statements? (bytes : ByteArray) : Option (List Statement) :=
  match String.fromUTF8? (dropMark bytes) with
  | none => none
  | some text =>
    if isClean text.toList then
      (statementsOnto (text.length + 1) #[] text.toList).map Array.toList
    else none

end RoomScript.Toml
