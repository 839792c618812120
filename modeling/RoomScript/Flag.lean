import RoomScript.Record
import RoomScript.Text.Quoted

/-!
# Command-line flags

A flag is written `--name value`, `--name=value` or, when it has a letter, `-n value`, `-nvalue` or
`-n=value`; a switch needs no value.  Everything else is an argument, and so is everything behind
`--`.

* `Flag.Value` is the value of a flag, and `Flag.Value.set` reads one from its written form;
* `Flag.parse` reads a command line;
* `Flag.usages` lists flags with their explanations.
-/

namespace RoomScript

/-- The value of a flag. -/
inductive Flag.Value where
  | text (value : String)
  | switch (on : Bool)
  | number (value : Int)
  /-- A list that is given as records of fields. -/
  | fields (items : List String)
  /-- A list of values that are given one by one. -/
  | values (items : List String)
  deriving DecidableEq, Repr

/-- A flag with its present value. -/
structure Flag where
  name : String
  letter : Option Char := none
  usage : String := ""
  value : Flag.Value
  /-- The value was given. -/
  changed : Bool := false
  deriving DecidableEq, Repr

namespace Flag

/-! ## Values -/

/-- The name of the type of a value. -/
def Value.typeName : Value → String
  | text _ => "string"
  | switch _ => "bool"
  | number _ => "int"
  | fields _ => "stringSlice"
  | values _ => "stringArray"

/-- Why a text is not a value of a flag. -/
inductive ValueError where
  | number (text : String) (fault : Text.LiteralFault)
  | switch (text : String)
  | record (e : Record.Error)
  deriving DecidableEq, Repr

/-- The wording of a fault in a number. -/
def faultText : Text.LiteralFault → String
  | .malformed => "invalid syntax"
  | .outOfRange => "value out of range"

/-- The wording of a value error. -/
def ValueError.message : ValueError → String
  | number text fault => "strconv.ParseInt: parsing " ++ Text.quote text ++ ": " ++ faultText fault
  | switch text => "strconv.ParseBool: parsing " ++ Text.quote text ++ ": invalid syntax"
  | record e => e.message

/-- The texts for a switch. -/
def switch? (text : String) : Option Bool :=
  if text ∈ ["1", "t", "T", "TRUE", "true", "True"] then some true
  else if text ∈ ["0", "f", "F", "FALSE", "false", "False"] then some false
  else none

/-- Give a value to a flag.  The first value of a list replaces what the flag had before, and later
ones are added. -/
def Value.set (changed : Bool) (text : String) : Value → Except ValueError Value
  | .text _ => .ok (.text text)
  | .switch _ =>
    match switch? text with
    | some on => .ok (.switch on)
    | none => .error (.switch text)
  | .number _ =>
    match Text.intLiteral 64 text with
    | .ok n => .ok (.number n)
    | .error fault => .error (.number text fault)
  | .fields items =>
    match if text = "" then .ok [] else Record.read text with
    | .ok more => .ok (.fields (if changed then items ++ more else more))
    | .error e => .error (.record e)
  | .values items => .ok (.values (if changed then items ++ [text] else [text]))

/-- A switch can stand without a value. -/
def isSwitch (f : Flag) : Bool :=
  match f.value with
  | .switch _ => true
  | _ => false

/-! ## Errors -/

/-- Why a command line cannot be read. -/
inductive Error where
  | badSyntax (argument : String)
  | unknown (name : String)
  /-- A letter that no flag has, among the letters from it on. -/
  | unknownLetter (letter : Char) (letters : String)
  | missingValue (argument : String)
  | missingLetterValue (letter : Char) (letters : String)
  | badValue (text flag : String) (e : ValueError)
  /-- Help was asked for where no flag provides it. -/
  | helpWanted
  deriving DecidableEq, Repr

/-- The wording of an error. -/
def Error.message : Error → String
  | badSyntax argument => "bad flag syntax: " ++ argument
  | unknown name => "unknown flag: --" ++ name
  | unknownLetter letter letters =>
    "unknown shorthand flag: " ++ Text.quoteChar letter ++ " in -" ++ letters
  | missingValue argument => "flag needs an argument: " ++ argument
  | missingLetterValue letter letters =>
    "flag needs an argument: " ++ Text.quoteChar letter ++ " in -" ++ letters
  | badValue text flag e =>
    "invalid argument " ++ Text.quote text ++ " for " ++ Text.quote flag ++ " flag: " ++ e.message
  | helpWanted => "pflag: help requested"

/-! ## Reading a command line -/

/-- The flag with a name. -/
def find? (flags : List Flag) (name : String) : Option Flag :=
  flags.find? (·.name == name)

/-- The flag with a letter. -/
def findLetter? (flags : List Flag) (letter : Char) : Option Flag :=
  flags.find? (·.letter == some letter)

/-- How a flag is called in messages. -/
def title (f : Flag) : String :=
  match f.letter with
  | some letter => "-" ++ String.singleton letter ++ ", --" ++ f.name
  | none => "--" ++ f.name

/-- Give a value to one of the flags. -/
def give (flags : List Flag) (f : Flag) (text : String) : Except Error (List Flag) :=
  match f.value.set f.changed text with
  | .error e => .error (.badValue text f.title e)
  | .ok value =>
    .ok (flags.map fun g => if g.name = f.name then { g with value, changed := true } else g)

/-- A name and the value behind its first equals sign. -/
def cutValue (cs : List Char) : String × Option String :=
  let name := cs.takeWhile (· != '=')
  match cs.drop name.length with
  | [] => (String.ofList name, none)
  | _ :: value => (String.ofList name, some (String.ofList value))

/-- Read an argument that starts with two dashes, the arguments behind it being `rest`. -/
def parseLong (flags : List Flag) (body : List Char) (rest : List String) :
    Except Error (List Flag × List String) :=
  let argument := "--" ++ String.ofList body
  if body.head? = some '-' ∨ body.head? = some '=' then .error (.badSyntax argument)
  else
    let (name, value?) := cutValue body
    match find? flags name with
    | none => .error (if name = "help" then .helpWanted else .unknown name)
    | some f =>
      match value?, f.isSwitch, rest with
      | some value, _, _ => (give flags f value).map (·, rest)
      | none, true, _ => (give flags f "true").map (·, rest)
      | none, false, value :: rest => (give flags f value).map (·, rest)
      | none, false, [] => .error (.missingValue argument)

/-- The first byte of a text that starts with a character, as a character. -/
def firstByte (c : Char) : Char :=
  Char.ofNat ((String.utf8EncodeChar c).head?.elim 0 UInt8.toNat)

/-- The beginning of letters that are passed over. -/
def skippedLetters : List Char := "test.".toList

/-- Read the letters behind a single dash. -/
def parseLetters (flags : List Flag) (rest : List String) :
    List Char → Except Error (List Flag × List String)
  | [] => .ok (flags, rest)
  | c :: more =>
    if skippedLetters.isPrefixOf (c :: more) then .ok (flags, rest)
    else
      match findLetter? flags c with
      | none =>
        .error (if c = 'h' then .helpWanted
          else .unknownLetter (firstByte c) (String.ofList (c :: more)))
      | some f =>
        match more, rest with
        | '=' :: v :: value, _ => (give flags f (String.ofList (v :: value))).map (·, rest)
        | _, _ =>
          if f.isSwitch then
            match give flags f "true" with
            | .error e => .error e
            | .ok flags => parseLetters flags rest more
          else
            match more, rest with
            | _ :: _, _ => (give flags f (String.ofList more)).map (·, rest)
            | [], value :: rest => (give flags f value).map (·, rest)
            | [], [] => .error (.missingLetterValue c (String.ofList (c :: more)))

/-- Read arguments one after another, behind the reversed list `others` of those that are no flags.
No step lengthens the list of arguments, and `fuel` is their number. -/
def parseOnto (others : List String) :
    (fuel : Nat) → List Flag → List String → Except Error (List Flag × List String)
  | _, flags, [] => .ok (flags, others.reverse)
  | 0, flags, rest => .ok (flags, others.reverse ++ rest)
  | fuel + 1, flags, argument :: rest =>
    match argument.toList with
    | ['-', '-'] => .ok (flags, others.reverse ++ rest)
    | '-' :: '-' :: body =>
      match parseLong flags body rest with
      | .error e => .error e
      | .ok (flags, rest) => parseOnto others fuel flags rest
    | '-' :: c :: letters =>
      match parseLetters flags rest (c :: letters) with
      | .error e => .error e
      | .ok (flags, rest) => parseOnto others fuel flags rest
    | _ => parseOnto (argument :: others) fuel flags rest

/-- Read a command line: the flags with their values, and the arguments. -/
def parse (flags : List Flag) (arguments : List String) :
    Except Error (List Flag × List String) :=
  parseOnto [] arguments.length flags arguments

/-! ## Values by name -/

/-- The text that was given for a flag. -/
def givenText? (flags : List Flag) (name : String) : Option String :=
  match find? flags name with
  | some f =>
    match f.value with
    | .text value => if f.changed then some value else none
    | _ => none
  | none => none

/-- The text of a flag, given or not. -/
def textOf (flags : List Flag) (name : String) : String :=
  match (find? flags name).map Flag.value with
  | some (.text value) => value
  | _ => ""

/-- Whether a switch is on. -/
def isOn (flags : List Flag) (name : String) : Bool :=
  (find? flags name).map Flag.value == some (.switch true)

/-! ## Explanations -/

/-- The word that stands for the value of a flag. -/
def Value.word : Value → String
  | text _ => "string"
  | switch _ => ""
  | number _ => "int"
  | fields _ => "strings"
  | values _ => "stringArray"

/-- The note on the value that a flag has when it is not given. -/
def Value.note : Value → String
  | text "" => ""
  | text value => " (default " ++ Text.quote value ++ ")"
  | number 0 => ""
  | number n => " (default " ++ Text.decimal 0 n ++ ")"
  | _ => ""

/-- The beginning of the line on a flag. -/
def head (f : Flag) : String :=
  (match f.letter with
    | some letter => "  -" ++ String.singleton letter ++ ", --"
    | none => "      --") ++
    f.name ++ (if f.value.word = "" then "" else " " ++ f.value.word)

/-- The lines on flags, in the order of their names and with the explanations below one another. -/
def usages (flags : List Flag) : List String :=
  let sorted := flags.mergeSort fun f g => decide (f.name ≤ g.name)
  let width := (sorted.map fun f => f.head.length).foldl max 0
  sorted.map fun f => Text.padRight (width + 3) f.head ++ f.usage ++ f.value.note

end Flag

end RoomScript
