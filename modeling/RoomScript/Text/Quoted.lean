import RoomScript.Text.Number
import RoomScript.Text.Printable

/-!
# Quoted text

A quoted text shows printable characters as themselves and every other character by an escape, so
it stays on one line.
-/

namespace RoomScript.Text

/-- The escape of a character that is not printable. -/
def escape (c : Char) : List Char :=
  let n := c.toNat
  if n == 7 then ['\\', 'a']
  else if n == 8 then ['\\', 'b']
  else if n == 12 then ['\\', 'f']
  else if n == 10 then ['\\', 'n']
  else if n == 13 then ['\\', 'r']
  else if n == 9 then ['\\', 't']
  else if n == 11 then ['\\', 'v']
  else if n < 0x20 || n == 0x7F then '\\' :: 'x' :: hexFixed 2 n
  else if n < 0x10000 then '\\' :: 'u' :: hexFixed 4 n
  else '\\' :: 'U' :: hexFixed 8 n

/-- A character inside quotes of the given kind. -/
def quotedChar (mark c : Char) : List Char :=
  if c == mark || c == '\\' then ['\\', c]
  else if isPrintable c then [c]
  else escape c

/-- A text in double quotes. -/
def quote (s : String) : String :=
  String.ofList ('"' :: (s.toList.flatMap (quotedChar '"') ++ ['"']))

/-- A character in single quotes. -/
def quoteChar (c : Char) : String :=
  String.ofList ('\'' :: (quotedChar '\'' c ++ ['\'']))

/-- A character that a text between back quotes may hold. -/
def isRaw (c : Char) : Bool :=
  let n := c.toNat
  !(n == 0xFEFF || (n < 0x20 && n != 9) || n == 0x60 || n == 0x7F)

/-- A text between back quotes when it can stand there as it is, in double quotes otherwise. -/
def quoteRaw (s : String) : String :=
  if s.toList.all isRaw then "`" ++ s ++ "`" else quote s

/-- A text followed by blanks up to `width` characters. -/
def padRight (width : Nat) (s : String) : String :=
  s ++ String.ofList (List.replicate (width - s.length) ' ')

/-- A text that stands `count` times in a row. -/
def repeated (count : Nat) (s : String) : String :=
  String.join (List.replicate count s)

end RoomScript.Text
