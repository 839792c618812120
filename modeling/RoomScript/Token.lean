import RoomScript.Diagnostic
import RoomScript.Text.Quoted

/-!
# Tokens

A token is a piece of source text with the place it was read at.  Layout (blanks, line ends,
comments) is kept, because directives and statements end with the line.
-/

namespace RoomScript

/-- The class of a token. -/
inductive Token.Kind where
  /-- The end of the input. -/
  | eof
  /-- A `#` with a name, such as `#if`. -/
  | directive
  /-- A name, with or without a dot in front. -/
  | symbol
  /-- A digit and all name characters after it. -/
  | number
  /-- Text in double quotes, the quotes included. -/
  | string
  | lparen
  | rparen
  | comma
  /-- Any other single character. -/
  | punct
  /-- A run of blanks, tabs and carriage returns. -/
  | whitespace
  | newline
  | comment
  | backslash
  deriving DecidableEq, Repr, Inhabited

namespace Token.Kind

/-- The name of a class. -/
def name : Kind → String
  | eof => "EOF"
  | directive => "DIRECTIVE"
  | symbol => "SYMBOL"
  | number => "NUMBER"
  | string => "STRING"
  | lparen => "LPAREN"
  | rparen => "RPAREN"
  | comma => "COMMA"
  | punct => "PUNCT"
  | whitespace => "WHITESPACE"
  | newline => "NEWLINE"
  | comment => "COMMENT"
  | backslash => "BACKSLASH"

/-- All classes in the order of their numbers. -/
def all : List Kind :=
  [eof, directive, symbol, number, string, lparen, rparen, comma, punct, whitespace, newline,
    comment, backslash]

/-- The name of the class with a given number, if there is one. -/
def nameOfNumber (n : Int) : String :=
  match if n < 0 then none else all[n.toNat]? with
  | some kind => kind.name
  | none => "TokenType(" ++ Text.decimal 0 n ++ ")"

end Token.Kind

/-- A piece of source text and where it starts.  Lines and columns count from one, columns in code
points. -/
structure Token where
  kind : Token.Kind
  lexeme : String
  path : String
  line : Nat
  column : Nat
  deriving DecidableEq, Repr, Inhabited

namespace Token

/-- Blanks and comments carry no meaning for the assembler. -/
def isLayout (t : Token) : Bool :=
  t.kind == .whitespace || t.kind == .comment

/-- A directive with the given spelling. -/
def isDirective (t : Token) (spelling : String) : Bool :=
  t.kind == .directive && t.lexeme == spelling

/-- A diagnostic at the place of a token. -/
def diagnostic (t : Token) (cause : Cause) : Diagnostic :=
  ⟨t.path, t.line, t.column, cause⟩

/-- A token on one line of a dump: class, quoted text and place. -/
def describe (t : Token) : String :=
  Text.padRight 10 t.kind.name ++ " " ++ Text.padRight 14 (Text.quote t.lexeme) ++ "  " ++ t.path ++
    ":" ++ toString t.line ++ ":" ++ toString t.column

/-- A token list without the blanks at both ends. -/
def trimBlanks (ts : List Token) : List Token :=
  ((ts.dropWhile (·.kind == .whitespace)).reverse.dropWhile (·.kind == .whitespace)).reverse

end Token

end RoomScript
