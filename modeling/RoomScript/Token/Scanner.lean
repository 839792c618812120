import RoomScript.Token

/-!
# The scanner

The scanner cuts source text into tokens, one at a time and without ever failing: a string that
does not end on its line and a block comment that does not end at all are still tokens, reported
beside them.

* `lexeme` recognises the first token of a non-empty text, by its first one or two characters;
* `lexeme_append` says that nothing is lost and `lexeme_ne_nil` that every token takes a character;
* `Scanner.next` pulls a token with its place, `Scanner.scan` all of them.
-/

namespace RoomScript

/-! ## Character classes -/

/-- A letter or an underscore. -/
def isIdentStart (c : Char) : Bool :=
  ('a' ≤ c && c ≤ 'z') || ('A' ≤ c && c ≤ 'Z') || c == '_'

/-- A letter, a digit or an underscore. -/
def isIdentPart (c : Char) : Bool :=
  isIdentStart c || ('0' ≤ c && c ≤ '9')

/-- The blanks that separate tokens within a line. -/
def isLineBlank (c : Char) : Bool :=
  c == ' ' || c == '\t' || c == '\r'

/-! ## Recognising one token -/

/-- The first token of a text: its class, its characters, the characters after it and the fault it
has, if any. -/
structure Lexeme where
  kind : Token.Kind
  chars : List Char
  rest : List Char
  fault : Option Cause := none
  deriving Repr

/-- The characters of a block comment after its opening mark, up to and including the closing
mark, in front of the reversed list `read`; and whether the closing mark is there. -/
def commentBody (read : List Char) : List Char → List Char × List Char × Bool
  | '*' :: '/' :: rest => ((['/', '*'] ++ read).reverse, rest, true)
  | c :: rest => commentBody (c :: read) rest
  | [] => (read.reverse, [], false)

/-- The characters of a string after its opening quote, up to and including the closing quote, in
front of the reversed list `read`; and whether the closing quote is there.  A backslash takes the
next character of the line with it, and a string never passes the end of its line. -/
def stringBody (read : List Char) : List Char → List Char × List Char × Bool
  | [] => (read.reverse, [], false)
  | '\n' :: rest => (read.reverse, '\n' :: rest, false)
  | '"' :: rest => (('"' :: read).reverse, rest, true)
  | '\\' :: '\n' :: rest => (('\\' :: read).reverse, '\n' :: rest, false)
  | '\\' :: c :: rest => stringBody (c :: '\\' :: read) rest
  | c :: rest => stringBody (c :: read) rest

/-- A token whose characters after the first are the longest run of a class. -/
def Lexeme.run (kind : Token.Kind) (first : List Char) (part : Char → Bool) (rest : List Char) :
    Lexeme :=
  { kind, chars := first ++ rest.takeWhile part, rest := rest.dropWhile part }

/-- The class of a token that is a single character. -/
def singleKind (c : Char) : Token.Kind :=
  if c == '(' then .lparen
  else if c == ')' then .rparen
  else if c == ',' then .comma
  else if c == '\\' then .backslash
  else .punct

/-- The next character of a text belongs to the class. -/
def headIs (part : Char → Bool) (rest : List Char) : Bool :=
  rest.head?.any part

/-- Recognise the first token of the text `c :: rest`. -/
def lexeme (c : Char) (rest : List Char) : Lexeme :=
  if c == '\n' then { kind := .newline, chars := [c], rest }
  else if isLineBlank c then .run .whitespace [c] isLineBlank rest
  else if c == ';' || (c == '/' && headIs (· == '/') rest) then
    .run .comment [c] (· != '\n') rest
  else if c == '/' && headIs (· == '*') rest then
    match commentBody [] rest.tail with
    | (body, after, closed) =>
      { kind := .comment, chars := c :: '*' :: body, rest := after,
        fault := if closed then none else some .unterminatedComment }
  else if c == '#' && headIs isIdentStart rest then .run .directive [c] isIdentPart rest
  else if c == '.' && headIs isIdentStart rest then .run .symbol [c] isIdentPart rest
  else if isIdentStart c then .run .symbol [c] isIdentPart rest
  else if '0' ≤ c && c ≤ '9' then .run .number [c] isIdentPart rest
  else if c == '"' then
    match stringBody [] rest with
    | (body, after, closed) =>
      { kind := .string, chars := c :: body, rest := after,
        fault := if closed then none else some .unterminatedString }
  else { kind := singleKind c, chars := [c], rest }

/-! ## Nothing is lost -/

theorem commentBody_append (read cs : List Char) :
    (commentBody read cs).1 ++ (commentBody read cs).2.1 = read.reverse ++ cs := by
  fun_induction commentBody read cs <;> simp_all

theorem stringBody_append (read cs : List Char) :
    (stringBody read cs).1 ++ (stringBody read cs).2.1 = read.reverse ++ cs := by
  fun_induction stringBody read cs <;> simp_all

theorem Lexeme.run_append (kind : Token.Kind) (first : List Char) (part : Char → Bool)
    (rest : List Char) :
    (Lexeme.run kind first part rest).chars ++ (Lexeme.run kind first part rest).rest =
      first ++ rest := by
  simp [Lexeme.run, List.takeWhile_append_dropWhile]

theorem headIs_eq {d : Char} {rest : List Char} (h : headIs (· == d) rest = true) :
    rest = d :: rest.tail := by
  cases rest <;> simp_all [headIs]

/-- The characters of the first token and those after it are the whole text. -/
theorem lexeme_append (c : Char) (rest : List Char) :
    (lexeme c rest).chars ++ (lexeme c rest).rest = c :: rest := by
  fun_cases lexeme c rest
  case case4 h body after closed hb =>
    have append := commentBody_append [] rest.tail
    have head := headIs_eq (Bool.and_eq_true_iff.mp h).2
    simp only [hb, List.reverse_nil, List.nil_append] at append
    simp [append, ← head]
  case case9 body after closed hb _ =>
    have append := stringBody_append [] rest
    simp_all
  all_goals first | rfl | exact Lexeme.run_append ..

/-- Every token takes at least one character. -/
theorem lexeme_ne_nil (c : Char) (rest : List Char) : (lexeme c rest).chars ≠ [] := by
  fun_cases lexeme c rest <;> simp [Lexeme.run]

/-- Recognising a token makes the text shorter. -/
theorem length_lexeme_rest (c : Char) (rest : List Char) :
    (lexeme c rest).rest.length ≤ rest.length := by
  have h := congrArg List.length (lexeme_append c rest)
  have hne := List.length_pos_iff.mpr (lexeme_ne_nil c rest)
  simp only [List.length_append, List.length_cons] at h
  omega

theorem singleKind_ne_eof (c : Char) : singleKind c ≠ .eof := by
  fun_cases singleKind c <;> simp

/-- No recognised token is the end of the input. -/
theorem lexeme_kind_ne_eof (c : Char) (rest : List Char) : (lexeme c rest).kind ≠ .eof := by
  fun_cases lexeme c rest <;> simp [Lexeme.run, singleKind_ne_eof]

/-! ## Scanning a file -/

/-- A place in a text, counted from one. -/
structure Position where
  line : Nat := 1
  column : Nat := 1
  deriving DecidableEq, Repr

/-- The place after one more character. -/
def Position.step (p : Position) (c : Char) : Position :=
  if c == '\n' then ⟨p.line + 1, 1⟩ else ⟨p.line, p.column + 1⟩

/-- The place after more characters. -/
def Position.advance (p : Position) (cs : List Char) : Position :=
  cs.foldl Position.step p

/-- The part of a file that is still to be cut into tokens. -/
structure Scanner where
  path : String
  rest : List Char
  position : Position := {}
  /-- The end of the input has been returned at least once. -/
  finished : Bool := false
  deriving Repr

namespace Scanner

/-- A scanner at the start of a text. -/
def ofText (path : String) (text : String) : Scanner :=
  { path, rest := text.toList }

/-- The next token, the fault found in it, and the scanner after it.  At the end every call
returns the end of the input. -/
def next (s : Scanner) : Token × Option Diagnostic × Scanner :=
  match s.rest with
  | [] => (⟨.eof, "", s.path, s.position.line, s.position.column⟩, none, { s with finished := true })
  | c :: cs =>
    let found := lexeme c cs
    let token : Token :=
      ⟨found.kind, String.ofList found.chars, s.path, s.position.line, s.position.column⟩
    (token, found.fault.map token.diagnostic,
      { s with rest := found.rest, position := s.position.advance found.chars })

/-- Pulling a token never lengthens the text. -/
theorem length_next_le (s : Scanner) : s.next.2.2.rest.length ≤ s.rest.length := by
  unfold next
  split
  · simp_all
  · rename_i c cs h
    have := length_lexeme_rest c cs
    simp only [h, List.length_cons]
    omega

/-- Pulling a token other than the end shortens the text. -/
theorem length_next_lt (s : Scanner) (h : s.next.1.kind ≠ .eof) :
    s.next.2.2.rest.length < s.rest.length := by
  unfold next at h ⊢
  split at h
  · exact absurd rfl h
  · rename_i c cs hc
    have := length_lexeme_rest c cs
    simp only [hc, List.length_cons]
    omega

/-- All tokens from the scanner's place on, the end included, and the faults found, behind what has
been read already. -/
def scanOnto (s : Scanner) (tokens : Array Token) (found : Array Diagnostic) :
    Array Token × Array Diagnostic :=
  let pulled := s.next
  let tokens := tokens.push pulled.1
  let found := match pulled.2.1 with
    | some d => found.push d
    | none => found
  if pulled.1.kind = .eof then (tokens, found)
  else scanOnto pulled.2.2 tokens found
termination_by s.rest.length
decreasing_by exact length_next_lt s (by assumption)

/-- All tokens of a text, the end included, and the faults found. -/
def scan (path text : String) : List Token × List Diagnostic :=
  let (tokens, found) := (ofText path text).scanOnto #[] #[]
  (tokens.toList, found.toList)

end Scanner

end RoomScript
