import RoomScript.Text.Number
import RoomScript.Text.Utf8

/-!
# Texts and keys of settings files

A text stands in double quotes, with escapes, or in single quotes, without any; tripled quotes let
it go on over several lines.  A key is a chain of names with points between them, each name bare or
quoted.
-/

namespace RoomScript.Toml

/-! ## Characters -/

/-- A blank within a line. -/
def isBlank (c : Char) : Bool :=
  c == ' ' || c == '\t'

/-- A character of a line end. -/
def isLineEnd (c : Char) : Bool :=
  c == '\n' || c == '\r'

/-- A character that may stand anywhere in a file. -/
def isPlain (c : Char) : Bool :=
  isBlank c || c == '\n' || (' ' ≤ c && c.toNat != 0x7F)

/-- A file has no control characters but tabulators and line ends, and a carriage return only in
front of a line feed. -/
def isClean : List Char → Bool
  | [] => true
  | '\r' :: rest => rest.head? == some '\n' && isClean rest
  | c :: rest => isPlain c && isClean rest

/-- The characters behind blanks. -/
def skipBlanks (cs : List Char) : List Char :=
  cs.dropWhile isBlank

/-! ## Escapes -/

/-- Read a hexadecimal number of `count` digits onto `value`. -/
def hexDigits? : (count value : Nat) → List Char → Option (Nat × List Char)
  | 0, value, rest => some (value, rest)
  | _ + 1, _, [] => none
  | count + 1, value, c :: rest =>
    match Text.hexValue? c with
    | some d => hexDigits? count (value * 16 + d) rest
    | none => none

theorem length_hexDigits? {count value n : Nat} {cs rest : List Char}
    (h : hexDigits? count value cs = some (n, rest)) : rest.length ≤ cs.length := by
  fun_induction hexDigits? count value cs with
  | case1 => simp_all
  | case2 => simp at h
  | case3 count value c cs d hd ih =>
    have := ih h
    simp only [List.length_cons]
    omega
  | case4 => simp at h

/-- The character with a number. -/
def character? (n : Nat) : Option Char :=
  if n < 0x110000 ∧ ¬Text.isSurrogate n then some (Char.ofNat n) else none

/-- The characters behind a backslash, with what they mean and what follows them. -/
def escape? : List Char → Option (Char × List Char)
  | [] => none
  | c :: rest =>
    match c with
    | 'b' => some ('\x08', rest)
    | 't' => some ('\t', rest)
    | 'n' => some ('\n', rest)
    | 'f' => some ('\x0c', rest)
    | 'r' => some ('\r', rest)
    | '"' => some ('"', rest)
    | '\\' => some ('\\', rest)
    | 'u' => (hexDigits? 4 0 rest).bind fun (n, after) => (character? n).map (·, after)
    | 'U' => (hexDigits? 8 0 rest).bind fun (n, after) => (character? n).map (·, after)
    | _ => none

theorem length_escape? {cs rest : List Char} {c : Char} (h : escape? cs = some (c, rest)) :
    rest.length < cs.length := by
  unfold escape? at h
  split at h
  · simp at h
  · split at h
    case h_10 => simp at h
    case h_8 | h_9 =>
      simp only [Option.bind_eq_some_iff, Option.map_eq_some_iff, Prod.mk.injEq] at h
      obtain ⟨⟨n, after⟩, read, m, -, -, rfl⟩ := h
      have := length_hexDigits? read
      simp only [List.length_cons]
      omega
    all_goals
      simp only [Option.some.injEq, Prod.mk.injEq] at h
      simp [← h.2]

/-! ## Texts on one line -/

/-- Read a text in double quotes up to its end, behind the reversed characters `read`. -/
def quotedOnto (read : List Char) (cs : List Char) : Option (String × List Char) :=
  match cs with
  | [] => none
  | '"' :: rest => some (String.ofList read.reverse, rest)
  | '\\' :: rest =>
    match _escape : escape? rest with
    | none => none
    | some (c, after) => quotedOnto (c :: read) after
  | c :: rest => if isLineEnd c then none else quotedOnto (c :: read) rest
termination_by cs.length
decreasing_by
  · have := length_escape? _escape
    simp
    omega
  · simp

/-- Read a text in single quotes up to its end. -/
def literal? (cs : List Char) : Option (String × List Char) :=
  let inner := cs.takeWhile fun c => c != '\'' && !isLineEnd c
  match cs.drop inner.length with
  | '\'' :: rest => some (String.ofList inner, rest)
  | _ => none

/-! ## Texts on several lines -/

/-- A text without the line end it starts with. -/
def dropLineEnd : List Char → List Char
  | '\n' :: rest => rest
  | '\r' :: '\n' :: rest => rest
  | cs => cs

/-- The blanks and line ends at the start, when a line ends among them. -/
def foldedLines? (cs : List Char) : Option (List Char) :=
  let blank := cs.takeWhile fun c => isBlank c || isLineEnd c
  if '\n' ∈ blank then some (cs.drop blank.length) else none

theorem length_foldedLines? {cs rest : List Char} (h : foldedLines? cs = some rest) :
    rest.length ≤ cs.length := by
  unfold foldedLines? at h
  simp only at h
  split at h
  · simp only [Option.some.injEq] at h
    simp [← h]
  · simp at h

/-- Read a text in tripled double quotes up to its end.  Up to two more quotes may stand before the
closing ones; `most` is the largest number of quotes in a row, which is one more behind two
backslashes.  A backslash at the end of a line joins it with the next word. -/
def quotedLinesOnto (most : Nat) (read : List Char) (cs : List Char) :
    Option (String × List Char) :=
  match cs with
  | [] => none
  | '"' :: '"' :: '"' :: rest =>
    let more := rest.takeWhile (· == '"')
    if more.length + 3 ≤ most then
      some (String.ofList (more ++ read).reverse, rest.drop more.length)
    else none
  | '\\' :: rest =>
    match _folded : foldedLines? rest with
    | some after => quotedLinesOnto 5 read after
    | none =>
      match _escape : escape? rest with
      | none => none
      | some (c, after) =>
        quotedLinesOnto (if rest.head? = some '\\' then 6 else 5) (c :: read) after
  | c :: rest => quotedLinesOnto 5 (c :: read) rest
termination_by cs.length
decreasing_by
  · have := length_foldedLines? _folded
    simp
    omega
  · have := length_escape? _escape
    simp
    omega
  · simp

/-- Read a text in tripled single quotes up to its end. -/
def literalLinesOnto (read : List Char) : List Char → Option (String × List Char)
  | [] => none
  | '\'' :: '\'' :: '\'' :: rest =>
    let more := rest.takeWhile (· == '\'')
    if more.length ≤ 2 then some (String.ofList (more ++ read).reverse, rest.drop more.length)
    else none
  | c :: rest => literalLinesOnto (c :: read) rest

/-- Read a text of any form. -/
def text? : List Char → Option (String × List Char)
  | '"' :: '"' :: '"' :: rest => quotedLinesOnto 5 [] (dropLineEnd rest)
  | '\'' :: '\'' :: '\'' :: rest => literalLinesOnto [] (dropLineEnd rest)
  | '"' :: rest => quotedOnto [] rest
  | '\'' :: rest => literal? rest
  | _ => none

/-! ## Keys -/

/-- A character of a bare name. -/
def isBare (c : Char) : Bool :=
  c.isAlphanum || c == '_' || c == '-'

/-- Read one name of a key. -/
def name? : List Char → Option (String × List Char)
  | '"' :: rest => quotedOnto [] rest
  | '\'' :: rest => literal? rest
  | cs =>
    let bare := cs.takeWhile isBare
    if bare.isEmpty then none else some (String.ofList bare, cs.drop bare.length)

/-- Read a key and the blanks around it.  Every name takes a character, and `fuel` is the number of
characters. -/
def keyFrom? : (fuel : Nat) → List Char → Option (List String × List Char)
  | 0, _ => none
  | fuel + 1, cs =>
    match name? (skipBlanks cs) with
    | none => none
    | some (name, after) =>
      match skipBlanks after with
      | '.' :: rest => (keyFrom? fuel rest).map fun (names, rest) => (name :: names, rest)
      | rest => some ([name], rest)

/-- Read a key and the blanks around it. -/
def key? (cs : List Char) : Option (List String × List Char) :=
  keyFrom? cs.length cs

/-! ## Writing -/

/-- A character within double quotes. -/
def written (c : Char) : List Char :=
  if c = '"' then ['\\', '"']
  else if c = '\\' then ['\\', '\\']
  else if c = '\x08' then ['\\', 'b']
  else if c = '\t' then ['\\', 't']
  else if c = '\n' then ['\\', 'n']
  else if c = '\x0c' then ['\\', 'f']
  else if c = '\r' then ['\\', 'r']
  else if c < ' ' ∨ c = '\x7f' then '\\' :: 'u' :: Text.hexFixed 4 c.toNat
  else [c]

/-- A text in double quotes. -/
def quote (s : String) : String :=
  String.ofList ('"' :: s.toList.flatMap written ++ ['"'])

/-- A name as it stands in a key. -/
def writeName (name : String) : String :=
  if name ≠ "" ∧ name.toList.all isBare then name else quote name

end RoomScript.Toml
