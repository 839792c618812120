import RoomScript.Json.Reader
import RoomScript.Text.Raw

/-!
# JSON texts

A text stands in double quotes, where a backslash begins an escape.  A character may be escaped by
its number, one beyond U+FFFF by two numbers, each of which is half of a pair.

* `Json.textBody` reads a text whose opening quote has been read;
* `Json.quoted` writes a text, with characters that are special in markup written by their numbers.
-/

namespace RoomScript.Json

/-! ## Escapes -/

/-- The value of a hexadecimal digit. -/
def hexValue? (b : UInt8) : Option Nat :=
  Text.hexValue? (Char.ofNat b.toNat)

/-- The number of four hexadecimal digits. -/
def hexNumber? (a b c d : UInt8) : Option Nat :=
  match hexValue? a, hexValue? b, hexValue? c, hexValue? d with
  | some a, some b, some c, some d => some (((a * 16 + b) * 16 + c) * 16 + d)
  | _, _, _, _ => none

/-- The character with a number; a half pair has none. -/
def charOf (n : Nat) : Char :=
  if Text.isSurrogate n then Text.replacement else Char.ofNat n

/-- The characters that a half pair and the number after it stand for. -/
def pairOf (first second : Nat) : List Char :=
  if first < 0xDC00 ∧ 0xDC00 ≤ second ∧ second < 0xE000 then
    [Char.ofNat ((first - 0xD800) * 0x400 + (second - 0xDC00) + 0x10000)]
  else [charOf first, charOf second]

/-- The meaning of a byte behind a backslash. -/
def unescape? (b : UInt8) : Option Char :=
  match Char.ofNat b.toNat with
  | '"' => some '"'
  | '\\' => some '\\'
  | '/' => some '/'
  | 'b' => some '\x08'
  | 'f' => some '\x0c'
  | 'n' => some '\n'
  | 'r' => some '\r'
  | 't' => some '\t'
  | _ => none

/-- The characters that a number stands for and what follows.  A half pair takes the number after it
along. -/
def readNumbered (n : Nat) (rest : List UInt8) : Option (List Char × List UInt8) :=
  if ¬Text.isSurrogate n then some ([charOf n], rest)
  else
    match rest with
    | backslash :: u :: a :: b :: c :: d :: after =>
      if backslash = '\\'.toUInt8 ∧ u = 'u'.toUInt8 then
        (hexNumber? a b c d).map fun m => (pairOf n m, after)
      else some ([charOf n], rest)
    | _ => some ([charOf n], rest)

theorem length_readNumbered {n : Nat} {rest after : List UInt8} {cs : List Char}
    (h : readNumbered n rest = some (cs, after)) : after.length ≤ rest.length := by
  unfold readNumbered at h
  split at h
  · simp only [Option.some.injEq, Prod.mk.injEq] at h
    simp [h.2]
  · split at h
    · split at h
      · simp only [Option.map_eq_some_iff, Prod.mk.injEq] at h
        obtain ⟨m, -, -, rfl⟩ := h
        simp only [List.length_cons]
        omega
      · simp only [Option.some.injEq, Prod.mk.injEq] at h
        simp [← h.2]
    · simp only [Option.some.injEq, Prod.mk.injEq] at h
      simp [h.2]

/-- The characters that an escape means, and what follows it.  Its backslash has been read. -/
def readEscape : List UInt8 → Option (List Char × List UInt8)
  | [] => none
  | kind :: rest =>
    if kind = 'u'.toUInt8 then
      match rest with
      | a :: b :: c :: d :: after =>
        match hexNumber? a b c d with
        | none => none
        | some n => readNumbered n after
      | _ => none
    else (unescape? kind).map fun c => ([c], rest)

theorem length_readEscape {bytes rest : List UInt8} {meant : List Char}
    (h : readEscape bytes = some (meant, rest)) : rest.length < bytes.length := by
  unfold readEscape at h
  split at h
  · simp at h
  · split at h
    · split at h
      · split at h
        · simp at h
        · have := length_readNumbered h
          simp only [List.length_cons]
          omega
      · simp at h
    · simp only [Option.map_eq_some_iff, Prod.mk.injEq] at h
      obtain ⟨c, -, -, rfl⟩ := h
      simp

/-! ## Texts -/

/-- Read a text up to its closing quote, behind the reversed bytes `read`.  When `guarded`, control
bytes are refused up to the first backslash. -/
def readText (guarded : Bool) (read bytes : List UInt8) : Option (List UInt8 × List UInt8) :=
  match bytes with
  | [] => none
  | b :: rest =>
    if b = '"'.toUInt8 then some (read.reverse, rest)
    else if b = '\\'.toUInt8 then
      match _escape : readEscape rest with
      | none => none
      | some (meant, after) =>
        readText false ((meant.flatMap String.utf8EncodeChar).reverse ++ read) after
    else if guarded && b < 0x20 then none
    else readText guarded (b :: read) rest
termination_by bytes.length
decreasing_by
  · have := length_readEscape _escape
    simp only [List.length_cons]
    omega
  · simp

theorem length_readText {guarded : Bool} {read bytes text rest : List UInt8}
    (h : readText guarded read bytes = some (text, rest)) : rest.length < bytes.length := by
  fun_induction readText guarded read bytes with
  | case1 => simp at h
  | case2 =>
    simp only [Option.some.injEq, Prod.mk.injEq] at h
    simp [h.2]
  | case3 => simp at h
  | case4 guarded read after meant left escape _ ih =>
    have := length_readEscape escape
    have := ih h
    simp only [List.length_cons]
    omega
  | case5 => simp at h
  | case6 guarded read b after _ _ _ ih =>
    have := ih h
    simp only [List.length_cons]
    omega

/-- Read a text whose opening quote has been read. -/
def textBody (guarded : Bool) : Reader RawText := fun bytes =>
  match _read : readText guarded [] bytes with
  | none => none
  | some (text, rest) => some ⟨⟨text.toByteArray⟩, rest, length_readText _read⟩

/-! ## Writing -/

/-- A character within quotes. -/
def escape (c : Char) : List Char :=
  if c = '"' then ['\\', '"']
  else if c = '\\' then ['\\', '\\']
  else if c = '\n' then ['\\', 'n']
  else if c = '\r' then ['\\', 'r']
  else if c = '\t' then ['\\', 't']
  else if c < ' ' ∨ c = '<' ∨ c = '>' ∨ c = '&' ∨ c = '\u2028' ∨ c = '\u2029' then
    '\\' :: 'u' :: Text.hexFixed 4 c.toNat
  else [c]

/-- A text in quotes. -/
def quoted (s : String) : String :=
  String.ofList ('"' :: s.toList.flatMap escape ++ ['"'])

end RoomScript.Json
