/-!
# Numbers as text

Numbers are written in decimal or upper-case hexadecimal with a least width, and read from
literals that carry their base: `0x`, `0b`, `0o` or a bare leading `0` for octal, with single
underscores between digits.
-/

namespace RoomScript.Text

/-! ## Writing -/

/-- Digits with a sign, filled with zeros after the sign up to `width` characters in all. -/
def signed (width : Nat) (negative : Bool) (digits : List Char) : String :=
  let mark := if negative then ['-'] else []
  let fill := List.replicate (width - (mark.length + digits.length)) '0'
  String.ofList (mark ++ fill ++ digits)

/-- A number in decimal, at least `width` characters wide. -/
def decimal (width : Nat) (n : Int) : String :=
  signed width (n < 0) (Nat.toDigits 10 n.natAbs)

/-- A number in upper-case hexadecimal, at least `width` characters wide. -/
def hex (width : Nat) (n : Int) : String :=
  signed width (n < 0) ((Nat.toDigits 16 n.natAbs).map Char.toUpper)

/-- A digit of a lower-case hexadecimal number. -/
def hexDigit (n : Nat) : Char :=
  if n < 10 then Char.ofNat (48 + n) else Char.ofNat (87 + n)

/-- A number in lower-case hexadecimal with exactly `width` digits, higher digits being dropped. -/
def hexFixed : Nat → Nat → List Char
  | 0, _ => []
  | width + 1, n => hexFixed width (n / 16) ++ [hexDigit (n % 16)]

/-! ## Reading -/

/-- Why a text is not an integer of the wanted width. -/
inductive LiteralFault where
  | malformed
  | outOfRange
  deriving DecidableEq, Repr

/-- The value of a digit in any base up to 36. -/
def digitValue? (c : Char) : Option Nat :=
  if '0' ≤ c ∧ c ≤ '9' then some (c.toNat - 48)
  else if 'a' ≤ c.toLower ∧ c.toLower ≤ 'z' then some (c.toLower.toNat - 87)
  else none

/-- The value of a hexadecimal digit. -/
def hexValue? (c : Char) : Option Nat :=
  match digitValue? c with
  | some d => if d < 16 then some d else none
  | none => none

/-- The base that the beginning of an unsigned literal announces, and the digits after the
announcement.  A base letter needs at least one character after it. -/
def literalBase : List Char → Nat × List Char
  | '0' :: b :: c :: rest =>
    if b.toLower == 'x' then (16, c :: rest)
    else if b.toLower == 'b' then (2, c :: rest)
    else if b.toLower == 'o' then (8, c :: rest)
    else (8, b :: c :: rest)
  | '0' :: rest => (8, rest)
  | cs => (10, cs)

/-- The value of digits and underscores in a base, read onto `value`; `limit` is the largest
value. -/
def digitsValue (base limit value : Nat) : List Char → Except LiteralFault Nat
  | [] => .ok value
  | '_' :: rest => digitsValue base limit value rest
  | c :: rest =>
    match digitValue? c with
    | none => .error .malformed
    | some d =>
      if base ≤ d then .error .malformed
      else if limit < value * base + d then .error .outOfRange
      else digitsValue base limit (value * base + d) rest

/-- What stood last before the current place of a literal. -/
inductive LastSeen where
  | start
  | digit
  | underscore
  | other
  deriving DecidableEq

/-- Underscores stand after a digit and before a digit only. -/
def underscoresOkFrom (hexadecimal : Bool) (last : LastSeen) : List Char → Bool
  | [] => last != .underscore
  | c :: rest =>
    if c.isDigit || (hexadecimal && 'a' ≤ c.toLower && c.toLower ≤ 'f') then
      underscoresOkFrom hexadecimal .digit rest
    else if c == '_' then
      last == .digit && underscoresOkFrom hexadecimal .underscore rest
    else last != .underscore && underscoresOkFrom hexadecimal .other rest

/-- The underscores of an unsigned literal separate digits; a base mark counts as a digit. -/
def underscoresOk (cs : List Char) : Bool :=
  match cs with
  | '0' :: b :: rest =>
    if b.toLower == 'x' || b.toLower == 'b' || b.toLower == 'o' then
      underscoresOkFrom (b.toLower == 'x') .digit rest
    else underscoresOkFrom false .start cs
  | _ => underscoresOkFrom false .start cs

/-- The value of an unsigned literal that fits in `bits` bits. -/
def unsignedLiteral (bits : Nat) (cs : List Char) : Except LiteralFault Nat :=
  if cs.isEmpty then .error .malformed
  else
    match digitsValue (literalBase cs).1 (Nat.pow 2 bits - 1) 0 (literalBase cs).2 with
    | .error e => .error e
    | .ok n => if underscoresOk cs then .ok n else .error .malformed

/-- The value of a literal, with or without a sign, as a two's complement number of `bits` bits. -/
def intLiteral (bits : Nat) (s : String) : Except LiteralFault Int :=
  let (negative, cs) :=
    match s.toList with
    | '-' :: rest => (true, rest)
    | '+' :: rest => (false, rest)
    | cs => (false, cs)
  match unsignedLiteral bits cs with
  | .error e => .error e
  | .ok n =>
    if negative then
      if n ≤ Nat.pow 2 (bits - 1) then .ok (-n) else .error .outOfRange
    else if n < Nat.pow 2 (bits - 1) then .ok n
    else .error .outOfRange

/-- The value of a 32-bit literal, if the text is one. -/
def int32? (s : String) : Option Int :=
  (intLiteral 32 s).toOption

end RoomScript.Text
