import RoomScript.Text.Character
import RoomScript.Timestamp

/-!
# Numbers and moments of settings files

Numbers may have underscores between their digits.  Integers have 64 bits and may be written in
base 2, 8 or 16; decimal numbers have a fraction or an exponent and must not be too large.  A moment
is a date, a time of day or both, with or without its distance from universal time.
-/

namespace RoomScript.Toml

/-! ## Digits -/

/-- A digit of a hexadecimal number. -/
def isHexDigit (c : Char) : Bool :=
  c.isDigit || ('a' ≤ c.toLower && c.toLower ≤ 'f')

/-- Every underscore has a digit before and behind it, given the character before the list. -/
def underscoresOkBehind (digitBefore : Bool) : List Char → Bool
  | [] => digitBefore
  | c :: rest =>
    if c = '_' then digitBefore && underscoresOkBehind false rest
    else underscoresOkBehind (isHexDigit c) rest

/-- Every underscore stands between digits, and a digit stands last. -/
def underscoresOk (cs : List Char) : Bool :=
  underscoresOkBehind false cs

/-- A number without the sign in front of it. -/
def unsigned : List Char → List Char
  | '+' :: rest => rest
  | '-' :: rest => rest
  | cs => cs

/-- A zero in front of more than a base letter. -/
def hasLeadingZero (cs : List Char) : Bool :=
  match cs with
  | '0' :: c :: _ => !(c == 'b' || c == 'o' || c == 'x')
  | '+' :: '0' :: _ :: _ => true
  | '-' :: '0' :: _ :: _ => true
  | _ => false

/-! ## Integers -/

/-- The value of an integer. -/
def integer? (cs : List Char) : Option Int :=
  if underscoresOk cs ∧ ¬hasLeadingZero cs then (Text.intLiteral 64 (String.ofList cs)).toOption
  else none

/-! ## Decimal numbers -/

/-- The parts of a decimal number between its points and exponent marks. -/
def parts (cs : List Char) : List (List Char) :=
  (cs.splitOnP fun c => c == '.' || c == 'e' || c == 'E').filter (! ·.isEmpty)

/-- A digit stands behind every point. -/
def pointsOk : List Char → Bool
  | [] => true
  | '.' :: rest => rest.head?.any Char.isDigit && pointsOk rest
  | _ :: rest => pointsOk rest

/-- The value of decimal digits. -/
def digitsValue (cs : List Char) : Nat :=
  cs.foldl (fun n c => n * 10 + (c.toNat - '0'.toNat)) 0

/-- The digits and the power of ten of an unsigned decimal number without underscores: digits, a
fraction or none, an exponent or none. -/
def decimal? (cs : List Char) : Option (Nat × Int) :=
  let whole := cs.takeWhile Char.isDigit
  let (fraction, tail) := match cs.drop whole.length with
    | '.' :: rest => (rest.takeWhile Char.isDigit, rest.dropWhile Char.isDigit)
    | rest => ([], rest)
  if whole.isEmpty then none
  else
    let value := digitsValue (whole ++ fraction)
    match tail with
    | [] => some (value, -fraction.length)
    | mark :: exponent =>
      let digits := unsigned exponent
      if (mark = 'e' ∨ mark = 'E') ∧ ¬digits.isEmpty ∧ digits.all Char.isDigit then
        let power : Int := digitsValue digits
        some (value, (if exponent.head? = some '-' then -power else power) - fraction.length)
      else none

/-- The least number that is too large: half a step beyond the largest number of 64 bits. -/
def tooLarge : Nat := Nat.pow 2 1024 - Nat.pow 2 970

/-- Whether `value * 10 ^ power` is too large. -/
def isTooLarge (value : Nat) (power : Int) : Bool :=
  if value = 0 then false
  else if power > 400 then true
  else if 0 ≤ power then tooLarge ≤ value * Nat.pow 10 power.toNat
  else if ((Nat.toDigits 10 value).length : Int) + power < 300 then false
  else tooLarge * Nat.pow 10 power.natAbs ≤ value

/-- A decimal number with a point or an exponent. -/
def isDecimal (cs : List Char) : Bool :=
  (parts cs).all underscoresOk && !(parts cs).head?.any hasLeadingZero && pointsOk cs &&
    match decimal? (unsigned (cs.filter (· != '_'))) with
    | some (value, power) => !isTooLarge value power
    | none => false

/-! ## Moments -/

/-- A moment in the one form of which all others leave something out. -/
def isFullMoment (text : String) : Bool :=
  text.toList[13]? == some ':' && (Timestamp.parse? text).isSome

/-- A moment: with a distance from universal time, without one, a date alone, a time alone. -/
def isMoment (cs : List Char) : Bool :=
  let text := String.ofList (cs.map fun c =>
    if c = 't' ∨ c = ' ' then 'T' else if c = 'z' then 'Z' else c)
  isFullMoment text || isFullMoment (text ++ "Z") || isFullMoment (text ++ "T00:00:00Z") ||
    isFullMoment ("0001-01-01T" ++ text ++ "Z")

end RoomScript.Toml
