import RoomScript.Json.Reader

/-!
# JSON numbers

Integers are read as numbers of 64 bits.  Other numbers are only passed over, and it is the quick
glance that decides about most of them: digits with at most one point among them are a number when
something follows that ends a number.  What a glance cannot decide has to be a decimal number that
is not too large.

* `Json.wholeNumber?` reads the digits of an integer;
* `Json.passNumber` passes over a number.
-/

namespace RoomScript.Json

/-- A decimal digit. -/
def isDigit (b : UInt8) : Bool :=
  '0'.toUInt8 ≤ b && b ≤ '9'.toUInt8

/-- The number that digits give when they are put behind `value`. -/
def digitsOnto (value : Nat) (digits : List UInt8) : Nat :=
  digits.foldl (fun n b => n * 10 + (b.toNat - '0'.toNat)) value

/-! ## Integers -/

/-- The largest number that can be multiplied by ten without looking for an overflow. -/
def safeToExtend : Nat := (Nat.pow 2 64 - 1) / 10 - 1

/-- The 64-bit number that digits give when they are added to `value`.  An overflow is noticed when
the number gets smaller. -/
def extendNumber (value : Nat) : List UInt8 → Option Nat
  | [] => some value
  | b :: rest =>
    let next := (value * 10 + (b.toNat - '0'.toNat)) % Nat.pow 2 64
    if value > safeToExtend ∧ next < value then none else extendNumber next rest

/-- The digits of an integer, which a leading zero ends, and what follows them. -/
def spanDigits : List UInt8 → List UInt8 × List UInt8
  | [] => ([], [])
  | b :: rest =>
    if b = '0'.toUInt8 then ([b], rest)
    else if isDigit b then (b :: rest.takeWhile isDigit, rest.dropWhile isDigit)
    else ([], b :: rest)

theorem length_spanDigits (bytes : List UInt8) (h : (spanDigits bytes).1 ≠ []) :
    (spanDigits bytes).2.length < bytes.length := by
  unfold spanDigits at h ⊢
  split
  · simp at h
  · split
    · simp
    · split
      · have := (List.dropWhile_suffix (l := ‹List UInt8›) isDigit).length_le
        simp only [List.length_cons]
        omega
      · simp_all

/-- Read an integer without sign.  No point may follow it. -/
def wholeNumber : Reader Nat := fun bytes =>
  if h : (spanDigits bytes).1 = [] then none
  else
    match extendNumber 0 (spanDigits bytes).1 with
    | none => none
    | some n =>
      if (spanDigits bytes).2.head? = some '.'.toUInt8 then none
      else some ⟨n, (spanDigits bytes).2, length_spanDigits bytes h⟩

/-- The signed number of 64 bits with a size and a sign. -/
def signedNumber? (negative : Bool) (n : Nat) : Option Int :=
  if negative then if n ≤ Nat.pow 2 63 then some (-(n : Int)) else none
  else if n < Nat.pow 2 63 then some (n : Int)
  else none

/-! ## Decimal numbers -/

/-- A decimal number as it is written. -/
structure Decimal where
  /-- The digits before and behind the point. -/
  digits : List UInt8
  /-- How many of the digits stand behind the point. -/
  places : Nat
  /-- Whether the exponent is negative. -/
  negative : Bool
  /-- The digits of the exponent. -/
  exponent : List UInt8

namespace Decimal

/-- The exponent of a number: a letter, a sign or none, and digits, or nothing at all. -/
def exponent? (bytes : List UInt8) : Option (Bool × List UInt8) :=
  match bytes with
  | [] => some (false, [])
  | letter :: rest =>
    let (negative, digits) := match rest with
      | sign :: more =>
        if sign = '-'.toUInt8 then (true, more)
        else if sign = '+'.toUInt8 then (false, more)
        else (false, rest)
      | [] => (false, [])
    if (letter = 'e'.toUInt8 ∨ letter = 'E'.toUInt8) ∧ digits ≠ [] ∧ digits.all isDigit then
      some (negative, digits)
    else none

/-- Read a decimal number without sign: digits, a point with digits behind it or none, and an
exponent or none.  Digits in front of the point may be missing. -/
def parse? (bytes : List UInt8) : Option Decimal :=
  let whole := bytes.takeWhile isDigit
  let (places, rest) := match bytes.dropWhile isDigit with
    | b :: rest =>
      if b = '.'.toUInt8 then (some (rest.takeWhile isDigit), rest.dropWhile isDigit)
      else (none, b :: rest)
    | [] => (none, [])
  if places = some [] ∨ (whole = [] ∧ places = none) then none
  else
    (exponent? rest).map fun (negative, exponent) =>
      { digits := whole ++ places.getD [], places := (places.getD []).length, negative, exponent }

/-- The digits of a decimal number as one number. -/
def mantissa (d : Decimal) : Nat :=
  digitsOnto 0 d.digits

/-- The exponent, with digits that follow when it has reached ten thousand left out. -/
def cappedExponent (d : Decimal) : Int :=
  let size : Nat := d.exponent.foldl
    (fun n b => if n < 10000 then n * 10 + (b.toNat - '0'.toNat) else n) 0
  if d.negative then -(size : Int) else size

/-- Whether a number is less than `limit`. -/
def isBelow (d : Decimal) (limit : Nat) : Bool :=
  let power : Int := d.cappedExponent - d.places
  if power < 0 then d.mantissa < limit * Nat.pow 10 power.natAbs
  else d.mantissa * Nat.pow 10 power.toNat < limit

/-- The number of binary digits of a number. -/
def binaryLength (n : Nat) : Nat :=
  if n = 0 then 0 else n.log2 + 1

/-- Whether a number other than zero is within two to the power of any 32-bit number, judged by its
binary digits and its power of ten. -/
def hasSmallPower (d : Decimal) : Bool :=
  let size := digitsOnto 0 d.exponent
  let exponent : Int := if d.negative then -(size : Int) else size
  let power : Int := binaryLength d.mantissa - d.places + exponent
  decide (-(Nat.pow 2 63 : Int) ≤ exponent ∧ exponent < (Nat.pow 2 63 : Int)) &&
    (d.mantissa == 0 || decide (-(Nat.pow 2 31 : Int) ≤ power ∧ power < (Nat.pow 2 31 : Int)))

end Decimal

/-! ## Passing over -/

/-- A byte that a number may have. -/
def isNumberByte (b : UInt8) : Bool :=
  isDigit b || b == '+'.toUInt8 || b == '-'.toUInt8 || b == '.'.toUInt8 || b == 'e'.toUInt8 ||
    b == 'E'.toUInt8

/-- A byte behind which a number has ended. -/
def endsNumber (b : UInt8) : Bool :=
  isSpace b || b == ','.toUInt8 || b == ']'.toUInt8 || b == '}'.toUInt8

/-- What a glance at a number tells. -/
inductive Glance where
  /-- It is a number. -/
  | number
  /-- It is none. -/
  | wrong
  /-- A closer look is needed. -/
  | unsure

/-- Look over digits with at most one point among them.  `seen` says whether there was anything
so far, and `point` whether there was a point. -/
def glance (seen point : Bool) : List UInt8 → Glance
  | [] => .unsure
  | b :: rest =>
    if isDigit b then glance true point rest
    else if b = '.'.toUInt8 then
      if point then .wrong
      else if rest.isEmpty then .unsure
      else if rest.head?.any isDigit then glance true true rest
      else .wrong
    else if seen && endsNumber b then .number
    else .unsure

/-- The least number that is too large for a decimal number of double precision. -/
def doubleLimit : Nat := Nat.pow 2 1024 - Nat.pow 2 970

/-- The least number that is too large for a decimal number of single precision. -/
def singleLimit : Nat := Nat.pow 2 128 - Nat.pow 2 103

/-- Whether the bytes of a number are a decimal number below `limit`.  A plus sign may stand in
front. -/
def isDecimalBelow (limit : Nat) (bytes : List UInt8) : Bool :=
  let unsigned := if bytes.head? = some '+'.toUInt8 then bytes.tail else bytes
  (Decimal.parse? unsigned).any (·.isBelow limit)

/-- Whether bytes start with a point, or with a zero in front of another digit. -/
def startsOddly : List UInt8 → Bool
  | b :: c :: _ => b == '.'.toUInt8 || (b == '0'.toUInt8 && isDigit c)
  | [b] => b == '.'.toUInt8
  | [] => false

/-- A closer look at the bytes of a number behind its minus sign. -/
def isNumber (bytes : List UInt8) : Bool :=
  if startsOddly bytes then (Decimal.parse? bytes).any Decimal.hasSmallPower
  else isDecimalBelow doubleLimit bytes

/-- What follows a number, given its first byte `b` and the bytes behind it. -/
def passNumber? (b : UInt8) (rest : List UInt8) : Option (List UInt8) :=
  if b = '0'.toUInt8 then
    if !rest.head?.any isDigit && isDecimalBelow singleLimit (b :: rest.takeWhile isNumberByte) then
      some (rest.dropWhile isNumberByte)
    else none
  else
    match glance false false rest with
    | .wrong => none
    | .number => some (rest.dropWhile fun c => isDigit c || c == '.'.toUInt8)
    | .unsure =>
      let bytes := rest.takeWhile isNumberByte
      if isNumber (if b = '-'.toUInt8 then bytes else b :: bytes) then
        some (rest.dropWhile isNumberByte)
      else none

theorem length_passNumber? {b : UInt8} {rest after : List UInt8}
    (h : passNumber? b rest = some after) : after.length ≤ rest.length := by
  unfold passNumber? at h
  split at h
  · split at h
    · simp only [Option.some.injEq] at h
      simpa [← h] using (List.dropWhile_suffix (l := rest) isNumberByte).length_le
    · simp at h
  · split at h
    · simp at h
    · simp only [Option.some.injEq] at h
      simpa [← h] using
        (List.dropWhile_suffix (l := rest) fun c => isDigit c || c == '.'.toUInt8).length_le
    · simp only [Option.ite_none_right_eq_some, Option.some.injEq] at h
      simpa [← h.2] using (List.dropWhile_suffix (l := rest) isNumberByte).length_le

end RoomScript.Json
