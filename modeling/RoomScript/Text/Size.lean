/-!
# Sizes in bytes

A size is shown in the largest unit of 1024 steps that leaves at least one, with four significant
digits and without trailing zeros.
-/

namespace RoomScript.Text

/-- The units of a size, each 1024 times the one before. -/
def sizeUnits : List String :=
  ["B", "KiB", "MiB", "GiB", "TiB", "PiB", "EiB", "ZiB", "YiB"]

/-- The quotient rounded to the nearest whole number, a half to the even neighbour. -/
def roundHalfEven (num den : Nat) : Nat :=
  let q := num / den
  let r := 2 * (num % den)
  if r < den then q else if den < r then q + 1 else q + q % 2

/-- The unit of a size and the divisor that belongs to it. -/
def sizeUnit (size : Nat) (divisor : Nat) : List String → String × Nat
  | [] => ("B", divisor)
  | [last] => (last, divisor)
  | unit :: larger => if size < 1024 * divisor then (unit, divisor) else sizeUnit size (divisor * 1024) larger

/-- The decimals that leave four significant digits for a quotient below 10000. -/
def sizeDecimals (num den : Nat) : Nat :=
  if num < 10 * den then 3 else if num < 100 * den then 2 else if num < 1000 * den then 1 else 0

/-- A number of `decimals` places without the zeros at its end. -/
def trimmedDecimal (decimals scaled : Nat) : String :=
  let whole := scaled / Nat.pow 10 decimals
  let digits := Nat.toDigits 10 (scaled % Nat.pow 10 decimals)
  let places := List.replicate (decimals - digits.length) '0' ++ digits
  let kept := (places.reverse.dropWhile (· == '0')).reverse
  if decimals == 0 || kept.isEmpty then toString whole
  else toString whole ++ "." ++ String.ofList kept

/-- A size as text. -/
def byteSize (size : Nat) : String :=
  let (unit, divisor) := sizeUnit size 1 sizeUnits
  let decimals := sizeDecimals size divisor
  trimmedDecimal decimals (roundHalfEven (size * Nat.pow 10 decimals) divisor) ++ unit

end RoomScript.Text
