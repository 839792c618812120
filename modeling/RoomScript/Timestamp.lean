import RoomScript.Text.Number

/-!
# Timestamps

A timestamp is a date and a time of day with its distance from universal time, written
`2006-01-02T15:04:05.123+09:00`.  The fraction is as short as it can be, and `Z` stands for no
distance.
-/

namespace RoomScript

/-- A moment as a calendar and a clock show it. -/
structure Timestamp where
  year : Nat := 1
  month : Nat := 1
  day : Nat := 1
  hour : Nat := 0
  minute : Nat := 0
  second : Nat := 0
  nanosecond : Nat := 0
  /-- Minutes ahead of universal time. -/
  offset : Int := 0
  deriving DecidableEq, Repr

namespace Timestamp

/-- A leap year has a day more in February. -/
def isLeap (year : Nat) : Bool :=
  year % 4 == 0 && (year % 100 != 0 || year % 400 == 0)

/-- The number of days of a month. -/
def daysIn (year month : Nat) : Nat :=
  if month = 2 then if isLeap year then 29 else 28
  else if month = 4 ∨ month = 6 ∨ month = 9 ∨ month = 11 then 30
  else 31

/-! ## Counting from a fixed moment -/

/-- The number of days from the first of March of the year 0 to the first of January 1970. -/
def daysBefore1970 : Nat := 719468

/-- The year, month and day that come so many days after the first of March of the year 0.  Years
are counted from March here, so that the leap day comes last; 400 years have 146097 days. -/
def dateOfDays (days : Nat) : Nat × Nat × Nat :=
  let day := days % 146097
  let year := (day - day / 1460 + day / 36524 - day / 146096) / 365
  let dayOfYear := day - (365 * year + year / 4 - year / 100)
  let month := (5 * dayOfYear + 2) / 153
  let calendarMonth := if month < 10 then month + 3 else month - 9
  (days / 146097 * 400 + year + (if calendarMonth ≤ 2 then 1 else 0), calendarMonth,
    dayOfYear - (153 * month + 2) / 5 + 1)

/-- The moment that comes so many nanoseconds after the beginning of 1970. -/
def ofNanoseconds (count : Nat) : Timestamp :=
  let seconds := count / 1000000000
  let (year, month, day) := dateOfDays (seconds / 86400 + daysBefore1970)
  { year, month, day
    hour := seconds % 86400 / 3600
    minute := seconds % 3600 / 60
    second := seconds % 60
    nanosecond := count % 1000000000 }

/-! ## Reading -/

/-- The value of a digit. -/
def digit? (c : Char) : Option Nat :=
  if c.isDigit then some (c.toNat - '0'.toNat) else none

/-- Read a number of two digits. -/
def twoDigits? : List Char → Option (Nat × List Char)
  | a :: b :: rest =>
    match digit? a, digit? b with
    | some a, some b => some (a * 10 + b, rest)
    | _, _ => none
  | _ => none

/-- Read a number of one or two digits. -/
def oneOrTwoDigits? (cs : List Char) : Option (Nat × List Char) :=
  match twoDigits? cs, cs with
  | some found, _ => some found
  | none, a :: rest => (digit? a).map (·, rest)
  | none, [] => none

/-- Read a mark. -/
def mark? (c : Char) : List Char → Option (List Char)
  | d :: rest => if c = d then some rest else none
  | [] => none

/-- The number of nanoseconds in the digits of a fraction; digits after the ninth are dropped. -/
def nanoseconds (digits : List Char) : Nat :=
  ((digits.take 9 ++ List.replicate (9 - digits.length) '0').foldl
    (fun n c => n * 10 + (c.toNat - '0'.toNat)) 0)

/-- Read a fraction, if there is one: a point or a comma, and digits. -/
def fraction (cs : List Char) : Nat × List Char :=
  match cs with
  | c :: d :: rest =>
    if (c = '.' ∨ c = ',') ∧ d.isDigit then
      (nanoseconds ((d :: rest).takeWhile Char.isDigit), (d :: rest).dropWhile Char.isDigit)
    else (0, cs)
  | _ => (0, cs)

/-- Read the distance from universal time, with nothing behind it. -/
def zone? (cs : List Char) : Option Int :=
  match cs with
  | ['Z'] => some 0
  | sign :: rest => do
    let (hours, rest) ← twoDigits? rest
    let rest ← mark? ':' rest
    let (minutes, rest) ← twoDigits? rest
    if hours > 24 ∨ minutes > 60 ∨ rest ≠ [] then none
    else if sign = '+' then some (hours * 60 + minutes : Nat)
    else if sign = '-' then some (-(hours * 60 + minutes : Nat))
    else none
  | [] => none

/-- Read a timestamp. -/
def parse? (text : String) : Option Timestamp := do
  let (century, rest) ← twoDigits? text.toList
  let (years, rest) ← twoDigits? rest
  let rest ← mark? '-' rest
  let (month, rest) ← twoDigits? rest
  let rest ← mark? '-' rest
  let (day, rest) ← twoDigits? rest
  let rest ← mark? 'T' rest
  let (hour, rest) ← oneOrTwoDigits? rest
  let rest ← mark? ':' rest
  let (minute, rest) ← twoDigits? rest
  let rest ← mark? ':' rest
  let (second, rest) ← twoDigits? rest
  let (nanosecond, rest) := fraction rest
  let offset ← zone? rest
  let year := century * 100 + years
  if month < 1 ∨ month > 12 ∨ day < 1 ∨ day > daysIn year month ∨ hour > 23 ∨ minute > 59 ∨
      second > 59 then none
  else some { year, month, day, hour, minute, second, nanosecond, offset }

/-! ## Writing -/

/-- A number with two digits at least. -/
def padded (n : Nat) : String :=
  Text.decimal 2 n

/-- The shortest fraction, with its point. -/
def fractionText (nanosecond : Nat) : String :=
  if nanosecond = 0 then ""
  else
    let digits := (Text.decimal 9 nanosecond).toList
    String.ofList ('.' :: (digits.reverse.dropWhile (· == '0')).reverse)

/-- The distance from universal time. -/
def zoneText (offset : Int) : String :=
  if offset = 0 then "Z"
  else
    (if offset < 0 then "-" else "+") ++ padded (offset.natAbs / 60) ++ ":" ++
      padded (offset.natAbs % 60)

/-- The written form of a timestamp. -/
def text (t : Timestamp) : String :=
  Text.decimal 4 t.year ++ "-" ++ padded t.month ++ "-" ++ padded t.day ++ "T" ++ padded t.hour ++
    ":" ++ padded t.minute ++ ":" ++ padded t.second ++ fractionText t.nanosecond ++
    zoneText t.offset

end Timestamp

end RoomScript
