import RoomScript.Json.Value

/-!
# JSON

Values are read for what they are wanted as, and straight from the bytes: texts, integers, objects
with fields of known names, and lists.  `null` may stand for any of them.

* `Json.text`, `Json.integer`, `Json.object` and `Json.list` read a value;
* `Json.whole?` reads a document that is one value.
-/

namespace RoomScript.Json

/-- Read a text.  `null` stands for the empty text. -/
def text : Reader RawText := fun bytes =>
  match token bytes with
  | none => none
  | some b =>
    if b.value = '"'.toUInt8 then (textBody true b.rest).map b.behind
    else if b.value = 'n'.toUInt8 then b.word "ull" (RawText.ofString "")
    else none

/-- Read an integer of 64 bits.  `null` stands for `before`. -/
def integer (before : Int) : Reader Int := fun bytes =>
  match token bytes with
  | none => none
  | some b =>
    if b.value = 'n'.toUInt8 then b.word "ull" before
    else if b.value = '-'.toUInt8 then
      match wholeNumber b.rest with
      | none => none
      | some n => (signedNumber? true n.value).map fun i => b.behind ⟨i, n.rest, n.shorter⟩
    else
      match wholeNumber (bytes.dropWhile isSpace) with
      | none => none
      | some n => (signedNumber? false n.value).map fun i => Taken.spaced ⟨i, n.rest, n.shorter⟩

/-! ## Objects -/

/-- The name of a field, with the colon behind it. -/
def name : Reader RawText :=
  (mark '"').followed fun _ => (textBody false).followed fun found => (mark ':').map fun _ => found

/-- Read fields up to the end of their object.  `field` takes the value of a field with a name into
what has been read so far. -/
def fields {α : Type} (field : α → RawText → Reader α) (a : α) (bytes : List UInt8) :
    Option (Taken bytes α) :=
  match name.followed (field a) bytes with
  | none => none
  | some x =>
    match token x.rest with
    | none => none
    | some y =>
      if y.value = ','.toUInt8 then
        (fields field x.value y.rest).map fun z => (x.behind y).behind z
      else if y.value = '}'.toUInt8 then some ⟨x.value, y.rest, (x.behind y).shorter⟩
      else none
termination_by bytes.length
decreasing_by
  exact (x.behind y).shorter

/-- Read an object over what was there before.  `null` leaves it as it was. -/
def object {α : Type} (field : α → RawText → Reader α) (a : α) : Reader α := fun bytes =>
  match token bytes with
  | none => none
  | some b =>
    if b.value = '{'.toUInt8 then
      match mark '}' b.rest with
      | some c => some ⟨a, c.rest, (b.behind c).shorter⟩
      | none => (fields field a b.rest).map b.behind
    else if b.value = 'n'.toUInt8 then b.word "ull" a
    else none

/-! ## Lists -/

/-- Read items up to the end of their list.  Each is read over the one that stood in its place
before, or over `fresh`. -/
def items {α : Type} (item : α → Reader α) (fresh : α) (before : List α) (bytes : List UInt8) :
    Option (Taken bytes (List α)) :=
  match item (before.headD fresh) bytes with
  | none => none
  | some x =>
    match token x.rest with
    | none => none
    | some y =>
      if y.value = ','.toUInt8 then
        (items item fresh before.tail y.rest).map fun z =>
          ⟨x.value :: z.value, z.rest, ((x.behind y).behind z).shorter⟩
      else if y.value = ']'.toUInt8 then some ⟨[x.value], y.rest, (x.behind y).shorter⟩
      else none
termination_by bytes.length
decreasing_by
  exact (x.behind y).shorter

/-- Read a list over what was there before.  `null` stands for the empty list. -/
def list {α : Type} (item : α → Reader α) (fresh : α) (before : List α) : Reader (List α) :=
  fun bytes =>
    match token bytes with
    | none => none
    | some b =>
      if b.value = '['.toUInt8 then
        match mark ']' b.rest with
        | some c => some ⟨[], c.rest, (b.behind c).shorter⟩
        | none => (items item fresh before b.rest).map b.behind
      else if b.value = 'n'.toUInt8 then b.word "ull" []
      else none

/-! ## Documents -/

/-- Read a document.  Nothing may follow its value, unless a zero byte stands before it. -/
def whole? {α : Type} (r : Reader α) (bytes : List UInt8) : Option α :=
  match r bytes with
  | none => none
  | some x =>
    match token x.rest with
    | none => some x.value
    | some b => if b.value = 0 then some x.value else none

end RoomScript.Json
