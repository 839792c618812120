/-!
# Procedure chunks

A chunk is a table of little-endian 16-bit offsets followed by the procedures they point to.  The
first offset is also the size of the table, every procedure ends where the next one starts, and the
last one ends with the chunk.

* `Chunk.split` and `Chunk.join` are inverse to each other.
-/

namespace RoomScript.Chunk

/-- Why a byte string is not a chunk, or a list of procedures has none. -/
inductive Error where
  | truncatedTable
  | badTableSize (size : Nat)
  | badBounds (index first last : Nat)
  | noProcedures
  | startsTooLate (index : Nat)
  deriving DecidableEq, Repr

/-- The wording of a chunk error. -/
def Error.message : Error → String
  | truncatedTable => "procedure table is truncated"
  | badTableSize size => "invalid procedure table size " ++ toString size
  | badBounds index first last =>
    "procedure " ++ toString index ++ " has invalid bounds " ++ toString first ++ ".." ++
      toString last
  | noProcedures => "no procedures to join"
  | startsTooLate index => "procedure " ++ toString index ++ " starts past 64KiB"

/-- The little-endian words of a byte string of even length. -/
def words : List UInt8 → List Nat
  | low :: high :: rest => (low.toNat + 256 * high.toNat) :: words rest
  | _ => []

/-- The two bytes of a word, low byte first. -/
def wordBytes (n : Nat) : List UInt8 :=
  [UInt8.ofNat (n % 256), UInt8.ofNat (n / 256)]

/-- Cut `rest`, which starts at the first of the bounds, at the bounds after it.  `index` counts
the procedures, `table` and `size` are the least and the greatest bound. -/
def cut (table size index : Nat) : List Nat → List UInt8 → Except Error (List (List UInt8))
  | first :: last :: bounds, rest =>
    if first < table ∨ last < first ∨ size < last then .error (.badBounds index first last)
    else
      match cut table size (index + 1) (last :: bounds) (rest.drop (last - first)) with
      | .ok procedures => .ok (rest.take (last - first) :: procedures)
      | .error e => .error e
  | _, _ => .ok []

/-- The procedures of a chunk. -/
def split (chunk : List UInt8) : Except Error (List (List UInt8)) :=
  match chunk with
  | low :: high :: _ =>
    let table := low.toNat + 256 * high.toNat
    if table = 0 ∨ table % 2 ≠ 0 ∨ chunk.length < table then .error (.badTableSize table)
    else cut table chunk.length 0 (words (chunk.take table) ++ [chunk.length]) (chunk.drop table)
  | _ => .error .truncatedTable

/-- The table entries of procedures that start at an offset. -/
def tableFrom (index offset : Nat) : List (List UInt8) → Except Error (List UInt8)
  | [] => .ok []
  | p :: rest =>
    if 0xFFFF < offset then .error (.startsTooLate index)
    else
      match tableFrom (index + 1) (offset + p.length) rest with
      | .ok table => .ok (wordBytes offset ++ table)
      | .error e => .error e

/-- The chunk of a list of procedures. -/
def join (procedures : List (List UInt8)) : Except Error (List UInt8) :=
  if procedures.isEmpty then .error .noProcedures
  else
    match tableFrom 0 (2 * procedures.length) procedures with
    | .ok table => .ok (table ++ procedures.flatten)
    | .error e => .error e

end RoomScript.Chunk
