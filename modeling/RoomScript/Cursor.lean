/-!
# Cursors over bytes

A cursor is a position in a byte string.  Copies are independent, because a cursor is a value.
Positions and counts are signed numbers of 64 bits.  A sum that leaves their range comes in again at
the other end.
-/

namespace RoomScript

/-- The signed number of 64 bits that differs from `n` by a multiple of two to the 64th. -/
def wrap64 (n : Int) : Int :=
  Int.bmod n (Nat.pow 2 64)

/-- A position in a byte string. -/
structure Cursor where
  data : List UInt8
  position : Int := 0
  deriving DecidableEq, Repr

namespace Cursor

/-- The number of bytes after the position. -/
def remaining (c : Cursor) : Int :=
  wrap64 (c.data.length - c.position)

/-- The byte at a place of the data. -/
def byteAt? (c : Cursor) (place : Int) : Option UInt8 :=
  if place < 0 then none else c.data[place.toNat]?

/-- Move by a number of bytes, at most to the end of the data. -/
def skip (c : Cursor) (count : Int) : Cursor :=
  { c with position := min (wrap64 (c.position + count)) c.data.length }

/-- The byte at a distance from the position. -/
def peekAt? (c : Cursor) (distance : Int) : Option UInt8 :=
  if distance < 0 then none else c.byteAt? (c.position + distance)

/-- Read a byte. -/
def readByte (c : Cursor) : Option UInt8 × Cursor :=
  match c.byteAt? c.position with
  | some b => (some b, { c with position := c.position + 1 })
  | none => (none, c)

/-- Read a little-endian word. -/
def readWord (c : Cursor) : Option Nat × Cursor :=
  match c.byteAt? c.position, c.byteAt? (c.position + 1) with
  | some low, some high =>
    (some (low.toNat + 256 * high.toNat), { c with position := c.position + 2 })
  | _, _ => (none, c)

end Cursor

end RoomScript
