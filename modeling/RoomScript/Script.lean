import RoomScript.Version

/-!
# Scripts

A script is a list of procedures.  A procedure belongs to a kind, has a position within its kind,
and is a string of bytes.
-/

namespace RoomScript

/-- The part of a room script a procedure belongs to.  Any number can stand in a script; three of
them have names. -/
structure Kind where
  code : Int
  deriving DecidableEq, Repr

namespace Kind

def init : Kind := ⟨0⟩
def main : Kind := ⟨1⟩
def event : Kind := ⟨2⟩

/-- The named kinds in the order of their codes. -/
def named : List Kind :=
  [init, main, event]

/-- The name of a kind. -/
def name (k : Kind) : String :=
  if k = init then "init"
  else if k = main then "main"
  else if k = event then "event"
  else "kind(" ++ Text.decimal 0 k.code ++ ")"

/-- A text that names no kind. -/
structure Unknown where
  text : RawText
  deriving DecidableEq, Repr

/-- The wording for a text that names no kind. -/
def Unknown.message (e : Unknown) : String :=
  "unknown script kind " ++ e.text.quote

/-- The kind with a name. -/
def parse (text : RawText) : Except Unknown Kind :=
  match named.find? fun k => RawText.ofString k.name == text with
  | some k => .ok k
  | none => .error ⟨text⟩

end Kind

/-- A string of bytecode with its position among the procedures of its kind. -/
structure Procedure where
  kind : Kind
  index : Int
  name : String
  data : List UInt8
  deriving DecidableEq, Repr

/-- The name of a procedure that was not given one.  The first two main procedures have aliases. -/
def Procedure.defaultName (kind : Kind) (index : Int) : String :=
  if kind = .main ∧ index = 0 then "main"
  else if kind = .main ∧ index = 1 then "aot"
  else if kind = .init ∧ index = 0 then "init"
  else kind.name ++ "_" ++ Text.hex 2 index

/-- The procedures of one room. -/
structure Script where
  version : Version
  procedures : List Procedure := []
  deriving DecidableEq, Repr

namespace Script

/-- The procedures of one kind, in their order. -/
def ofKind (s : Script) (kind : Kind) : List Procedure :=
  s.procedures.filter (·.kind = kind)

/-- The first procedure with a kind and an index. -/
def find? (s : Script) (kind : Kind) (index : Int) : Option Procedure :=
  s.procedures.find? fun p => p.kind = kind ∧ p.index = index

/-- The procedure that would come next in its kind. -/
def following (s : Script) (kind : Kind) (name : String) (data : List UInt8) : Procedure :=
  ⟨kind, (s.ofKind kind).length, name, data⟩

/-- Append a procedure as the next one of its kind. -/
def add (s : Script) (kind : Kind) (name : String) (data : List UInt8) : Script :=
  { s with procedures := s.procedures ++ [s.following kind name data] }

/-- The number of bytes of all procedures. -/
def size (s : Script) : Nat :=
  (s.procedures.flatMap (·.data)).length

end Script

end RoomScript
