/-!
# Nesting of blocks

Listings indent the statements inside of blocks.  Which mnemonics open and close blocks is fixed; a
closing one with nothing to close changes nothing.

* `Nesting.before` closes blocks and gives the depth a mnemonic stands at;
* `Nesting.after` opens blocks;
* the instructions of a condition hang under the instruction that starts it.
-/

namespace RoomScript.Listing

/-- Mnemonics that open a block. -/
def blockOpeners : List String :=
  ["if", "for", "for2", "while", "do", "switch"]

/-- Mnemonics that close a block. -/
def blockClosers : List String :=
  ["endif", "next", "ewhile", "edwhile"]

/-- Mnemonics that a condition may follow. -/
def conditionStarters : List String :=
  ["if", "while", "edwhile"]

/-- A label within a switch. -/
def isLabel (mnemonic : String) : Bool :=
  mnemonic == "case" || mnemonic == "default"

/-- The open blocks at a place of a procedure. -/
structure Nesting where
  /-- The mnemonics that opened them, innermost first. -/
  opened : List String := []
  /-- The depth of the instruction that started the condition which is still going on. -/
  condition : Option Nat := none
  deriving DecidableEq, Repr

namespace Nesting

/-- The number of open blocks. -/
def depth (n : Nesting) : Nat :=
  n.opened.length

/-- Close the innermost block. -/
def pop (n : Nesting) : Nesting :=
  { n with opened := n.opened.tail }

/-- Close the label of a switch, if one is open. -/
def popLabel (n : Nesting) : Nesting :=
  if n.opened.head?.any isLabel then n.pop else n

/-- The nesting at which a mnemonic stands. -/
def before (n : Nesting) (mnemonic : String) : Nesting :=
  if mnemonic ∈ blockClosers then n.pop
  else if mnemonic = "else" then n.pop
  else if isLabel mnemonic then n.popLabel
  else if mnemonic = "eswitch" then n.popLabel.pop
  else n

/-- The nesting after a mnemonic.  `isCondition` tells whether its instruction can be part of a
condition. -/
def after (n : Nesting) (mnemonic : String) (isCondition : Bool) : Nesting :=
  { opened :=
      if mnemonic ∈ blockOpeners || mnemonic == "else" || isLabel mnemonic then
        mnemonic :: n.opened
      else n.opened
    condition :=
      if mnemonic ∈ conditionStarters then some n.depth
      else if isCondition then n.condition
      else none }

end Nesting

end RoomScript.Listing
