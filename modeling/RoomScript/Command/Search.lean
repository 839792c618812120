import RoomScript.Command

/-!
# Finding a command

The first word of a command line that is neither a flag nor the value of a flag names the command.
Which words are values is judged without knowing all flags: a flag that is not known is taken for
one with a value, unless too little follows.
-/

namespace RoomScript.Command

/-- Whether a word is a flag whose value is the next word. -/
def takesNext (flags : List Flag) (word : String) : Bool :=
  match word.toList with
  | '-' :: '-' :: name =>
    !name.contains '=' && !(Flag.find? flags (String.ofList name)).any Flag.isSwitch
  | ['-', letter] =>
    letter.utf8Size == 1 && letter != '=' && !(Flag.findLetter? flags letter).any Flag.isSwitch
  | _ => false

/-- Whether a word starts with a dash. -/
def isDashed (word : String) : Bool :=
  word.toList.head? == some '-'

/-- The words that are neither flags nor values of flags, up to a double dash.  A flag with a value
ends the search when it has not at least two words behind it. -/
def plainWords (flags : List Flag) : List String → List String
  | [] => []
  | word :: rest =>
    if word = "--" then []
    else if takesNext flags word then
      match rest with
      | [] => []
      | _ :: more => if more.isEmpty then [] else plainWords flags more
    else if word ≠ "" ∧ ¬isDashed word then word :: plainWords flags rest
    else plainWords flags rest

/-- Remove the first plain word that is `name`. -/
def removeWord (flags : List Flag) (name : String) : List String → List String
  | [] => []
  | word :: rest =>
    if word = "--" then word :: rest
    else if takesNext flags word then
      match rest with
      | [] => [word]
      | value :: more => word :: value :: removeWord flags name more
    else if word = name then rest
    else word :: removeWord flags name rest

/-! ## Suggestions -/

/-- One more row of the table of distances, given the row above it, the character of the new row
and the distance to the left. -/
def distanceRow (c : UInt8) (left : Nat) : List UInt8 → List Nat → List Nat
  | d :: ds, diagonal :: above :: rest =>
    let here := if c = d then diagonal else min (min left above) diagonal + 1
    here :: distanceRow c here ds (above :: rest)
  | _, _ => []

/-- The number of bytes that have to be inserted, removed or replaced to get from one text to
another. -/
def distance (s t : String) : Nat :=
  let target := t.toUTF8.toList
  let first := List.range (target.length + 1)
  let last := s.toUTF8.toList.foldl
    (fun row c => (row.headD 0 + 1) :: distanceRow c (row.headD 0 + 1) target row) first
  last.getLastD 0

/-- Whether a command could be meant by a word: by a slip of at most two letters, or by its
beginning. -/
def isLike (word : String) (c : Command) : Bool :=
  let typed := Text.lower word
  decide (distance typed c.name ≤ 2) || typed.toList.isPrefixOf c.name.toList

/-- The commands that could be meant by a word. -/
def suggestions (word : String) : List String :=
  ((all.filter fun c => c.action ≠ .help).filter (isLike word)).map (·.name)

/-- A word that names no command. -/
structure Unknown where
  word : String
  deriving DecidableEq, Repr

/-- The wording of the error. -/
def Unknown.message (e : Unknown) : String :=
  let like := suggestions e.word
  "unknown command " ++ Text.quote e.word ++ " for " ++ Text.quote program ++
    if like.isEmpty then ""
    else "\n\nDid you mean this?\n" ++ String.join (like.map fun name => "\t" ++ name ++ "\n")

/-- The command that words name, and the words without its name. -/
def find (words : List String) : Except Unknown (Command × List String) :=
  match plainWords globalFlags words with
  | [] => .ok (root, words)
  | word :: _ =>
    match all.find? (·.name == word) with
    | some c => .ok (c, removeWord globalFlags word words)
    | none => .error ⟨word⟩

end RoomScript.Command
