import RoomScript.Text.Character
import RoomScript.Text.Raw

/-!
# Engine versions

A script targets one engine version.  Any number can stand in a script; three of them have names,
and one of them has an opcode table.
-/

namespace RoomScript

/-- The engine a script targets. -/
structure Version where
  number : Int
  deriving DecidableEq, Repr

namespace Version

def bio1 : Version := ⟨1⟩
def bio2 : Version := ⟨2⟩
def bio3 : Version := ⟨3⟩

/-- The name of a version. -/
def name (v : Version) : String :=
  if v = bio1 then "bio1"
  else if v = bio2 then "bio2"
  else if v = bio3 then "bio3"
  else "version(" ++ Text.decimal 0 v.number ++ ")"

/-- Why a version is not usable. -/
inductive Error where
  | unknown (text : RawText)
  | noTable (version : Version)
  deriving DecidableEq, Repr

/-- The wording of a version error. -/
def Error.message : Error → String
  | unknown text => "unknown engine version " ++ text.quote
  | noTable version => "no opcode table for " ++ version.name

/-- Read a version from its name, the name of the game or the bare number, in any letter case and
with blanks around it. -/
def parse (text : RawText) : Except Error Version :=
  match Text.lower (Text.trim text.text) with
  | "1" | "bio1" | "re1" => .ok bio1
  | "2" | "bio2" | "re2" => .ok bio2
  | "3" | "bio3" | "re3" => .ok bio3
  | _ => .error (.unknown text)

/-- The version itself when there is an opcode table for it. -/
def withTable (v : Version) : Except Error Version :=
  if v = bio2 then .ok v else .error (.noTable v)

end Version

end RoomScript
