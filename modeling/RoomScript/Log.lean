import RoomScript.Text.Character
import RoomScript.Text.Quoted

/-!
# Log entries

An entry of the log has a level.  A log shows the entries at or above the level it is set to.
-/

namespace RoomScript.Log

/-- How grave an entry is, the gravest first. -/
inductive Level where
  | panic
  | fatal
  | error
  | warning
  | info
  | debug
  | trace
  deriving DecidableEq, Repr

namespace Level

/-- The place of a level among all. -/
def rank : Level → Nat
  | panic => 0
  | fatal => 1
  | error => 2
  | warning => 3
  | info => 4
  | debug => 5
  | trace => 6

/-- The name of a level. -/
def name : Level → String
  | panic => "panic"
  | fatal => "fatal"
  | error => "error"
  | warning => "warning"
  | info => "info"
  | debug => "debug"
  | trace => "trace"

/-- Whether a log set to this level shows entries of another one. -/
def shows (level other : Level) : Bool :=
  other.rank ≤ level.rank

/-- Why a text is no level. -/
structure Unknown where
  text : String
  deriving DecidableEq, Repr

/-- The wording of the error. -/
def Unknown.message (e : Unknown) : String :=
  "not a valid logrus Level: " ++ Text.quote e.text

/-- The level with a name, in any letter case. -/
def parse (text : String) : Except Unknown Level :=
  match Text.lower text with
  | "panic" => .ok panic
  | "fatal" => .ok fatal
  | "error" => .ok error
  | "warn" | "warning" => .ok warning
  | "info" => .ok info
  | "debug" => .ok debug
  | "trace" => .ok trace
  | _ => .error ⟨text⟩

end Level

/-- An entry of the log. -/
structure Entry where
  level : Level
  text : String
  deriving DecidableEq, Repr

/-- Entries of one level. -/
def entries (level : Level) (texts : List String) : List Entry :=
  texts.map fun text => ⟨level, text⟩

end RoomScript.Log
