import RoomScript.Diagnostic
import RoomScript.FileTree
import RoomScript.Log
import RoomScript.Timestamp

/-!
# Sessions

A command reads and changes a file tree, prints text and writes log entries.  A session is all of
that at one moment.
-/

namespace RoomScript

/-- What a command works on. -/
structure Session where
  tree : FileTree
  /-- The time that new bundles carry. -/
  now : Timestamp := {}
  /-- The text printed so far. -/
  out : String := ""
  /-- The log entries so far, those that are not shown included. -/
  log : List Log.Entry := []

namespace Session

/-- Print a text. -/
def print (s : Session) (text : String) : Session :=
  { s with out := s.out ++ text }

/-- Write log entries of one level. -/
def note (s : Session) (level : Log.Level) (texts : List String) : Session :=
  { s with log := s.log ++ Log.entries level texts }

/-- Write every diagnostic to the log. -/
def report (s : Session) (diagnostics : List Diagnostic) : Session :=
  s.note .error (diagnostics.map (·.text))

/-- The absolute form of a path. -/
def absolute (s : Session) (path : String) : String :=
  Path.absolute ("/" ++ "/".intercalate s.tree.workingDir) path

/-- A file that could not be written. -/
structure WriteError where
  path : String
  fault : FileTree.Fault
  deriving DecidableEq, Repr

/-- The wording of the error. -/
def WriteError.message (e : WriteError) : String :=
  "writing " ++ e.path ++ ": " ++ e.fault.message

/-- Write a file. -/
def writeFile (s : Session) (path : String) (data : ByteArray) : Except WriteError Session :=
  match s.tree.write path data with
  | .ok tree => .ok { s with tree }
  | .error fault => .error ⟨path, fault⟩

/-- Write a text to a file, or print it when the path is empty or a dash. -/
def output (s : Session) (path text : String) : Except WriteError Session :=
  if path = "" ∨ path = "-" then .ok (s.print text) else s.writeFile path text.toUTF8

end Session

end RoomScript
