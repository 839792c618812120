import RoomScript.Command.Run
import Std.Time.DateTime.Timestamp

/-!
# The program

The program takes the files it may need as they are when it starts, runs the command line on them,
and then carries out what has changed.
-/

namespace RoomScript.Main

/-! ## Taking files -/

/-- How many directories below one another are taken. -/
def depth : Nat := 12

/-- The place of an absolute path. -/
def placeOf (path : String) : List String :=
  Path.reducedSegments path

/-- The names in a directory. -/
def namesIn (path : String) : IO (List String) := do
  let entries ← ((← IO.currentDir) / path).readDir
  return entries.toList.map (·.fileName)

/-- Whether a path leads to a directory. -/
def isDirectory (path : String) : IO Bool := do
  ((← IO.currentDir) / path).isDir

/-- Take what stands at a path and, so many levels deep, below it. -/
def take (path : String) (t : FileTree) : Nat → IO FileTree
  | 0 => return t
  | levels + 1 => do
    if ← isDirectory path then
      let t := t.set (placeOf path) .directory
      (← namesIn path).foldlM (fun t name => take (path ++ "/" ++ name) t levels) t
    else
      try
        return t.set (placeOf path) (.file (← IO.FS.readBinFile path))
      catch _ => return t

/-- Enter the directories that lead to a place. -/
def withParents (t : FileTree) (place : List String) : FileTree :=
  (List.range place.length).foldl (fun t n => t.set (place.take (n + 1)) .directory) t

/-- The directories that words of a command line lead to, besides the working directory. -/
def directoriesOf (workingDir : String) (words : List String) : List String :=
  let parts := words.flatMap fun word => (word.splitOn "=").flatMap (·.splitOn ",")
  let paths := (parts.filter (·.toList.contains '/')).map (Path.absolute workingDir)
  ((paths.map Path.dir).filter fun dir =>
    dir != "/" && !(placeOf workingDir).isPrefixOf (placeOf dir)).eraseDups

/-- The files that a command line may need. -/
def snapshot (words : List String) : IO FileTree := do
  let workingDir := toString (← IO.currentDir)
  let start : FileTree := { workingDir := placeOf workingDir }
  let dirs := workingDir :: directoriesOf workingDir words
  dirs.foldlM (fun t dir => take dir (withParents t (placeOf dir)) depth) start

/-! ## Carrying out changes -/

/-- The path of a place. -/
def pathOf (place : List String) : String :=
  "/" ++ "/".intercalate place

/-- Whether two nodes are the same. -/
def isSame : FileNode → FileNode → Bool
  | .file a, .file b => a.data == b.data
  | .directory, .directory => true
  | _, _ => false

/-- Write what is new or has changed. -/
def writeNew (old new : FileTree) : IO Unit :=
  new.nodes.forM fun (place, node) => do
    if !(old.node? place).any (isSame node) then
      match node with
      | .directory => IO.FS.createDirAll (pathOf place)
      | .file data => IO.FS.writeBinFile (pathOf place) data

/-- Remove what is no longer there. -/
def removeOld (old new : FileTree) : IO Unit :=
  old.nodes.reverse.forM fun (place, node) => do
    if (new.node? place).isNone then
      match node with
      | .directory => IO.FS.removeDir (pathOf place)
      | .file _ => IO.FS.removeFile (pathOf place)

/-- A log entry on one line. -/
def logLine (e : Log.Entry) : String :=
  "level=" ++ e.level.name ++ " msg=" ++ Text.quote e.text

/-- The present moment. -/
def now : IO Timestamp := do
  let t ← Std.Time.Timestamp.now
  return Timestamp.ofNanoseconds t.toNanosecondsSinceUnixEpoch.val.toNat

/-- Run a command line.  The answer is 1 when it fails. -/
def run (words : List String) : IO UInt32 := do
  let tree ← snapshot words
  let outcome := Command.run words { tree, now := ← now }
  removeOld tree outcome.session.tree
  writeNew tree outcome.session.tree
  IO.print outcome.session.out
  outcome.shownLog.forM fun e => IO.eprintln (logLine e)
  match outcome.error with
  | none => return 0
  | some e =>
    IO.eprintln (logLine ⟨.error, e.message⟩)
    return 1

end RoomScript.Main

/-- The program. -/
def main (words : List String) : IO UInt32 :=
  RoomScript.Main.run words
