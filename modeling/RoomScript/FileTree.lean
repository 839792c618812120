import RoomScript.Path

/-!
# File trees

A file tree is a set of files and directories below one root, with a working directory that relative
paths start from.  A path is followed segment by segment, so every directory on the way has to
exist, also one that a later `..` leaves again.

There are no links in a file tree, neither symbolic ones nor second names of a file: everything
stands at one place, and `..` leads back to the directory that a path has come from.  What is said
about trees is said about systems without links on the paths in use and below the directories in
use.

* `FileTree.follow` says what a path leads to;
* `FileTree.read`, `write`, `makeDir`, `makeDirs`, `remove` are the operations on files, each
  failing with a `Fault`;
* `FileTree.walk` lists everything below a directory in order.
-/

namespace RoomScript

/-- What stands at a place of a file tree. -/
inductive FileNode where
  | file (data : ByteArray)
  | directory

/-- Files and directories below one root, without links.  Places are lists of segments from the
root. -/
structure FileTree where
  nodes : List (List String × FileNode) := []
  workingDir : List String := []

namespace FileTree

/-! ## Faults -/

/-- Why an operation on a file tree fails. -/
inductive Reason where
  | noEntry
  | notDirectory
  | isDirectory
  | notEmpty
  | present
  | nameTooLong
  | invalid
  deriving DecidableEq, Repr

/-- The wording of a reason. -/
def Reason.text : Reason → String
  | noEntry => "no such file or directory"
  | notDirectory => "not a directory"
  | isDirectory => "is a directory"
  | notEmpty => "directory not empty"
  | present => "file exists"
  | nameTooLong => "file name too long"
  | invalid => "invalid argument"

/-- An operation that failed on a path. -/
structure Fault where
  operation : String
  path : String
  reason : Reason
  deriving DecidableEq, Repr

/-- The wording of a fault. -/
def Fault.message (f : Fault) : String :=
  f.operation ++ " " ++ f.path ++ ": " ++ f.reason.text

/-! ## Places -/

/-- What stands at a place. -/
def node? (t : FileTree) (place : List String) : Option FileNode :=
  if place.isEmpty then some .directory else t.nodes.lookup place

/-- Put a node at a place. -/
def set (t : FileTree) (place : List String) (node : FileNode) : FileTree :=
  if (t.nodes.lookup place).isSome then
    { t with nodes := t.nodes.map fun e => if e.1 = place then (place, node) else e }
  else { t with nodes := t.nodes ++ [(place, node)] }

/-- Remove what stands at a place. -/
def erase (t : FileTree) (place : List String) : FileTree :=
  { t with nodes := t.nodes.filter (·.1 ≠ place) }

/-- Whether nothing stands directly below a place. -/
def isEmptyAt (t : FileTree) (place : List String) : Bool :=
  t.nodes.all fun e => e.1.dropLast != place || e.1.isEmpty

/-! ## Following a path -/

/-- The longest segment and the longest path a tree takes, in bytes. -/
def maxSegment : Nat := 255
def maxPath : Nat := 4095

/-- Where a path leads. -/
inductive Target where
  /-- Something stands there. -/
  | found (place : List String) (node : FileNode)
  /-- Nothing stands there, in a directory that does exist.  `asDirectory` tells whether the path
  ends with a slash. -/
  | absent (place : List String) (asDirectory : Bool)
  /-- The path ends with a slash behind what cannot be a directory: a file, or a segment that is too
  long. -/
  | barred (reason : Reason)

/-- Follow segments from a place where `node` stands. -/
def followFrom (t : FileTree) (place : List String) (node : FileNode) :
    List String → Except Reason Target
  | [] => .ok (.found place node)
  | segment :: rest =>
    match node with
    | .file _ =>
      if segment == "" && rest.all (· == "") then .ok (.barred .notDirectory)
      else .error .notDirectory
    | .directory =>
      if segment == "" || segment == "." then followFrom t place node rest
      else if segment == ".." then followFrom t place.dropLast .directory rest
      else if segment.utf8ByteSize > maxSegment then
        if !rest.isEmpty && rest.all (· == "") then .ok (.barred .nameTooLong)
        else .error .nameTooLong
      else
        match t.node? (place ++ [segment]) with
        | some next => followFrom t (place ++ [segment]) next rest
        | none =>
          if rest.all (· == "") then .ok (.absent (place ++ [segment]) !rest.isEmpty)
          else .error .noEntry

/-- What a path leads to. -/
def follow (t : FileTree) (path : String) : Except Reason Target :=
  if path.toList.contains '\x00' then .error .invalid
  else if path == "" then .error .noEntry
  else if path.utf8ByteSize > maxPath then .error .nameTooLong
  else t.followFrom (if Path.isAbsolute path then [] else t.workingDir) .directory (Path.pieces path)

/-- What stands at the end of a path. -/
def stat (t : FileTree) (path : String) : Except Reason FileNode :=
  match t.follow path with
  | .ok (.found _ node) => .ok node
  | .ok (.absent ..) => .error .noEntry
  | .ok (.barred reason) | .error reason => .error reason

/-- Whether a path leads to anything. -/
def contains (t : FileTree) (path : String) : Bool :=
  (t.stat path).isOk

/-! ## Operations -/

/-- The content of a file. -/
def read (t : FileTree) (path : String) : Except Fault ByteArray :=
  match t.stat path with
  | .ok (.file data) => .ok data
  | .ok .directory => .error ⟨"read", path, .isDirectory⟩
  | .error reason => .error ⟨"open", path, reason⟩

/-- Replace the content of a file, or make a new one. -/
def write (t : FileTree) (path : String) (data : ByteArray) : Except Fault FileTree :=
  match t.follow path with
  | .ok (.found place (.file _)) => .ok (t.set place (.file data))
  | .ok (.found _ .directory) => .error ⟨"open", path, .isDirectory⟩
  | .ok (.absent place false) => .ok (t.set place (.file data))
  | .ok (.absent _ true) | .ok (.barred _) => .error ⟨"open", path, .isDirectory⟩
  | .error reason => .error ⟨"open", path, reason⟩

/-- Make a directory. -/
def makeDir (t : FileTree) (path : String) : Except Fault FileTree :=
  match t.follow path with
  | .ok (.found ..) => .error ⟨"mkdir", path, .present⟩
  | .ok (.absent place _) => .ok (t.set place .directory)
  | .ok (.barred .notDirectory) => .error ⟨"mkdir", path, .present⟩
  | .ok (.barred reason) | .error reason => .error ⟨"mkdir", path, reason⟩

/-- The part of a path before its last segment and the slash in front of that. -/
def parentPart (path : List Char) : List Char :=
  ((path.reverse.dropWhile (· == '/')).dropWhile (· != '/')).tail.reverse

theorem length_parentPart (path : List Char) (h : path ≠ []) :
    (parentPart path).length < path.length := by
  unfold parentPart
  have first := (List.dropWhile_suffix (l := path.reverse) (· == '/')).length_le
  have second :=
    (List.dropWhile_suffix (l := path.reverse.dropWhile (· == '/')) (· != '/')).length_le
  have pos := List.length_pos_iff.2 h
  simp only [List.length_reverse, List.length_tail] at first second ⊢
  omega

/-- Make a directory and those above it that are missing.  Directories that were made before a fault
stay. -/
def makeDirsFrom (t : FileTree) (path : List Char) : Option Fault × FileTree :=
  match t.stat (String.ofList path) with
  | .ok .directory => (none, t)
  | .ok (.file _) => (some ⟨"mkdir", String.ofList path, .notDirectory⟩, t)
  | .error _ =>
    let (failed, t) : Option Fault × FileTree :=
      if _h : parentPart path = [] then (none, t) else t.makeDirsFrom (parentPart path)
    match failed with
    | some fault => (some fault, t)
    | none =>
      match t.makeDir (String.ofList path), t.stat (String.ofList path) with
      | .ok t, _ => (none, t)
      | .error _, .ok .directory => (none, t)
      | .error fault, _ => (some fault, t)
termination_by path.length
decreasing_by
  apply length_parentPart
  intro h
  simp [h, parentPart] at _h

/-- Make a directory and those above it that are missing. -/
def makeDirs (t : FileTree) (path : String) : Option Fault × FileTree :=
  t.makeDirsFrom path.toList

/-- Remove a file or an empty directory. -/
def remove (t : FileTree) (path : String) : Except Fault FileTree :=
  match t.follow path with
  | .ok (.found place (.file _)) => .ok (t.erase place)
  | .ok (.found place .directory) =>
    if t.isEmptyAt place then .ok (t.erase place) else .error ⟨"remove", path, .notEmpty⟩
  | .ok (.absent ..) => .error ⟨"remove", path, .noEntry⟩
  | .ok (.barred reason) | .error reason => .error ⟨"remove", path, reason⟩

/-! ## Listing -/

/-- Order of places: segment by segment. -/
def placeLE : List String → List String → Bool
  | [], _ => true
  | _ :: _, [] => false
  | a :: as, b :: bs => if a = b then placeLE as bs else decide (a < b)

/-- The files below a place with their segments from there, directory by directory in the order of
names. -/
def filesBelow (t : FileTree) (place : List String) : List (List String × ByteArray) :=
  (t.nodes.filterMap fun e =>
    match e.2 with
    | .file data => if place.isPrefixOf e.1 then some (e.1.drop place.length, data) else none
    | .directory => none).mergeSort fun a b => placeLE a.1 b.1

/-- What a path leads to, for listing it: the files below a directory, or the file itself with no
segments.  Listing would not go through a link at the end of a path, as reading and writing would;
a tree has none, so it follows a path like them. -/
def walk (t : FileTree) (path : String) : Except Fault (List (List String × ByteArray)) :=
  match t.follow path with
  | .ok (.found place _) => .ok (t.filesBelow place)
  | .ok (.absent ..) => .error ⟨"lstat", path, .noEntry⟩
  | .ok (.barred reason) | .error reason => .error ⟨"lstat", path, reason⟩

end FileTree

end RoomScript
