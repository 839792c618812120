import RoomScript.Library
import RoomScript.Path
import RoomScript.Text.Quoted

/-!
# Disks in memory

A disk maps names to contents.  It has a quota, and it remembers which names have changed since they
were last saved.  A name is a sequence of segments separated by slashes; a segment starts with a
letter, a digit or an underscore, so no name leaves the disk.

* `Disk.write`, `Disk.read` and `Disk.delete` fail without changing anything;
* `Disk.library` lets sources be read from a disk.
-/

namespace RoomScript

/-! ## Names -/

namespace Disk

/-- A character a segment may start with. -/
def isSegmentStart (c : Char) : Bool :=
  c.isAlphanum || c == '_'

/-- A character a segment may go on with. -/
def isSegmentPart (c : Char) : Bool :=
  isSegmentStart c || c == '.' || c == '-'

/-- A segment of a name. -/
def isSegment (segment : String) : Bool :=
  match segment.toList with
  | [] => false
  | c :: rest => isSegmentStart c && rest.all isSegmentPart

/-- A name under which a file can be stored. -/
def isName (name : String) : Bool :=
  (Path.pieces name).all isSegment

/-- Why an operation on a disk fails. -/
inductive Error where
  | invalidName (name : String)
  | notFound (name : String)
  | quotaExceeded (name : String)
  deriving DecidableEq, Repr

/-- The wording of an error. -/
def Error.message : Error → String
  | invalidName name => name ++ ": invalid filename"
  | notFound name => name ++ ": file not found"
  | quotaExceeded name => name ++ ": disk quota exceeded"

/-- How many bytes all files of a disk may have together. -/
def quota : Nat := 64 * 1024 * 1024

end Disk

/-! ## The disk -/

/-- Files in memory. -/
structure Disk where
  /-- Names and contents, each name once. -/
  files : List (String × ByteArray) := []
  /-- The names that have changed since they were last saved. -/
  unsaved : List String := []
  /-- How many bytes all files have together. -/
  used : Nat := 0
  /-- Whether any name has changed since it was last saved. -/
  dirty : Bool := false

namespace Disk

/-- The content of a file. -/
def find? (d : Disk) (name : String) : Option ByteArray :=
  d.files.lookup name

/-- Whether a name is present. -/
def contains (d : Disk) (name : String) : Bool :=
  (d.find? name).isSome

/-- The size of a file, zero when it is not there. -/
def sizeOf (d : Disk) (name : String) : Nat :=
  ((d.find? name).map (·.size)).getD 0

/-- A name list with one name in it. -/
def mark (names : List String) (name : String) : List String :=
  if name ∈ names then names else names ++ [name]

/-- A file list with the content of one name replaced or added. -/
def put : List (String × ByteArray) → String → ByteArray → List (String × ByteArray)
  | [], name, data => [(name, data)]
  | (n, d) :: rest, name, data =>
    if n = name then (n, data) :: rest else (n, d) :: put rest name data

/-- Store content under a name. -/
def write (d : Disk) (name : String) (data : ByteArray) : Except Error Disk :=
  if ¬isName name then .error (.invalidName name)
  else
    let used := d.used - d.sizeOf name + data.size
    if used > quota then .error (.quotaExceeded name)
    else
      .ok { files := put d.files name data, unsaved := mark d.unsaved name, used, dirty := true }

/-- The content stored under a name. -/
def read (d : Disk) (name : String) : Except Error ByteArray :=
  if ¬isName name then .error (.invalidName name)
  else
    match d.find? name with
    | some data => .ok data
    | none => .error (.notFound name)

/-- Remove a file. -/
def delete (d : Disk) (name : String) : Except Error Disk :=
  if ¬isName name then .error (.invalidName name)
  else
    match d.find? name with
    | none => .error (.notFound name)
    | some data =>
      .ok { files := d.files.filter (·.1 ≠ name), unsaved := mark d.unsaved name,
            used := d.used - data.size, dirty := true }

/-- Order texts by their characters. -/
def sorted (names : List String) : List String :=
  names.mergeSort fun a b => !(decide (b < a))

/-- All names in order. -/
def names (d : Disk) : List String :=
  sorted (d.files.map (·.1))

/-- The path without one slash in front. -/
def dropSlash (path : String) : String :=
  match path.toList with
  | '/' :: rest => String.ofList rest
  | _ => path

/-- A path is looked for beside the including file first and from the root of the disk then. -/
def resolve (d : Disk) (current quoted : String) : Resolution :=
  let quoted := dropSlash quoted
  let beside := Path.join [Path.dir current, quoted]
  let fromRoot := Path.clean quoted
  if d.contains beside then ⟨beside, none⟩
  else if d.contains fromRoot then
    ⟨fromRoot, some ("resolved include " ++ Text.quote quoted ++ " from disk root")⟩
  else ⟨beside, none⟩

theorem mem_of_read_ok {d : Disk} {name : String} {data : ByteArray} (h : d.read name = .ok data) :
    (name, data) ∈ d.files := by
  unfold read at h
  split at h
  · simp at h
  · split at h
    · rename_i found
      injection h with h
      subst h
      unfold find? at found
      rw [List.lookup_eq_some_iff] at found
      obtain ⟨before, after, h, -⟩ := found
      rw [h]
      simp
    · simp at h

/-- Read sources from a disk. -/
def library (d : Disk) : Library where
  read path :=
    match d.read path with
    | .ok data => .ok data
    | .error e => .error e.message
  resolve := d.resolve
  finite := by
    refine ⟨d.files.map (·.1), fun path data h => ?_⟩
    split at h
    · rename_i found
      exact List.mem_map.2 ⟨_, mem_of_read_ok found, rfl⟩
    · simp at h

end Disk

end RoomScript
