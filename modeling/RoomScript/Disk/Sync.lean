import RoomScript.Disk
import RoomScript.FileTree

/-!
# Disks and file trees

A disk can be filled from the files below a directory of a file tree, and its changes can be saved
below a directory.  A change that cannot be saved stays marked as unsaved.  The directory, what it
stands in and what stands below it are free of links, since a file tree is.

* `Disk.load` fills a disk;
* `Disk.persist` saves, and `Disk.persistUnder` does so where calls on the file tree may fail and
  the changed names come in any order.
-/

namespace RoomScript.Disk

/-! ## Loading -/

/-- Why loading stops. -/
inductive LoadError where
  /-- The directory cannot be listed. -/
  | listing (fault : FileTree.Fault)
  /-- A file does not fit. -/
  | storing (e : Error)
  deriving DecidableEq, Repr

/-- The wording of a loading error. -/
def LoadError.message : LoadError → String
  | listing fault => fault.message
  | storing e => e.message

/-- The state of loading. -/
structure Loading where
  disk : Disk
  error : Option LoadError := none
  /-- Remarks on files that are passed over. -/
  remarks : List String := []

/-- The names without one of them. -/
def unmark (names : List String) (name : String) : List String :=
  names.filter (· ≠ name)

/-- Mark a name as saved. -/
def saved (d : Disk) (name : String) : Disk :=
  let unsaved := unmark d.unsaved name
  { d with unsaved, dirty := !unsaved.isEmpty }

/-- The remark on a file whose name cannot be used. -/
def skipRemark (path : String) : String :=
  "skipping " ++ path ++ ": not a valid disk name"

/-- Load one file, given by its segments below `dir`. -/
def Loading.file (dir : String) (l : Loading) (entry : List String × ByteArray) : Loading :=
  match l.error with
  | some _ => l
  | none =>
    let name := "/".intercalate entry.1
    if ¬isName name then
      let path := if entry.1.isEmpty then dir else Path.join (dir :: entry.1)
      { l with remarks := l.remarks ++ [skipRemark path] }
    else
      match l.disk.write name entry.2 with
      | .error e => { l with error := some (.storing e) }
      | .ok disk => { l with disk := disk.saved name }

/-- Fill a disk with files found below a directory, all there are or those found before a fault.
Files whose names are not valid on a disk are passed over.  Files loaded before an error stay. -/
def loadFiles (d : Disk) (dir : String) (files : List (List String × ByteArray))
    (fault : Option FileTree.Fault) : Loading :=
  let l := files.foldl (Loading.file dir) { disk := d }
  { l with error := l.error.or (fault.map .listing) }

/-- Fill a disk with the files below a directory.  A directory that does not exist has no files. -/
def load (d : Disk) (t : FileTree) (dir : String) : Loading :=
  match t.walk dir with
  | .error fault => d.loadFiles dir [] (if fault.reason = .noEntry then none else some fault)
  | .ok files => d.loadFiles dir files none

/-! ## Saving -/

/-- The calls on a file tree that saving makes. -/
structure Host where
  makeDirs : FileTree → String → Option FileTree.Fault × FileTree := FileTree.makeDirs
  write : FileTree → String → ByteArray → Except FileTree.Fault FileTree := FileTree.write
  remove : FileTree → String → Except FileTree.Fault FileTree := FileTree.remove

/-- How one save goes: what becomes of its calls, and in which order it takes the names that have
changed.  Unless said otherwise every call goes to the file tree, and the names come in order. -/
structure Conditions where
  /-- The host that makes the directory itself. -/
  directory : Host := {}
  /-- The host for what is saved under a name. -/
  host : String → Host := fun _ => {}
  order : List String → List String := sorted
  perm : ∀ names, (order names).Perm names := by exact fun names => List.mergeSort_perm names _

/-- The state of saving. -/
structure Saving where
  disk : Disk
  tree : FileTree
  /-- The first fault. -/
  fault : Option FileTree.Fault := none

namespace Saving

/-- Note that a name could not be saved. -/
def fail (s : Saving) (name : String) (fault : FileTree.Fault) : Saving :=
  { s with
    disk := { s.disk with unsaved := mark s.disk.unsaved name, dirty := true }
    fault := s.fault.or (some fault) }

/-- Remove the saved copy of a file that was deleted.  One that is not there need not be removed. -/
def removeOne (s : Saving) (host : Host) (dir name : String) : Saving :=
  match host.remove s.tree (Path.join [dir, name]) with
  | .ok tree => { s with tree }
  | .error fault => if fault.reason = .noEntry then s else s.fail name fault

/-- Save the content of a file. -/
def writeOne (s : Saving) (host : Host) (dir : String) (entry : String × ByteArray) : Saving :=
  let target := Path.join [dir, entry.1]
  match host.makeDirs s.tree (Path.dir target) with
  | (some fault, tree) => { s with tree }.fail entry.1 fault
  | (none, tree) =>
    match host.write tree target entry.2 with
    | .ok tree => { s with tree }
    | .error fault => { s with tree }.fail entry.1 fault

end Saving

/-- Why saving fails as a whole, or at its first file. -/
inductive SaveError where
  /-- The directory itself cannot be made. -/
  | creating (dir : String) (fault : FileTree.Fault)
  | saving (fault : FileTree.Fault)
  deriving DecidableEq, Repr

/-- The wording of a saving error. -/
def SaveError.message : SaveError → String
  | creating dir fault => "creating " ++ dir ++ ": " ++ fault.message
  | saving fault => fault.message

/-- Save all changes below a directory, deletions first.  The first fault is returned; the names
that could not be saved stay unsaved. -/
def persistUnder (d : Disk) (c : Conditions) (t : FileTree) (dir : String) :
    Option SaveError × Disk × FileTree :=
  match c.directory.makeDirs t dir with
  | (some fault, tree) => (some (.creating dir fault), d, tree)
  | (none, tree) =>
    let changed := c.order d.unsaved
    let deleted := changed.filter (! d.contains ·)
    let written := changed.filterMap fun name => (d.find? name).map (name, ·)
    let start : Saving := { disk := { d with unsaved := [], dirty := false }, tree }
    let s := written.foldl (fun s entry => s.writeOne (c.host entry.1) dir entry)
      (deleted.foldl (fun s name => s.removeOne (c.host name) dir name) start)
    (s.fault.map .saving, s.disk, s.tree)

/-- Save all changes below a directory of a file tree. -/
def persist (d : Disk) (t : FileTree) (dir : String) : Option SaveError × Disk × FileTree :=
  d.persistUnder {} t dir

end RoomScript.Disk
