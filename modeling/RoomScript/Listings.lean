import RoomScript.Disk.Sync
import RoomScript.Path

/-!
# Kept listings

The listings of a run are collected on a disk, on top of what the directory for them holds already,
so that a listing which has not changed is not written again.
-/

namespace RoomScript

/-- The listings of a run. -/
structure Listings where
  disk : Disk
  /-- The names of the listings of this run. -/
  written : List String := []

namespace Listings

/-- The extension of listings. -/
def extension : String := ".s"

/-- The name of the listing of a script file. -/
def nameOf (file : String) : String :=
  Path.base (Path.output file "" extension)

/-- The remark on a listing that has not changed. -/
def unchangedRemark (name : String) : String :=
  "listing " ++ name ++ " is unchanged"

/-- Keep a listing, unless it is there already. -/
def put (l : Listings) (name text : String) : Except Disk.Error Listings × List String :=
  let written := if name ∈ l.written then l.written else l.written ++ [name]
  if (l.disk.find? name).any fun old => old.data == text.toUTF8.data then
    (.ok { l with written }, [unchangedRemark name])
  else
    match l.disk.write name text.toUTF8 with
    | .ok disk => (.ok { disk, written }, [])
    | .error e => (.error e, [])

/-- Whether a file of the disk is a listing that this run has not written. -/
def isStale (l : Listings) (name : String) : Bool :=
  !l.written.contains name && !name.toList.contains '/' && name.endsWith extension

/-- The listings that this run has not written. -/
def stale (l : Listings) : List String :=
  l.disk.names.filter l.isStale

/-- The remark on a listing that is removed. -/
def staleRemark (name : String) : String :=
  "removing stale listing " ++ name

/-- Remove the listings that this run has not written.  Other files stay. -/
def prune (l : Listings) : Except Disk.Error Listings :=
  match l.stale.foldlM Disk.delete l.disk with
  | .ok disk => .ok { l with disk }
  | .error e => .error e

end Listings

end RoomScript
