import RoomScript.Bundle
import RoomScript.Chunk

/-!
# Script files

A script file is a bundle, or a raw chunk whose procedures all have one kind.  Which of the two it
is shows in its first bytes.
-/

namespace RoomScript.ScriptFile

/-- Why a script file cannot be used. -/
inductive Error where
  | reading (path : String) (fault : FileTree.Fault)
  | decoding (path : String) (e : Bundle.Error)
  | splitting (path : String) (e : Chunk.Error)
  /-- A bundle for another engine than the selected one. -/
  | otherEngine (path : String) (found selected : Version)

/-- The wording of an error. -/
def Error.message : Error → String
  | reading path fault => "reading " ++ path ++ ": " ++ fault.message
  | decoding path e => "decoding " ++ path ++ ": " ++ e.message
  | splitting path e => "splitting " ++ path ++ ": " ++ e.message
  | otherEngine path found selected =>
    path ++ " targets " ++ found.name ++ " but the selected engine is " ++ selected.name

/-- The script of procedures of one kind, with the names that such procedures have. -/
def ofProcedures (version : Version) (kind : Kind) (procedures : List (List UInt8)) : Script :=
  procedures.foldl
    (fun s data => s.add kind (Procedure.defaultName kind (s.ofKind kind).length) data) { version }

/-- The remark on a raw chunk that has been read. -/
def chunkRemark (path : String) (kind : Kind) (count : Nat) : String :=
  "read " ++ toString count ++ " " ++ kind.name ++ " procedures from raw chunk " ++ path

/-- The script in the bytes of a file and a remark on reading it. -/
def ofBytes (path : String) (selected : Version) (kind : Kind) (data : ByteArray) :
    Except Error Script × List String :=
  if Bundle.isBundle (data.extract 0 4).toList then
    match Bundle.decode data with
    | .error e => (.error (.decoding path e), [])
    | .ok (s, _) =>
      (if s.version = selected then .ok s else .error (.otherEngine path s.version selected),
        [Bundle.decodeRemark s])
  else
    match Chunk.split data.toList with
    | .error e => (.error (.splitting path e), [])
    | .ok procedures =>
      (.ok (ofProcedures selected kind procedures), [chunkRemark path kind procedures.length])

/-- Read a script file. -/
def load (t : FileTree) (path : String) (selected : Version) (kind : Kind) :
    Except Error Script × List String :=
  match t.read path with
  | .error fault => (.error (.reading path fault), [])
  | .ok data => ofBytes path selected kind data

end RoomScript.ScriptFile
