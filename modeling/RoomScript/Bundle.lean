import RoomScript.Archive
import RoomScript.Bundle.Manifest
import RoomScript.FileTree
import RoomScript.Script

/-!
# Bundles

A bundle is an archive with a manifest and one member for the bytes of each procedure.

* `Bundle.Codec` holds the formats that a bundle is written and read in;
* `Bundle.manifest` and `Bundle.members` say what stands in the bundle of a script, and
  `Bundle.encode` makes the archive;
* `Bundle.script` puts a script together from a manifest and the members it names;
* `Bundle.decode` does so for the bytes of an archive.
-/

namespace RoomScript.Bundle

/-- The member with the manifest. -/
def manifestName : String := "manifest.json"

/-- The format number of manifests. -/
def formatVersion : Int := 1

/-- The file extension of bundles. -/
def extension : String := ".scdz"

/-- Whether bytes start like an archive. -/
def isBundle (data : List UInt8) : Bool :=
  [0x50, 0x4B, 3, 4].isPrefixOf data

/-! ## Codecs -/

/-- The formats of a bundle: that of the archive, and that of the manifest in it.  Those that are
not given store members as they are and write manifests as JSON. -/
structure Codec where
  /-- The bytes of an archive with the given members. -/
  pack : List (String × ByteArray) → ByteArray := Archive.write
  /-- The members of an archive in the order of its directory. -/
  directory : ByteArray → Except Archive.Error (List Archive.Entry) := Archive.directory
  /-- The content of a member. -/
  content : ByteArray → Archive.Entry → Except Archive.ReadError ByteArray := Archive.Entry.read
  /-- The text of a manifest. -/
  text : Manifest → ByteArray := fun m => m.text.toUTF8
  /-- The manifest that a text stands for, if there is one. -/
  parse? : ByteArray → Option Manifest := fun data => Manifest.parse? data.toList

/-! ## Packing -/

/-- The member for the bytes of a procedure. -/
def memberName (p : Procedure) : String :=
  p.kind.name ++ "/" ++ Text.decimal 2 p.index ++ ".bin"

/-- The manifest of a script. -/
def manifest (s : Script) (source : String) (created : Timestamp) : Manifest :=
  { format := formatVersion, engine := s.version.name, source, created
    entries := s.procedures.map fun p =>
      { kind := p.kind.name, index := p.index, name := p.name, file := memberName p,
        size := p.data.length } }

/-- The members of the bundle of a script. -/
def members (s : Script) (source : String) (created : Timestamp) (c : Codec := {}) :
    List (String × ByteArray) :=
  (manifestName, c.text (manifest s source created)) ::
    s.procedures.map fun p => (memberName p, p.data.toByteArray)

/-- The bytes of the bundle of a script. -/
def encode (s : Script) (source : String) (created : Timestamp) (c : Codec := {}) : ByteArray :=
  c.pack (members s source created c)

/-! ## Unpacking -/

/-- Why a bundle cannot be read. -/
inductive Error where
  | archive (e : Archive.Error)
  | missingMember (name : RawText)
  | opening (name : RawText) (e : Archive.Error)
  | reading (e : Archive.Error)
  | badManifest
  | unsupportedFormat (format : Int)
  | version (e : Version.Error)
  | kind (e : Kind.Unknown)
  | wrongSize (file : RawText) (size : Int) (stored : Nat)
  | missingProcedure (kind : Kind) (index : Nat)

/-- The wording of an error. -/
def Error.message : Error → String
  | archive e => "open zip: " ++ e.message
  | missingMember name => "zip entry " ++ name.quote ++ " not found"
  | opening name e => "open zip entry " ++ name.quote ++ ": " ++ e.message
  | reading e => e.message
  | badManifest => "unmarshal manifest"
  | unsupportedFormat format => "unsupported bundle format " ++ Text.decimal 0 format
  | version e => e.message
  | kind e => e.message
  | wrongSize file size stored =>
    file.text ++ ": manifest size " ++ Text.decimal 0 size ++ " does not match " ++ toString stored ++
      " stored bytes"
  | missingProcedure k index => k.name ++ " procedure " ++ toString index ++ " is missing"

/-- Entries come by kind, and by index within a kind. -/
def entryLE (a b : Kind × Entry) : Bool :=
  a.1.code < b.1.code || (a.1.code == b.1.code && a.2.index ≤ b.2.index)

/-- The entries of a manifest with their kinds, in the order of the script. -/
def orderedEntries (m : Manifest) : Except Error (List (Kind × Entry)) :=
  match m.entries.mapM fun e => (Kind.parse e.kind).map (·, e) with
  | .error e => .error (.kind e)
  | .ok entries => .ok (entries.mergeSort entryLE)

/-- Append the procedure of an entry.  Its index has to be the next one of its kind. -/
def addEntry (read : RawText → Except Error ByteArray) (s : Script) (entry : Kind × Entry) :
    Except Error Script :=
  let (kind, e) := entry
  match read e.file with
  | .error err => .error err
  | .ok body =>
    if (body.size : Int) ≠ e.size then .error (.wrongSize e.file e.size body.size)
    else
      let next := (s.ofKind kind).length
      if e.index ≠ next then .error (.missingProcedure kind next)
      else .ok (s.add kind e.name body.toList)

/-- The script a manifest describes.  `read` gives the bytes of a member. -/
def script (read : RawText → Except Error ByteArray) (m : Manifest) : Except Error Script :=
  if m.format ≠ formatVersion then .error (.unsupportedFormat m.format)
  else
    match Version.parse m.engine with
    | .error e => .error (.version e)
    | .ok version =>
      match orderedEntries m with
      | .error e => .error e
      | .ok entries => entries.foldlM (addEntry read) { version }

/-- The bytes of a member.  Of several with one name the last counts. -/
def Codec.readMember (c : Codec) (data : ByteArray) (entries : List Archive.Entry)
    (name : RawText) : Except Error ByteArray :=
  match entries.reverse.find? (·.name == name) with
  | none => .error (.missingMember name)
  | some e =>
    match c.content data e with
    | .ok body => .ok body
    | .error (.opening err) => .error (.opening name err)
    | .error (.reading err) => .error (.reading err)

/-- Read a bundle. -/
def decode (data : ByteArray) (c : Codec := {}) : Except Error (Script × Manifest) :=
  match c.directory data with
  | .error e => .error (.archive e)
  | .ok entries =>
    match c.readMember data entries manifestName with
    | .error e => .error e
    | .ok raw =>
      match c.parse? raw with
      | none => .error .badManifest
      | some m =>
        match script (c.readMember data entries) m with
        | .error e => .error e
        | .ok s => .ok (s, m)

/-- The remark on a bundle that has been read. -/
def decodeRemark (s : Script) : String :=
  "decoded bundle with " ++ toString s.procedures.length ++ " procedures for " ++ s.version.name

/-! ## Files -/

/-- Why a bundle file cannot be read. -/
inductive FileError where
  | reading (path : String) (fault : FileTree.Fault)
  | decoding (path : String) (e : Error)

/-- The wording of a file error. -/
def FileError.message : FileError → String
  | reading path fault => "reading " ++ path ++ ": " ++ fault.message
  | decoding path e => "decoding " ++ path ++ ": " ++ e.message

/-- Read a bundle file. -/
def load (t : FileTree) (path : String) : Except FileError (Script × Manifest) :=
  match t.read path with
  | .error fault => .error (.reading path fault)
  | .ok data =>
    match decode data with
    | .error e => .error (.decoding path e)
    | .ok found => .ok found

/-- Write a bundle file. -/
def save (t : FileTree) (path : String) (s : Script) (source : String) (created : Timestamp) :
    Except FileTree.Fault FileTree :=
  t.write path (encode s source created)

/-- The wording of a failed write. -/
def writeFailure (path : String) (fault : FileTree.Fault) : String :=
  "writing " ++ path ++ ": " ++ fault.message

end RoomScript.Bundle
