import RoomScript.Json
import RoomScript.Timestamp

/-!
# Manifests

The manifest of a bundle lists its procedures.  It is written as JSON with a fixed layout, and read
from any JSON with the same fields: names of fields are matched without regard to case, fields that
are not known are passed over, and a field that is given again replaces what was there.
-/

namespace RoomScript.Bundle

/-- A procedure of a bundle. -/
structure Entry where
  kind : RawText := ""
  index : Int := 0
  name : String := ""
  /-- The member that holds the bytes. -/
  file : RawText := ""
  size : Int := 0
  deriving DecidableEq, Repr

/-- What a bundle says about itself. -/
structure Manifest where
  format : Int := 0
  engine : RawText := ""
  /-- The source file, for reference only. -/
  source : String := ""
  created : Timestamp := {}
  entries : List Entry := []
  deriving DecidableEq, Repr

/-! ## Writing -/

/-- One entry of the list. -/
def Entry.text (e : Entry) : String :=
  "    \x7b\n      \"kind\": " ++ Json.quoted e.kind.text ++ ",\n      \"index\": " ++
    Text.decimal 0 e.index ++ ",\n      \"name\": " ++ Json.quoted e.name ++ ",\n      \"file\": " ++
    Json.quoted e.file.text ++ ",\n      \"size\": " ++ Text.decimal 0 e.size ++ "\n    \x7d"

/-- The list of entries; `null` stands for none. -/
def entriesText : List Entry → String
  | [] => "null"
  | entries => "[\n" ++ ",\n".intercalate (entries.map Entry.text) ++ "\n  ]"

/-- The written form of a manifest.  A source that is empty is left out. -/
def Manifest.text (m : Manifest) : String :=
  "\x7b\n  \"format\": " ++ Text.decimal 0 m.format ++ ",\n  \"engine\": " ++ Json.quoted m.engine.text ++
    (if m.source == "" then "" else ",\n  \"source\": " ++ Json.quoted m.source) ++
    ",\n  \"created\": " ++ Json.quoted m.created.text ++ ",\n  \"procedures\": " ++
    entriesText m.entries ++ "\n\x7d"

/-! ## Reading -/

/-- Read a time, which is taken as it is written.  `null` leaves the time as it was. -/
def time (depth : Nat) (before : Timestamp) : Json.Reader Timestamp := fun bytes =>
  match Json.value depth bytes with
  | none => none
  | some x =>
    let written := (Text.ofBytes x.value.toByteArray).toList
    let meant := match written with
      | '"' :: rest =>
        if rest.getLast? = some '"' then Timestamp.parse? (String.ofList rest.dropLast) else none
      | _ => if written = "null".toList then some before else none
    meant.map fun t => ⟨t, x.rest, x.shorter⟩

/-- The name of a field in lower case. -/
def lowerName (name : RawText) : String :=
  String.ofList (name.text.toList.map Char.toLower)

/-- Read the field of an entry with a name. -/
def Entry.field (e : Entry) (name : RawText) : Json.Reader Entry :=
  match lowerName name with
  | "kind" => Json.text.map ({ e with kind := · })
  | "index" => (Json.integer e.index).map ({ e with index := · })
  | "name" => Json.text.map ({ e with name := ·.text })
  | "file" => Json.text.map ({ e with file := · })
  | "size" => (Json.integer e.size).map ({ e with size := · })
  | _ => (Json.pass 2).map fun _ => e

/-- A manifest that is being read. -/
structure Reading where
  manifest : Manifest := {}
  /-- All entries read for the list since it was last emptied.  A list that is given again is read
  over them. -/
  places : List Entry := []

/-- Take over a list of entries. -/
def Reading.withEntries (r : Reading) (entries : List Entry) : Reading :=
  { manifest := { r.manifest with entries }
    places := if entries.isEmpty then [] else entries ++ r.places.drop entries.length }

/-- Read the field of a manifest with a name. -/
def Reading.field (r : Reading) (name : RawText) : Json.Reader Reading :=
  let m := r.manifest
  match lowerName name with
  | "format" => (Json.integer m.format).map ({ r with manifest := { m with format := · } })
  | "engine" => Json.text.map ({ r with manifest := { m with engine := · } })
  | "source" => Json.text.map ({ r with manifest := { m with source := ·.text } })
  | "created" => (time 1 m.created).map ({ r with manifest := { m with created := · } })
  | "procedures" => (Json.list (Json.object Entry.field) {} r.places).map r.withEntries
  | _ => (Json.pass 1).map fun _ => r

/-- Read a manifest. -/
def Manifest.parse? (bytes : List UInt8) : Option Manifest :=
  (Json.whole? (Json.object Reading.field {}) bytes).map (·.manifest)

end RoomScript.Bundle
