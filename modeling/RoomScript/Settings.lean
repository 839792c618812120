import RoomScript.FileTree
import RoomScript.Flag
import RoomScript.Log
import RoomScript.Toml.Document
import RoomScript.Version

/-!
# Project settings

The settings of a project stand in a file, and flags of the command line go before them.

* `Settings.load` reads a settings file, `Settings.text` writes one;
* `Settings.check` finds values that name nothing;
* `Settings.withFlags` takes over the flags that were given.
-/

namespace RoomScript

/-- The settings of a project. -/
structure Settings where
  /-- The name of the engine version. -/
  engine : String := Version.bio2.name
  /-- The directories that includes are looked for in; they need not be given at all. -/
  includeDirs : Option (List String) := none
  /-- The macros that are defined beforehand, with their bodies. -/
  defines : List (String × String) := []
  /-- The directory for assembled files; none when empty. -/
  outputDir : String := ""
  /-- The name of the level of the log. -/
  logLevel : String := "warn"
  deriving DecidableEq, Repr

namespace Settings

/-- The settings file that is looked for when none is named. -/
def defaultFile : String := "scdasm.toml"

/-- Define a macro beforehand. -/
def define (s : Settings) (name body : String) : Settings :=
  { s with defines :=
      if (s.defines.lookup name).isSome then
        s.defines.map fun d => if d.1 = name then (name, body) else d
      else s.defines ++ [(name, body)] }

/-- The macros that are defined beforehand, in the order of their names. -/
def sortedDefines (s : Settings) : List (String × String) :=
  s.defines.mergeSort fun a b => decide (a.1 ≤ b.1)

/-! ## Checking -/

/-- Why settings are not usable. -/
inductive Invalid where
  | engine (e : Version.Error)
  | logLevel (e : Log.Level.Unknown)
  deriving DecidableEq, Repr

/-- The wording of the error. -/
def Invalid.message : Invalid → String
  | engine e => e.message
  | logLevel e => "invalid log_level: " ++ e.message

/-- The engine version. -/
def version (s : Settings) : Except Version.Error Version :=
  Version.parse s.engine

/-- The engine version, when there is an opcode table for it. -/
def table (s : Settings) : Except Version.Error Version :=
  match s.version with
  | .ok v => v.withTable
  | .error e => .error e

/-- Find a value that names nothing. -/
def check (s : Settings) : Except Invalid Unit :=
  match s.version, Log.Level.parse s.logLevel with
  | .error e, _ => .error (.engine e)
  | .ok _, .error e => .error (.logLevel e)
  | .ok _, .ok _ => .ok ()

/-! ## Reading -/

/-- A text value. -/
def text? : Toml.Value → Option String
  | .text s => some s
  | _ => none

/-- Take over the text fields of a table as macros. -/
def definesOver? (s : Settings) : Toml.Table → Option Settings
  | [] => some s
  | (name, v) :: rest =>
    match text? v with
    | some body => (s.define name body).definesOver? rest
    | none => none

/-- Take over a field of a settings file.  Names are compared without regard to letter case, and a
field with any other name means nothing. -/
def field? (s : Settings) (field : String × Toml.Value) : Option Settings :=
  let (name, v) := field
  if Text.sameFolded name "engine" then (text? v).map fun engine => { s with engine }
  else if Text.sameFolded name "include_dirs" then
    match v with
    | .list items => (items.mapM text?).map fun dirs => { s with includeDirs := some dirs }
    | _ => none
  else if Text.sameFolded name "defines" then
    match v with
    | .table fields => s.definesOver? fields
    | _ => some s
  else if Text.sameFolded name "output_dir" then (text? v).map fun outputDir => { s with outputDir }
  else if Text.sameFolded name "log_level" then (text? v).map fun logLevel => { s with logLevel }
  else some s

/-- The settings that a file gives, on top of the usual ones. -/
def decode? (bytes : ByteArray) : Option Settings :=
  (Toml.parse? bytes).bind fun fields => fields.foldlM field? {}

/-- Directories of a settings file are meant from the directory of the file. -/
def below (dir path : String) : String :=
  if Path.isAbsolute path then path else Path.join [dir, path]

/-- Settings with all directories meant from a directory. -/
def relocate (dir : String) (s : Settings) : Settings :=
  { s with
    includeDirs := s.includeDirs.map fun dirs => dirs.map (below dir)
    outputDir := if s.outputDir = "" then "" else below dir s.outputDir }

/-- Why a settings file cannot be read. -/
inductive LoadError where
  | reading (path : String) (fault : FileTree.Fault)
  | decoding (path : String)
  deriving DecidableEq, Repr

/-- The wording of the error. -/
def LoadError.message : LoadError → String
  | reading path fault => "reading configuration file " ++ path ++ ": " ++ fault.message
  | decoding path => "decoding configuration file " ++ path

/-- Read a settings file.  One that does not exist gives the usual settings, unless it is
required. -/
def load (t : FileTree) (path : String) (required : Bool) : Except LoadError Settings :=
  match t.read path with
  | .error fault =>
    if fault.reason = .noEntry ∧ ¬required then .ok {} else .error (.reading path fault)
  | .ok bytes =>
    match decode? bytes with
    | none => .error (.decoding path)
    | some s => .ok (s.relocate (Path.dir path))

/-! ## Writing -/

/-- A line with a text value. -/
def textLine (name value : String) : String :=
  Toml.writeName name ++ " = " ++ Toml.quote value ++ "\n"

/-- The content of a settings file. -/
def text (s : Settings) : String :=
  textLine "engine" s.engine ++
    (match s.includeDirs with
      | none => ""
      | some dirs => "include_dirs = [" ++ ", ".intercalate (dirs.map Toml.quote) ++ "]\n") ++
    textLine "output_dir" s.outputDir ++ textLine "log_level" s.logLevel ++ "\n[defines]\n" ++
    String.join (s.sortedDefines.map fun d => "  " ++ textLine d.1 d.2)

/-- Write a settings file. -/
def save (s : Settings) (t : FileTree) (path : String) : Except FileTree.Fault FileTree :=
  t.write path s.text.toUTF8

/-- The wording of a failed write. -/
def saveFailure (path : String) (fault : FileTree.Fault) : String :=
  "creating " ++ path ++ ": " ++ fault.message

/-! ## Macros from the command line -/

/-- A definition without a name. -/
structure BadDefine where
  text : String
  deriving DecidableEq, Repr

/-- The wording of the error. -/
def BadDefine.message (e : BadDefine) : String :=
  "invalid define " ++ Text.quote e.text

/-- Split `NAME=BODY`.  A name alone is defined as `1`. -/
def parseDefine (text : String) : Except BadDefine (String × String) :=
  let (left, body?) := Flag.cutValue text.toList
  let name := Text.trim left
  if name = "" then .error ⟨text⟩ else .ok (name, body?.getD "1")

/-! ## Flags -/

/-- Why flags cannot be taken over. -/
inductive FlagError where
  | wrongType (wanted found : String)
  | record (e : Record.Error)
  | define (e : BadDefine)
  | invalid (e : Invalid)
  deriving DecidableEq, Repr

/-- The wording of the error. -/
def FlagError.message : FlagError → String
  | wrongType wanted found => "trying to get " ++ wanted ++ " value of flag of type " ++ found
  | record e => e.message
  | define e => e.message
  | invalid e => e.message

/-- The items that were given for a flag of a list type, as one record that is read back. -/
def givenItems (items? : Flag.Value → Option (List String)) (typeName : String)
    (flags : List Flag) (name : String) : Except FlagError (Option (List String)) :=
  match Flag.find? flags name with
  | none => .ok none
  | some f =>
    if ¬f.changed then .ok none
    else
      match items? f.value with
      | none => .error (.wrongType typeName f.value.typeName)
      | some items =>
        match Record.reread items with
        | .ok items => .ok (some items)
        | .error e => .error (.record e)

/-- The include directories that were given. -/
def givenIncludes : List Flag → String → Except FlagError (Option (List String)) :=
  givenItems (fun | .fields items => some items | _ => none) "stringSlice"

/-- The macros that were given. -/
def givenDefines : List Flag → String → Except FlagError (Option (List String)) :=
  givenItems (fun | .values items => some items | _ => none) "stringArray"

/-- Define macros that are given as texts.  Those before a bad one are defined. -/
def defineAll (s : Settings) : List String → Option FlagError × Settings
  | [] => (none, s)
  | text :: rest =>
    match parseDefine text with
    | .error e => (some (.define e), s)
    | .ok (name, body) => (s.define name body).defineAll rest

/-- Take over the flags that were given, in a fixed order up to the first that fails.  Includes go
before those of the settings. -/
def withFlags (s : Settings) (flags : List Flag) : Option FlagError × Settings :=
  let s := { s with
    engine := (Flag.givenText? flags "engine").getD s.engine
    logLevel := (Flag.givenText? flags "log-level").getD s.logLevel
    outputDir := (Flag.givenText? flags "output-dir").getD s.outputDir }
  match givenIncludes flags "include" with
  | .error e => (some e, s)
  | .ok dirs =>
    let s := match dirs with
      | none => s
      | some dirs => { s with includeDirs := some (dirs ++ s.includeDirs.getD []) }
    match givenDefines flags "define" with
    | .error e => (some e, s)
    | .ok texts =>
      match s.defineAll (texts.getD []) with
      | (some e, s) => (some e, s)
      | (none, s) =>
        match s.check with
        | .error e => (some (.invalid e), s)
        | .ok () => (none, s)

end Settings

end RoomScript
