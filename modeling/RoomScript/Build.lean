import RoomScript.Assembly
import RoomScript.Bundle
import RoomScript.Chunk
import RoomScript.FileTree.Library
import RoomScript.Session
import RoomScript.Settings
import RoomScript.Text.Size

/-!
# Building script files from sources

Every source is assembled on its own and written as a bundle, or as one raw chunk for each of its
sections.

* `Build.one` builds one source;
* `Build.each` builds several, one after another;
* `Build.run` builds sources and prints the files that were written.
-/

namespace RoomScript.Build

/-- What a source is built to. -/
inductive Format where
  | bundle
  | chunk
  deriving DecidableEq, Repr

/-- The format with a name. -/
def Format.parse? : String → Option Format
  | "bundle" => some bundle
  | "chunk" => some chunk
  | _ => none

/-- Why building stops. -/
inductive Error where
  | severalInputs
  | unknownFormat (name : String)
  | creating (dir : String) (fault : FileTree.Fault)
  | writing (e : Session.WriteError)
  | joining (file : String) (kind : Kind) (e : Chunk.Error)
  /-- So many of so many sources have faults. -/
  | failed (count all : Nat)

/-- The wording of an error. -/
def Error.message : Error → String
  | severalInputs => "--output cannot be used with more than one input"
  | unknownFormat name => "unknown output format " ++ Text.quote name
  | creating dir fault => "creating " ++ dir ++ ": " ++ fault.message
  | writing e => e.message
  | joining file kind e => file ++ ": " ++ kind.name ++ " section: " ++ e.message
  | failed count all => toString count ++ " of " ++ toString all ++ " files failed to assemble"

/-- What is to be written for a source, and where. -/
structure Options where
  format : Format := .bundle
  /-- The file to write; empty when it goes by the name of the source. -/
  output : String := ""
  /-- The directory for files that go by the name of the source; empty for the source's own. -/
  outputDir : String := ""
  includeDirs : List String := []
  /-- The macros that are defined beforehand. -/
  defines : List (String × String) := []

namespace Options

/-- The file for the bundle of a source. -/
def bundlePath (o : Options) (source : String) : String :=
  if o.output = "" then Path.output source o.outputDir Bundle.extension else o.output

/-- The file for a section of a source. -/
def sectionPath (o : Options) (source : String) (kind : Kind) : String :=
  let extension := "." ++ kind.name ++ ".scd"
  if o.output = "" then Path.output source o.outputDir extension
  else Path.output o.output "" extension

end Options

/-- What came of a source. -/
inductive Result where
  /-- It has faults, which stand in the log. -/
  | faulty
  /-- The files written and the number of bytes of its procedures. -/
  | built (files : List String) (size : Nat)
  deriving DecidableEq, Repr

/-! ## One source -/

/-- The bodies of the procedures of each kind, kinds without procedures left out. -/
def sections (s : Script) : List (Kind × List (List UInt8)) :=
  (Kind.named.map fun kind => (kind, (s.ofKind kind).map (·.data))).filter (! ·.2.isEmpty)

/-- Write sections one after another, up to the first that cannot be joined or written; `files` are
those written before. -/
def writeSections (o : Options) (source : String) (files : List String) (s : Session) :
    List (Kind × List (List UInt8)) → Except Error (List String) × Session
  | [] => (.ok files, s)
  | (kind, bodies) :: rest =>
    match Chunk.join bodies with
    | .error e => (.error (.joining source kind e), s)
    | .ok chunk =>
      let path := o.sectionPath source kind
      match s.writeFile path chunk.toByteArray with
      | .error e => (.error (.writing e), s)
      | .ok s => writeSections o source (files ++ [path]) s rest

/-- Write an assembled source. -/
def write (o : Options) (source : String) (script : Script) (s : Session) :
    Except Error (List String) × Session :=
  match o.format with
  | .bundle =>
    let path := o.bundlePath source
    match s.writeFile path (Bundle.encode script (Path.base source) s.now) with
    | .error e => (.error (.writing e), s)
    | .ok s => (.ok [path], s)
  | .chunk => writeSections o source [] s (sections script)

/-- Assemble a source. -/
def assemble (o : Options) (source : String) (s : Session) : Assembly.Outcome :=
  Assembly.assembleFile (s.tree.library o.includeDirs) (s.absolute source) o.defines

/-- Build one source.  Faults of the source are no error. -/
def one (o : Options) (source : String) (s : Session) : Except Error Result × Session :=
  let outcome := assemble o source s
  let s := s.note .debug outcome.remarks
  match outcome.result with
  | .error faults => (.ok .faulty, s.report faults)
  | .ok script =>
    match write o source script s with
    | (.error e, s) => (.error e, s)
    | (.ok files, s) => (.ok (.built files script.size), s)

/-! ## Several sources -/

/-- Build sources one after another.  An error does not keep the others from being built. -/
def each (o : Options) : List String → Session → List (Except Error Result) × Session
  | [], s => ([], s)
  | source :: rest, s =>
    let (result, s) := one o source s
    let (results, s) := each o rest s
    (result :: results, s)

/-- The first error among results, or all of them. -/
def allOk (results : List (Except Error Result)) : Except Error (List Result) :=
  results.mapM id

/-- The remark on a source that was built. -/
def sizeRemark (source : String) (size : Nat) : String :=
  source ++ ": " ++ Text.byteSize size ++ " of bytecode"

/-- Print the files written for a source. -/
def announce (s : Session) (result : String × Result) : Session :=
  match result with
  | (_, .faulty) => s
  | (source, .built files size) =>
    (s.print (String.join (files.map (· ++ "\n")))).note .info [sizeRemark source size]

/-- Make the output directory. -/
def prepare (o : Options) (s : Session) : Option Error × Session :=
  if o.outputDir = "" then (none, s)
  else
    match s.tree.makeDirs o.outputDir with
    | (none, tree) => (none, { s with tree })
    | (some fault, tree) => (some (.creating o.outputDir fault), { s with tree })

/-- Build sources and print the files that were written. -/
def run (o : Options) (sources : List String) (s : Session) : Option Error × Session :=
  match prepare o s with
  | (some e, s) => (some e, s)
  | (none, s) =>
    let (results, s) := each o sources s
    match allOk results with
    | .error e => (some e, s)
    | .ok results =>
      let s := (sources.zip results).foldl announce s
      let faulty := results.count .faulty
      (if faulty = 0 then none else some (.failed faulty sources.length), s)

end RoomScript.Build
