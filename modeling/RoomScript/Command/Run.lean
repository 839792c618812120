import RoomScript.Build
import RoomScript.Command.Search
import RoomScript.SymbolTable
import RoomScript.Verification

/-!
# Running commands

A command line names a command, gives its flags and its arguments.  The settings of the project are
read before any command does its work; asking for help needs none.

* `Command.run` runs a command line in a session.
-/

namespace RoomScript.Command

/-! ## Errors -/

/-- Why a command line fails. -/
inductive Error where
  | unknown (e : Unknown)
  | flag (e : Flag.Error)
  | arguments (e : ArityError)
  | loading (e : Settings.LoadError)
  | invalid (e : Settings.Invalid)
  | settings (e : Settings.FlagError)
  | version (e : Version.Error)
  | level (e : Log.Level.Unknown)
  | kind (e : Kind.Unknown)
  | build (e : Build.Error)
  | file (e : ScriptFile.Error)
  | writing (e : Session.WriteError)
  /-- A listing with so many undecodable places. -/
  | undecodable (file : String) (count : Nat)
  | notExpanded (file : String)
  | unknownFormat (name : String)
  | verification (e : Verification.Error)

/-- The wording of an error. -/
def Error.message : Error → String
  | unknown e => e.message
  | flag e => e.message
  | arguments e => e.message
  | loading e => e.message
  | invalid e => e.message
  | settings e => e.message
  | version e => e.message
  | level e => e.message
  | kind e => e.message
  | build e => e.message
  | file e => e.message
  | writing e => e.message
  | undecodable path count =>
    path ++ ": " ++ toString count ++ " bytecode errors, undecodable bytes were emitted as .db"
  | notExpanded path => path ++ ": preprocessing failed"
  | unknownFormat name => "unknown format " ++ Text.quote name
  | verification e => e.message

/-- A project that commands work in. -/
structure Project where
  settings : Settings
  /-- The level of the log. -/
  level : Log.Level
  version : Version

/-! ## Settings -/

/-- The settings file to read and whether it has to be there. -/
def settingsFile (flags : List Flag) : String × Bool :=
  match Flag.textOf flags "config" with
  | "" => (Settings.defaultFile, false)
  | path => (path, true)

/-- The settings of the project, with the flags taken over. -/
def settings (flags : List Flag) (t : FileTree) : Except Error Settings :=
  let (path, required) := settingsFile flags
  match Settings.load t path required with
  | .error e => .error (.loading e)
  | .ok s =>
    match s.check with
    | .error e => .error (.invalid e)
    | .ok () =>
      match s.withFlags flags with
      | (some e, _) => .error (.settings e)
      | (none, s) => .ok s

/-- Read the project. -/
def project (flags : List Flag) (t : FileTree) : Except Error Project :=
  match settings flags t with
  | .error e => .error e
  | .ok settings =>
    match Log.Level.parse settings.logLevel, settings.table with
    | .error e, _ => .error (.level e)
    | .ok _, .error e => .error (.version e)
    | .ok level, .ok version => .ok { settings, level, version }

/-- The remark on the opcode table in use. -/
def tableRemark (v : Version) : String :=
  "using " ++ v.name ++ " opcode table"

/-! ## The work of each command -/

/-- Assemble sources. -/
def runAssemble (p : Project) (flags : List Flag) (files : List String) (s : Session) :
    Option Error × Session :=
  let output := Flag.textOf flags "output"
  let format := Flag.textOf flags "format"
  if output ≠ "" ∧ files.length > 1 then (some (.build .severalInputs), s)
  else
    match Build.Format.parse? format with
    | none => (some (.build (.unknownFormat format)), s)
    | some format =>
      let options : Build.Options :=
        { format, output
          outputDir := p.settings.outputDir
          includeDirs := p.settings.includeDirs.getD []
          defines := p.settings.sortedDefines }
      let (e, s) := Build.run options files s
      (e.map .build, s)

/-- List a script file. -/
def runDisassemble (p : Project) (flags : List Flag) (file : String) (s : Session) :
    Option Error × Session :=
  match Kind.parse (Flag.textOf flags "kind") with
  | .error e => (some (.kind e), s)
  | .ok kind =>
    let (loaded, remarks) := ScriptFile.load s.tree file p.version kind
    let s := s.note .debug remarks
    match loaded with
    | .error e => (some (.file e), s)
    | .ok script =>
      let options : Listing.Options := ⟨Flag.isOn flags "offsets", Flag.isOn flags "numeric"⟩
      let found := Listing.diagnostics script
      match s.output (Flag.textOf flags "output") (Listing.script options script) with
      | .error e => (some (.writing e), s)
      | .ok s =>
        if found.isEmpty then (none, s)
        else (some (.undecodable file found.length), s.report found)

/-- The text of tokens without their comments. -/
def printedText (tokens : List Token) : String :=
  String.join ((tokens.filter fun t => t.kind ≠ .comment).map (·.lexeme))

/-- Expand a source. -/
def runPreprocess (p : Project) (flags : List Flag) (file : String) (s : Session) :
    Option Error × Session :=
  let start := p.settings.sortedDefines.foldl (fun (q : Preprocessor) d => q.define d.1 d.2) {}
  let (tokens, after) :=
    start.expand (s.tree.library (p.settings.includeDirs.getD [])) (s.absolute file)
  let s := s.note .debug after.remarks
  if after.diagnostics.isEmpty then
    match s.output (Flag.textOf flags "output") (printedText tokens) with
    | .error e => (some (.writing e), s)
    | .ok s => (none, s)
  else (some (.notExpanded file), s.report after.diagnostics)

/-- Show the names of operand values. -/
def runSymbols (flags : List Flag) (s : Session) : Option Error × Session :=
  let format := Flag.textOf flags "format"
  match SymbolTable.Format.parse? format with
  | none => (some (.unknownFormat format), s)
  | some format =>
    (none, s.print (SymbolTable.render format (SymbolTable.select (Flag.textOf flags "kinds"))))

/-- Verify script files. -/
def runVerify (p : Project) (flags : List Flag) (files : List String) (s : Session) :
    Option Error × Session :=
  match Kind.parse (Flag.textOf flags "kind") with
  | .error e => (some (.kind e), s)
  | .ok kind =>
    let options : Verification.Options :=
      { version := p.version, kind, keep := Flag.textOf flags "keep"
        prune := Flag.isOn flags "prune" }
    let (e, s) := Verification.run options files s
    (e.map .verification, s)

/-- The text for words that name no command to help with. -/
def unknownTopic (words : List String) : String :=
  "Unknown help topic [" ++ " ".intercalate (words.map Text.quoteRaw) ++ "]\n" ++
    root.usageText root.ownFlags

/-- Show help on a command. -/
def runHelp (words : List String) (s : Session) : Session :=
  match find words with
  | .ok (c, _) => s.print c.helpText
  | .error _ => s.print (unknownTopic words)

/-- Do the work of a command. -/
def perform (c : Command) (p : Project) (flags : List Flag) (arguments : List String)
    (s : Session) : Option Error × Session :=
  match c.action with
  | .overview | .group => (none, s.print c.helpText)
  | .assemble => runAssemble p flags arguments s
  | .disassemble => runDisassemble p flags (arguments.headD "") s
  | .preprocess => runPreprocess p flags (arguments.headD "") s
  | .symbols => runSymbols flags s
  | .verify => runVerify p flags arguments s
  | .help => (none, runHelp arguments s)

/-! ## Command lines -/

/-- What came of a command line. -/
structure Outcome where
  session : Session
  error : Option Error := none
  /-- The level of the log. -/
  level : Log.Level := .info

/-- The log entries that are shown. -/
def Outcome.shownLog (o : Outcome) : List Log.Entry :=
  o.session.log.filter fun e => o.level.shows e.level

/-- Run a command whose flags and arguments have been read. -/
def execute (c : Command) (flags : List Flag) (arguments : List String) (s : Session) : Outcome :=
  if Flag.isOn flags "help" ∨ c.action = .group then { session := s.print c.helpText }
  else
    match c.checkArguments arguments with
    | some e => { session := s, error := some (.arguments e) }
    | none =>
      match project flags s.tree with
      | .error e => { session := s, error := some e }
      | .ok p =>
        let (error, session) :=
          c.perform p flags arguments (s.note .debug [tableRemark p.version])
        { session, error, level := p.level }

/-- Run a command line. -/
def run (words : List String) (s : Session) : Outcome :=
  match find words with
  | .error e => { session := s, error := some (.unknown e) }
  | .ok (c, rest) =>
    match Flag.parse (c.helpFlag :: c.allFlags) rest with
    | .error e => { session := s, error := some (.flag e) }
    | .ok (flags, arguments) => c.execute flags arguments s

end RoomScript.Command
