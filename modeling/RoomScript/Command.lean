import RoomScript.Flag
import RoomScript.Script
import RoomScript.Settings

/-!
# Commands

The program has a few commands, each with flags and a number of arguments.  This module says what
they are; what they do stands elsewhere.
-/

namespace RoomScript

/-- How many arguments a command takes. -/
inductive Arity where
  | any
  | none
  | exactly (count : Nat)
  | atLeast (count : Nat)
  deriving DecidableEq, Repr

/-- What a command does. -/
inductive Action where
  /-- Nothing but show its help. -/
  | overview
  | assemble
  | disassemble
  | preprocess
  | symbols
  | verify
  | help
  /-- Nothing: the command only stands for others. -/
  | group
  deriving DecidableEq, Repr

/-- A command as it is described to its user. -/
structure Command where
  name : String
  /-- The line on how it is used, below the name of the program. -/
  use : String
  /-- A line on what it does. -/
  short : String
  /-- All on what it does; empty when the line says it all. -/
  long : String := ""
  action : Action
  flags : List Flag := []
  arity : Arity := .any
  /-- The names and short descriptions of commands below it. -/
  topics : List (String × String) := []

namespace Command

/-- The name of the program. -/
def program : String := "scdasm"

/-! ## Flags -/

/-- The flags that every command has. -/
def globalFlags : List Flag :=
  [{ name := "log-level", value := .text "warn"
     usage := "Log messages above specified level: debug, info, warn, error, fatal or panic" },
    { name := "config", value := .text ""
      usage := "Path of the project configuration file (default ./" ++ Settings.defaultFile ++ ")" },
    { name := "engine", value := .text Version.bio2.name
      usage := "Engine version whose opcode table is used" }]

/-- The flag that asks for help on a command. -/
def helpFlag (c : Command) : Flag :=
  { name := "help", letter := some 'h', value := .switch false, usage := "help for " ++ c.name }

/-- Directories to look for includes in. -/
def includeFlag : Flag :=
  { name := "include", letter := some 'I', value := .fields []
    usage := "Add a directory to the include search path" }

/-- Macros to define beforehand. -/
def defineFlag : Flag :=
  { name := "define", letter := some 'D', value := .values []
    usage := "Predefine a macro as NAME or NAME=VALUE" }

/-- The file to write. -/
def outputFlag (usage : String) : Flag :=
  { name := "output", letter := some 'o', value := .text "", usage }

/-- The kind of the procedures of a raw chunk. -/
def kindFlag : Flag :=
  { name := "kind", value := .text Kind.main.name
    usage := "Section of a raw chunk: init, main or event" }

/-! ## The commands -/

/-- Assemble sources. -/
def asm : Command where
  name := "asm"
  use := "asm [flags] FILE [FILE...]"
  short := "Assemble script sources"
  long := "Preprocess and assemble each source file.\n\n" ++
    "The result is written as a bundle next to the source, or with --format chunk as\n" ++
    "one raw SCD chunk per script section."
  action := .assemble
  arity := .atLeast 1
  flags :=
    [outputFlag "Output file (single input only)",
      { name := "output-dir", value := .text "", usage := "Directory receiving the output files" },
      { name := "format", value := .text "bundle", usage := "Output format: bundle or chunk" },
      includeFlag, defineFlag,
      { name := "jobs", letter := some 'j', value := .number 4
        usage := "Number of files assembled concurrently" }]

/-- List a script file. -/
def disasm : Command where
  name := "disasm"
  use := "disasm [flags] FILE"
  short := "Disassemble a bundle or a raw SCD chunk"
  action := .disassemble
  arity := .exactly 1
  flags :=
    [outputFlag "Write the listing to a file instead of stdout", kindFlag,
      { name := "offsets", value := .switch false
        usage := "Prefix every line with its byte offset" },
      { name := "numeric", value := .switch false
        usage := "Print operand values instead of names" }]

/-- Expand a source. -/
def preprocess : Command where
  name := "preprocess"
  use := "preprocess [flags] FILE"
  short := "Print a source file after preprocessing"
  action := .preprocess
  arity := .exactly 1
  flags := [outputFlag "Write the result to a file instead of stdout", includeFlag, defineFlag]

/-- Show the names of operand values. -/
def symbols : Command where
  name := "symbols"
  use := "symbols [flags]"
  short := "List the symbolic operand names of the selected engine"
  action := .symbols
  arity := .none
  flags :=
    [{ name := "format", value := .text "table", usage := "Output format: table, json or yaml" },
      { name := "kinds", value := .text ""
        usage := "Only list these operand kinds, e.g. \"ei\"" }]

/-- Verify script files. -/
def verify : Command where
  name := "verify"
  use := "verify [flags] FILE [FILE...]"
  short := "Check that disassembling and reassembling reproduces the bytecode"
  action := .verify
  arity := .atLeast 1
  flags :=
    [kindFlag,
      { name := "keep", value := .text ""
        usage := "Directory receiving the intermediate listings" },
      { name := "prune", value := .switch false
        usage := "Remove listings in the --keep directory that this run did not produce" }]

/-- Show help on a command. -/
def help : Command where
  name := "help"
  use := "help [command]"
  short := "Help about any command"
  long := "Help provides help for any command in the application.\nSimply type " ++ program ++
    " help [path to command] for full details."
  action := .help

/-- The shells that completion scripts are made for. -/
def shells : List String := ["bash", "fish", "powershell", "zsh"]

/-- The commands for completion in shells. -/
def completion : Command where
  name := "completion"
  use := "completion"
  short := "Generate the autocompletion script for the specified shell"
  long := "Generate the autocompletion script for " ++ program ++ " for the specified shell.\n" ++
    "See each sub-command's help for details on how to use the generated script."
  action := .group
  arity := .none
  topics := shells.map fun shell => (shell, "Generate the autocompletion script for " ++ shell)

/-- All commands, in the order they are suggested in. -/
def all : List Command :=
  [asm, disasm, preprocess, symbols, verify, completion, help]

/-- The program without a command. -/
def root : Command where
  name := program
  use := program
  short := "Room event script toolchain"
  long := "Assemble, disassemble, preprocess and verify SCD room event scripts."
  action := .overview
  topics := (all.map fun c => (c.name, c.short)).mergeSort fun a b => decide (a.1 ≤ b.1)

/-- Whether this is the program itself. -/
def isRoot (c : Command) : Bool :=
  c.action = .overview

/-- The words that lead to a command. -/
def path (c : Command) : String :=
  if c.isRoot then c.name else program ++ " " ++ c.name

/-- The flags that the command line of a command can have. -/
def allFlags (c : Command) : List Flag :=
  c.flags ++ globalFlags

/-! ## Arguments -/

/-- Why arguments do not fit a command. -/
inductive ArityError where
  | unexpected (argument path : String)
  | tooFew (wanted found : Nat)
  | wrongCount (wanted found : Nat)
  deriving DecidableEq, Repr

/-- The wording of the error. -/
def ArityError.message : ArityError → String
  | unexpected argument path =>
    "unknown command " ++ Text.quote argument ++ " for " ++ Text.quote path
  | tooFew wanted found =>
    "requires at least " ++ toString wanted ++ " arg(s), only received " ++ toString found
  | wrongCount wanted found =>
    "accepts " ++ toString wanted ++ " arg(s), received " ++ toString found

/-- Whether arguments fit a command. -/
def checkArguments (c : Command) (arguments : List String) : Option ArityError :=
  match c.arity, arguments with
  | .any, _ => none
  | .none, [] => none
  | .none, argument :: _ => some (.unexpected argument c.path)
  | .exactly count, _ =>
    if arguments.length = count then none else some (.wrongCount count arguments.length)
  | .atLeast count, _ =>
    if count ≤ arguments.length then none else some (.tooFew count arguments.length)

/-! ## Help -/

/-- A text without the blanks at its end. -/
def trimEnd (s : String) : String :=
  String.ofList (Text.dropBlankEnd s.toList)

/-- The width of the column of command names. -/
def nameWidth : Nat := 11

/-- A titled list of flags; nothing without flags. -/
def flagsText (title : String) (flags : List Flag) : String :=
  if flags.isEmpty then ""
  else "\n\n" ++ title ++ ":\n" ++ trimEnd ("\n".intercalate (Flag.usages flags))

/-- The text on how a command is used, with these flags of its own. -/
def usageText (c : Command) (own : List Flag) : String :=
  let line := if c.isRoot then c.use else program ++ " " ++ c.use
  let marked := (line.splitOn "[flags]").length > 1
  "Usage:" ++
    (if c.action = .group then "" else "\n  " ++ line ++ if marked then "" else " [flags]") ++
    (if c.topics.isEmpty then ""
      else
        "\n  " ++ c.path ++ " [command]\n\nAvailable Commands:" ++
          String.join (c.topics.map fun t => "\n  " ++ Text.padRight nameWidth t.1 ++ " " ++ t.2)) ++
    flagsText "Flags" own ++
    (if c.isRoot then "" else flagsText "Global Flags" globalFlags) ++
    (if c.topics.isEmpty then ""
      else
        "\n\nUse \"" ++ c.path ++ " [command] --help\" for more information about a command.") ++
    "\n"

/-- The flags of a command itself, those of the program for the program. -/
def ownFlags (c : Command) : List Flag :=
  if c.isRoot then c.allFlags else c.flags

/-- All help on a command. -/
def helpText (c : Command) : String :=
  trimEnd (if c.long = "" then c.short else c.long) ++ "\n\n" ++
    c.usageText (c.helpFlag :: c.ownFlags)

end Command

end RoomScript
