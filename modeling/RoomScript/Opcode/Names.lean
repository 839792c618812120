import RoomScript.Cursor
import RoomScript.Opcode.Table
import RoomScript.Text.Number

/-!
# Names of operand values

Values of an operand have names that depend on the signature character of the operand, and for some
operands on the bytes beside them.

* `valueName?` names a value by the character alone;
* `instructionName?` names an operand by the bytes of its instruction;
* `symbolValue?` is the way back from a name to a value.
-/

namespace RoomScript.Opcode

/-! ## Data -/

/-- The enemies by number.  Empty entries have no name. -/
def enemies : List String := [
  "", "", "", "", "", "", "", "", "", "", "", "", "", "", "", "", "Zombie (Cop)", "Zombie (Brad)",
  "Zombie (Guy1)", "Zombie (Girl)", "", "Zombie (TestSubject)", "Zombie (Scientist)",
  "Zombie (Naked)", "Zombie (Guy2)", "", "", "", "", "", "Zombie (Guy3)", "Zombie (Random)",
  "Zombie Dog", "Crow", "Licker (Red)", "Alligator", "Licker (Grey)", "Spider", "Baby Spider",
  "Birkin Goo", "Birkin Goo Child", "Cockroach", "Tyrant 1", "Tyrant 2", "", "Zombie Arms", "Ivy",
  "Vines", "Birkin 1", "Birkin 2", "Birkin 3", "Birkin 4", "Birkin 5", "", "", "", "",
  "Ivy (Purple)", "Giant Moth", "Maggots", "", "", "", "", "Chief Irons 1", "Ada Wong 1",
  "Chief Irons 2", "Ada Wong 2", "Ben Bertolucci 1", "Sherry (Pendant)", "BenBertolucci 2",
  "AnnetteBirkin 1", "Robert Kendo", "Annette Birkin 2", "Marvin Branagh", "Mayors Daughter", "",
  "", "", "Sherry (Jacket)", "Leon Kennedy (Rpd)", "Claire Redfield", "", "",
  "Leon Kennedy (Bandaged)", "Claire Redfield (No Jacket)", "", "", "Leon Kennedy (Tank Top)",
  "Claire Redfield (Cow Girl)", "Leon Kennedy (Leather)"]

/-- The items by number. -/
def items : List String := [
  "None", "Knife", "HandgunLeon", "HandgunClaire", "CustomHandgun", "Magnum", "CustomMagnum",
  "Shotgun", "CustomShotgun", "GrenadeLauncherExplosive", "GrenadeLauncherFlame",
  "GrenadeLauncherAcid", "Bowgun", "ColtSAA", "Sparkshot", "SMG", "Flamethrower",
  "RocketLauncher", "GatlingGun", "Beretta", "HandgunAmmo", "ShotgunAmmo", "MagnumAmmo",
  "FuelTank", "ExplosiveRounds", "FlameRounds", "AcidRounds", "SMGAmmo", "SparkshotAmmo",
  "BowgunAmmo", "InkRibbon", "SmallKey", "HandgunParts", "MagnumParts", "ShotgunParts",
  "FAidSpray", "AntivirusBomb", "ChemicalACw32", "HerbG", "HerbR", "HerbB", "HerbGG", "HerbGR",
  "HerbGB", "HerbGGG", "HerbGGB", "HerbGRB", "Lighter", "Lockpick", "PhotoSherry", "ValveHandle",
  "RedJewel", "RedCard", "BlueCard", "SerpentStone", "JaguarStone", "JaguarStoneL",
  "JaguarStoneR", "EagleStone", "BishopPlug", "RookPlug", "KnightPlug", "KingPlug",
  "WeaponBoxKey", "Detonator", "C4", "C4Detonator", "Crank", "FilmA", "FilmB", "FilmC",
  "UnicornMedal", "EagleMedal", "WolfMedal", "Cog", "ManholeOpener", "MainFuse", "FuseCase",
  "Vaccine", "VaccineCart", "FilmD", "VaccineBase", "GVirus", "SpecialKey", "JointPlugBlue",
  "JointPlugRed", "Cord", "PhotoAda", "CabinKey", "SpadeKey", "DiamondKey", "HeartKey", "ClubKey",
  "DownKey", "UpKey", "PowerRoomKey", "MODisk", "UmbrellaKeyCard", "MasterKey", "PlatformKey"]

def comparators : List String :=
  ["CMP_EQ", "CMP_GT", "CMP_GE", "CMP_LT", "CMP_LE", "CMP_NE"]

def operators : List String :=
  ["OP_ADD", "OP_SUB", "OP_MUL", "OP_DIV", "OP_MOD", "OP_OR",
    "OP_AND", "OP_XOR", "OP_NOT", "OP_LSL", "OP_LSR", "OP_ASR"]

/-- The bits of an actor mask.  The highest bit has no name and is written as a number. -/
def actorBits : List String :=
  ["SAT_PL", "SAT_EM", "SAT_SPL", "SAT_OB", "SAT_MANUAL", "SAT_FRONT", "SAT_UNDER", "0x80"]

def sceneEvents : List String :=
  ["SCE_AUTO", "SCE_DOOR", "SCE_ITEM", "SCE_NORMAL", "SCE_MESSAGE",
    "SCE_EVENT", "SCE_FLAG_CHG", "SCE_WATER", "SCE_MOVE", "SCE_SAVE",
    "SCE_ITEMBOX", "SCE_DAMAGE", "SCE_STATUS", "SCE_HIKIDASHI", "SCE_WINDOWS"]

def workKinds : List String :=
  ["WK_NONE", "WK_PLAYER", "WK_SPLAYER", "WK_ENEMY", "WK_OBJECT", "WK_DOOR", "WK_ALL"]

/-- The flag groups by number.  Empty entries have no name. -/
def flagGroups : List String :=
  ["FG_0", "FG_GAME", "FG_STATE", "FG_3", "FG_GENERAL", "FG_LOCAL", "FG_ENEMY", "FG_7", "FG_ITEM",
    "FG_9", "FG_A", "FG_INPUT", "", "", "", "", "", "", "", "", "", "", "", "", "", "", "", "", "",
    "FG_LOCK"]

/-- The named flags, by group and number within the group. -/
def flags : List ((Nat × Nat) × String) :=
  [((0, 0x19), "F_DIFFICULT"), ((1, 0), "F_PLAYER"), ((1, 1), "F_SCENARIO"), ((1, 5), "F_EASY"),
    ((1, 6), "F_BONUS"), ((1, 0x1B), "F_CUTSCENE"), ((0xB, 0x1F), "F_QUESTION")]

/-- The variables that have a name of their own. -/
def namedVariables : List (Nat × String) :=
  [(2, "V_USED_ITEM"), (16, "V_TEMP"), (26, "V_CUT"), (27, "V_LAST_RDT")]

/-! ## Names from display texts -/

/-- A letter or digit that can stand in a name as it is. -/
def isNameChar (c : Char) : Bool :=
  ('A' ≤ c && c ≤ 'Z') || ('0' ≤ c && c ≤ '9')

/-- Put name characters behind the reversed list `made`, with one underscore for every run of other
characters between them. -/
def nameChars (made : List Char) (gap : Bool) : List Char → List Char
  | [] => made.reverse
  | c :: rest =>
    if isNameChar c then
      nameChars (c :: if gap && !made.isEmpty then '_' :: made else made) false rest
    else nameChars made true rest

/-- The name of a display text: upper case, runs of other characters as one underscore, and a mark
in front.  A text without letters and digits has no name. -/
def displayName (mark text : String) : String :=
  match nameChars [] false (text.toList.map Char.toUpper) with
  | [] => ""
  | cs => mark ++ String.ofList cs

/-- The names of the enemies by number. -/
def enemyNames : Array String :=
  (enemies.map (displayName "ENEMY_")).toArray

/-- The names of the items by number. -/
def itemNames : Array String :=
  (items.map (displayName "ITEM_")).toArray

/-! ## From values to names -/

/-- The entry of a name list at a value, if it is there and not empty. -/
def entry? (names : Array String) (value : Int) : Option String :=
  if value < 0 then none else names[value.toNat]?.filter (· != "")

/-- The name of a flag within a group. -/
def flagName? (group index : Int) : Option String :=
  (flags.find? fun f => (f.1.1 : Int) = group ∧ (f.1.2 : Int) = index).map (·.2)

/-- The name of a variable: its own name or its number in hexadecimal. -/
def variableName? (value : Int) : Option String :=
  match namedVariables.find? fun v => (v.1 : Int) = value with
  | some v => some v.2
  | none => if value < 0 ∨ 0xFF < value then none else some ("V_" ++ Text.hex 2 value)

/-- The names of the bits of a mask, from the lowest bit on. -/
def bitNames : List String → Nat → List String
  | [], _ => []
  | name :: rest, n => if n % 2 = 1 then name :: bitNames rest (n / 2) else bitNames rest (n / 2)

/-- The name of an actor mask: the names of its bits, joined. -/
def actorMask? (value : Int) : Option String :=
  if value = 0 then some "SAT_AUTO"
  else if value < 0 ∨ 0xFF < value then none
  else some (" | ".intercalate (bitNames actorBits value.toNat))

/-- The name of a main procedure as an operand. -/
def procedureName? (value : Int) : Option String :=
  if value = 0 then some "main"
  else if value = 1 then some "aot"
  else if 0 < value ∧ value < 256 then some ("main_" ++ Text.hex 2 value)
  else none

/-- The name of a lock or item. -/
def lockName? (value : Int) : Option String :=
  if value = 255 then some "LOCKED"
  else if value = 254 then some "UNLOCK"
  else if value = 0 then some "UNLOCKED"
  else entry? itemNames value

/-- The name of a value of an operand with a signature character. -/
def valueName? (kind : Char) (value : Int) : Option String :=
  match kind with
  | '0' => some ("ID_AOT_" ++ Text.decimal 0 value)
  | '1' => some ("ID_OBJ_" ++ Text.decimal 0 value)
  | '2' => some ("ID_EM_" ++ Text.decimal 0 value)
  | '3' => some ("ID_MSG_" ++ Text.decimal 0 value)
  | 'e' => entry? enemyNames value
  | 't' | 'T' => lockName? value
  | 'c' => entry? comparators.toArray value
  | 'o' => entry? operators.toArray value
  | 's' => entry? sceneEvents.toArray value
  | 'a' => actorMask? value
  | 'w' => entry? workKinds.toArray value
  | 'g' => if value = gosub.toNat then some "I_GOSUB" else none
  | 'p' => procedureName? value
  | 'f' => entry? flagGroups.toArray value
  | 'v' => variableName? value
  | _ => none

/-! ## Operands named by their instruction -/

/-- What a value means under a rule. -/
inductive Meaning where
  /-- A flag of the group that the tag byte gives. -/
  | flag
  /-- A value of an operand with a signature character. -/
  | value (kind : Char)
  deriving DecidableEq, Repr

/-- One operand named by bytes of its instruction.  Offsets count from the first operand byte.  The
rule applies when the tag byte is one of `tags`, or anything if there are none, and when the byte
at `gosubAt`, if given, is the opcode of a call. -/
structure Rule where
  opcode : UInt8
  index : Nat
  tagAt : Nat
  tags : List UInt8 := []
  gosubAt : Option Nat := none
  valueAt : Nat
  meaning : Meaning
  deriving DecidableEq, Repr

/-- The tag bytes of the rules: a message, an event and a change of flags. -/
def tagMessage : UInt8 := 4
def tagEvent : UInt8 := 5
def tagFlagChange : UInt8 := 6

/-- The rules in the order they are tried. -/
def rules : List Rule := [
  { opcode := check, index := 1, tagAt := 0, valueAt := 1, meaning := .flag },
  { opcode := workSet, index := 1, tagAt := 0, tags := [3], valueAt := 1, meaning := .value '2' },
  { opcode := workSet, index := 1, tagAt := 0, tags := [4], valueAt := 1, meaning := .value '1' },
  { opcode := aotReset, index := 3, tagAt := 1, tags := [tagMessage], valueAt := 3,
    meaning := .value '3' },
  { opcode := aotReset, index := 5, tagAt := 1, tags := [tagEvent], valueAt := 5,
    meaning := .value 'g' },
  { opcode := aotReset, index := 5, tagAt := 1, tags := [tagFlagChange], valueAt := 5,
    meaning := .value 't' },
  { opcode := aotReset, index := 6, tagAt := 1, tags := [tagEvent], gosubAt := some 5, valueAt := 6,
    meaning := .value 'p' },
  { opcode := aotReset, index := 7, tagAt := 1, tags := [tagFlagChange], valueAt := 7,
    meaning := .value 'p' },
  { opcode := aotSet, index := 9, tagAt := 1, tags := [tagMessage], valueAt := 13,
    meaning := .value '3' },
  { opcode := aotSet, index := 11, tagAt := 1, tags := [tagEvent], valueAt := 15,
    meaning := .value 'g' },
  { opcode := aotSet, index := 11, tagAt := 1, tags := [tagFlagChange], valueAt := 15,
    meaning := .value 't' },
  { opcode := aotSet, index := 12, tagAt := 1, tags := [tagEvent, tagFlagChange],
    gosubAt := some 15, valueAt := 16, meaning := .value 'p' },
  { opcode := aotSet, index := 13, tagAt := 1, tags := [tagFlagChange], valueAt := 17,
    meaning := .value 'p' },
  { opcode := aotSet4p, index := 15, tagAt := 1, tags := [tagEvent], valueAt := 23,
    meaning := .value 'g' },
  { opcode := aotSet4p, index := 16, tagAt := 1, tags := [tagEvent], gosubAt := some 23,
    valueAt := 24, meaning := .value 'p' }]

/-- The rule is about this operand and its tag and call bytes fit; the tag byte is returned. -/
def Rule.tag? (r : Rule) (opcode : UInt8) (index : Int) (block : Cursor) : Option UInt8 :=
  if r.opcode = opcode ∧ (r.index : Int) = index then
    match block.peekAt? r.tagAt with
    | some tag =>
      if (r.tags.isEmpty || r.tags.contains tag) &&
          r.gosubAt.all fun place => block.peekAt? place == some gosub then some tag
      else none
    | none => none
  else none

/-- The name that a rule gives, once its tag byte is known. -/
def Rule.name? (r : Rule) (tag : UInt8) (block : Cursor) : Option String :=
  match block.peekAt? r.valueAt with
  | none => none
  | some value =>
    match r.meaning with
    | .flag => flagName? tag.toNat value.toNat
    | .value kind => valueName? kind value.toNat

/-- The name of an operand whose meaning depends on the bytes beside it: the first rule that
applies decides. -/
def instructionName? (opcode : UInt8) (index : Int) (block : Cursor) : Option String :=
  match rules.findSome? fun r => (r.tag? opcode index block).map fun tag => (r, tag) with
  | some (r, tag) => r.name? tag block
  | none => none

/-! ## From names to values -/

/-- The names with a fixed value. -/
def fixedSymbols : List (String × Int) :=
  [("LOCKED", 255), ("UNLOCK", 254), ("UNLOCKED", 0), ("I_GOSUB", 0x18), ("main", 0), ("aot", 1)]

/-- Which operands a name can belong to, by its beginning; the first that fits decides.  Flags have
no signature character. -/
def symbolFamilies : List (String × Option Char) :=
  [("ENEMY_", some 'e'), ("ITEM_", some 't'), ("CMP_", some 'c'), ("OP_", some 'o'),
    ("SCE_", some 's'), ("SAT_", some 'a'), ("WK_", some 'w'), ("FG_", some 'f'), ("F_", none),
    ("V_", some 'v'), ("main_", some 'p'), ("ID_AOT_", some '0'), ("ID_OBJ_", some '1'),
    ("ID_EM_", some '2'), ("ID_MSG_", some '3')]

/-- The least byte value with a name. -/
def namedValue? (kind : Char) (symbol : String) : Option Int :=
  ((List.range 256).find? fun (v : Nat) => valueName? kind v == some symbol).map Int.ofNat

/-- The number of the flag with a name, the groups being searched in order. -/
def flagValue? (symbol : String) : Option Int :=
  (List.range 32).findSome? fun (group : Nat) =>
    ((List.range 256).find? fun (index : Nat) => flagName? group index == some symbol).map Int.ofNat

/-- The value of a name, or of a text that is an integer literal. -/
def symbolValue? (symbol : String) : Option Int :=
  match fixedSymbols.lookup symbol with
  | some v => some v
  | none =>
    match Text.int32? symbol with
    | some v => some v
    | none =>
      match symbolFamilies.find? fun f => f.1.toList.isPrefixOf symbol.toList with
      | some (_, some kind) => namedValue? kind symbol
      | some (_, none) => flagValue? symbol
      | none => none

/-! ## All names -/

/-- A named operand value.  The kind of a flag is `F`, and only flags have a group other than
zero. -/
structure Symbol where
  kind : Char
  value : Nat
  name : String
  group : Nat := 0
  deriving DecidableEq, Repr

/-- The operand characters whose values have names, in the order they are listed; numbered names
are left out. -/
def symbolKinds : List Char :=
  ['e', 't', 'c', 'o', 's', 'w', 'g', 'p', 'f', 'v', 'a']

/-- The names of the byte values of an operand character. -/
def symbolsOf (kind : Char) : List Symbol :=
  (List.range 256).filterMap fun (v : Nat) =>
    (valueName? kind v).map fun name => { kind, value := v, name }

/-- The named flags by group and number. -/
def flagSymbols : List Symbol :=
  (List.range 32).flatMap fun (group : Nat) =>
    (List.range 256).filterMap fun (index : Nat) =>
      (flagName? group index).map fun name => { kind := 'F', value := index, name, group }

/-- Every name of a byte value, the flags last. -/
def symbols : List Symbol :=
  symbolKinds.flatMap symbolsOf ++ flagSymbols

end RoomScript.Opcode
