import RoomScript.Assembly
import RoomScript.Disk
import RoomScript.Listing

/-!
# Listing and assembling again

A script is checked by listing it, assembling the text, and comparing every procedure with the
bytes it had.
-/

namespace RoomScript.RoundTrip

/-- The first place from `offset` on where two byte strings differ. -/
def firstDifferenceFrom (offset : Nat) : List UInt8 → List UInt8 → Option Nat
  | [], [] => none
  | a :: as, b :: bs => if a = b then firstDifferenceFrom (offset + 1) as bs else some offset
  | _, _ => some offset

/-- The first place where two byte strings differ; the shorter length when one begins with the
other. -/
def firstDifference? (a b : List UInt8) : Option Nat :=
  firstDifferenceFrom 0 a b

/-- A procedure that came back different. -/
structure Mismatch where
  kind : Kind
  index : Int
  offset : Nat := 0
  deriving DecidableEq, Repr

/-- The wording of a mismatch. -/
def Mismatch.message (m : Mismatch) : String :=
  m.kind.name ++ " procedure " ++ Text.decimal 0 m.index ++ " differs at offset 0x" ++
    Text.hex 4 m.offset

/-- Why the text could not be assembled. -/
inductive Failure where
  /-- The text could not be stored. -/
  | storing (e : Disk.Error)
  /-- The text has faults. -/
  | assembling (faults : List Diagnostic)
  deriving DecidableEq, Repr

/-- The wording of a failure. -/
def Failure.message : Failure → String
  | storing e => e.message
  | assembling faults =>
    "reassembling disassembly: " ++ (Diagnostic.summary? faults).getD ""

/-- What a check found. -/
structure Report where
  /-- The listing. -/
  source : String
  /-- The number of procedures checked. -/
  procedures : Nat
  mismatches : List Mismatch := []
  /-- Reports on the bytecode. -/
  diagnostics : List Diagnostic := []
  failure : Option Failure := none
  /-- Remarks of the assembler. -/
  remarks : List String := []
  /-- The number of procedures that came back, when it is not the number that went in. -/
  miscount : Option Nat := none

namespace Report

/-- Whether every procedure came back with the same bytes. -/
def ok (r : Report) : Bool :=
  r.mismatches.isEmpty

/-- The warning that the number of procedures has changed. -/
def warning? (r : Report) : Option String :=
  r.miscount.map fun n =>
    "round trip produced " ++ toString n ++ " procedures, expected " ++ toString r.procedures

end Report

/-- The name of the text while it is assembled. -/
def sourceName : String := "roundtrip.s"

/-- Compare one procedure with what came back. -/
def mismatch? (back : Script) (p : Procedure) : Option Mismatch :=
  match back.find? p.kind p.index with
  | none => some { kind := p.kind, index := p.index }
  | some q =>
    (firstDifference? p.data q.data).map fun offset => { kind := p.kind, index := p.index, offset }

/-- Check a script. -/
def check (s : Script) : Report :=
  let source := Listing.script {} s
  let report : Report :=
    { source, procedures := s.procedures.length, diagnostics := Listing.diagnostics s }
  match Disk.write {} sourceName source.toUTF8 with
  | .error e => { report with failure := some (.storing e) }
  | .ok disk =>
    let outcome := Assembly.assembleFile disk.library sourceName []
    let report := { report with remarks := outcome.remarks }
    match outcome.result with
    | .error faults => { report with failure := some (.assembling faults) }
    | .ok back =>
      { report with
        mismatches := s.procedures.filterMap (mismatch? back)
        miscount :=
          if back.procedures.length = s.procedures.length then none
          else some back.procedures.length }

end RoomScript.RoundTrip
