import RoomScript.Listings
import RoomScript.RoundTrip
import RoomScript.ScriptFile
import RoomScript.Session
import RoomScript.Text.Size

/-!
# Verifying script files

Every file is listed and assembled again; it passes when all of its procedures come back.  The
listings can be kept in a directory, and those of earlier runs be removed from it.
-/

namespace RoomScript.Verification

/-- Why verifying stops. -/
inductive Error where
  | loadingListings (dir : String) (e : Disk.LoadError)
  | file (e : ScriptFile.Error)
  | listing (e : Disk.Error)
  | keeping (dir : String) (e : Disk.SaveError)
  /-- So many of so many files did not pass. -/
  | failed (count all : Nat)

/-- The wording of an error. -/
def Error.message : Error → String
  | loadingListings dir e => "loading " ++ dir ++ ": " ++ e.message
  | file e => e.message
  | listing e => e.message
  | keeping dir e => "keeping listings in " ++ dir ++ ": " ++ e.message
  | failed count all => toString count ++ " of " ++ toString all ++ " files failed verification"

/-- What is verified, and where listings are kept. -/
structure Options where
  version : Version := .bio2
  /-- The kind of the procedures of raw chunks. -/
  kind : Kind := .main
  /-- The directory for listings; empty when they are not kept. -/
  keep : String := ""
  /-- Remove listings that the run has not written. -/
  prune : Bool := false

/-- A run of the verifier. -/
structure State where
  session : Session
  listings : Option Listings := none
  /-- The number of files that did not pass. -/
  failed : Nat := 0

namespace State

/-- Keep a listing, where listings are kept. -/
def keep (v : State) (file source : String) : Except Error State × Session :=
  match v.listings with
  | none => (.ok v, v.session)
  | some listings =>
    let (result, remarks) := listings.put (Listings.nameOf file) source
    let session := v.session.note .debug remarks
    match result with
    | .error e => (.error (.listing e), session)
    | .ok listings => (.ok { v with session, listings := some listings }, session)

/-- The line on a file that passed. -/
def passedLine (file : String) (procedures size : Nat) : String :=
  file ++ ": ok, " ++ toString procedures ++ " procedures, " ++ Text.byteSize size ++ "\n"

/-- Enter the report on a file. -/
def enter (v : State) (file : String) (size : Nat) (report : RoundTrip.Report) : State :=
  match report.failure with
  | some failure =>
    { v with session := v.session.note .error [failure.message], failed := v.failed + 1 }
  | none =>
    let session := v.session.report report.diagnostics
    if report.ok then { v with session := session.print (passedLine file report.procedures size) }
    else
      { v with
        session := session.print
          (String.join (report.mismatches.map fun m => file ++ ": " ++ m.message ++ "\n"))
        failed := v.failed + 1 }

/-- Verify one file. -/
def file (o : Options) (v : State) (path : String) : Except Error State × Session :=
  let (loaded, remarks) := ScriptFile.load v.session.tree path o.version o.kind
  let session := v.session.note .debug remarks
  match loaded with
  | .error e => (.error (.file e), session)
  | .ok script =>
    let report := RoundTrip.check script
    let session := (session.note .debug report.remarks).note .warning report.warning?.toList
    match { v with session }.keep path report.source with
    | (.error e, session) => (.error e, session)
    | (.ok v, session) => (.ok (v.enter path script.size report), session)

/-- Verify files up to the first that cannot be read or kept. -/
def files (o : Options) (v : State) : List String → Except Error State × Session
  | [] => (.ok v, v.session)
  | path :: rest =>
    match v.file o path with
    | (.error e, session) => (.error e, session)
    | (.ok v, _) => v.files o rest

/-- Save the listings, without those of earlier runs if that is wanted. -/
def save (o : Options) (v : State) (listings : Listings) : Option Error × Session :=
  let pruned := if o.prune then listings.prune else .ok listings
  match pruned with
  | .error e => (some (.listing e), v.session)
  | .ok kept =>
    let session :=
      if o.prune then v.session.note .info (listings.stale.map Listings.staleRemark) else v.session
    match kept.disk.persist session.tree o.keep with
    | (none, _, tree) => (none, { session with tree })
    | (some e, _, tree) => (some (.keeping o.keep e), { session with tree })

end State

/-- Begin a run, with the listings that are there already. -/
def start (o : Options) (s : Session) : Except Error State × Session :=
  if o.keep = "" then (.ok { session := s }, s)
  else
    let loading := Disk.load {} s.tree o.keep
    let session := s.note .debug loading.remarks
    match loading.error with
    | some e => (.error (.loadingListings o.keep e), session)
    | none => (.ok { session, listings := some { disk := loading.disk } }, session)

/-- Verify files. -/
def run (o : Options) (paths : List String) (s : Session) : Option Error × Session :=
  match start o s with
  | (.error e, s) => (some e, s)
  | (.ok v, _) =>
    match v.files o paths with
    | (.error e, s) => (some e, s)
    | (.ok v, s) =>
      let (saving, s) := match v.listings with
        | none => (none, s)
        | some listings => v.save o listings
      match saving with
      | some e => (some e, s)
      | none => (if v.failed = 0 then none else some (.failed v.failed paths.length), s)

end RoomScript.Verification
