import RoomScript.Verification
import RoomScript.Proofs.Disk.Saved
import RoomScript.Proofs.Listings
import RoomScript.Proofs.RoundTrip

/-!
# Listings that a verification keeps

A run of the verifier puts the listings of its files on a disk, on top of what the directory for
them holds, and saves the disk there.  It is looked at here under any conditions that the save may
meet, on file trees, which have no links.

* `runUnder` is the run, and `runUnder_of_passed` takes one apart that has come to its end;
* `directory_of_runUnder` says what the directory holds then, what else is in the tree, and which
  names the save has called for;
* `run_behind` is a run that fails to see the directory it saves to, and leaves an older listing
  there that it was to remove.
-/

namespace RoomScript

namespace Disk

/-- What is loaded counts as saved. -/
theorem unsaved_load (t : FileTree) (dir : String) : (load {} t dir).disk.unsaved = [] := by
  have step : ∀ (l : Loading) (entry : List String × ByteArray), l.disk.unsaved = [] →
      (l.file dir entry).disk.unsaved = [] := by
    intro l entry new
    rcases l.file_cases dir entry with ⟨-, same⟩ | ⟨-, -, remarks, same⟩ | ⟨-, -, e, -, same⟩ |
      ⟨-, disk, written, stored⟩
    · rwa [same]
    · rwa [same]
    · rwa [same]
    · obtain ⟨-, -, rfl⟩ := write_eq_ok_iff.1 written
      rw [stored]
      simp [saved, Disk.stored, new, mark, unmark]
  obtain ⟨files, fault, same⟩ := exists_load_eq {} t dir
  rw [same]
  exact List.foldlRecOn (motive := fun l : Loading => l.disk.unsaved = []) files _ rfl
    fun l new entry _ => step l entry new

end Disk

namespace Verification

open Disk (isName)
open Listings (IsListing)

/-! ## Runs -/

/-- Save listings under conditions. -/
def State.saveUnder (c : Disk.Conditions) (o : Options) (v : State) (listings : Listings) :
    Option Error × Session :=
  let pruned := if o.prune then listings.prune else .ok listings
  match pruned with
  | .error e => (some (.listing e), v.session)
  | .ok kept =>
    let session :=
      if o.prune then v.session.note .info (listings.stale.map Listings.staleRemark) else v.session
    match kept.disk.persistUnder c session.tree o.keep with
    | (none, _, tree) => (none, { session with tree })
    | (some e, _, tree) => (some (.keeping o.keep e), { session with tree })

/-- Verify files, where the listings are saved under conditions. -/
def runUnder (c : Disk.Conditions) (o : Options) (paths : List String) (s : Session) :
    Option Error × Session :=
  match start o s with
  | (.error e, s) => (some e, s)
  | (.ok v, _) =>
    match v.files o paths with
    | (.error e, s) => (some e, s)
    | (.ok v, s) =>
      let (saving, s) := match v.listings with
        | none => (none, s)
        | some listings => v.saveUnder c o listings
      match saving with
      | some e => (some e, s)
      | none => (if v.failed = 0 then none else some (.failed v.failed paths.length), s)

theorem run_eq_runUnder (o : Options) (paths : List String) (s : Session) :
    run o paths s = runUnder {} o paths s :=
  rfl

/-- A run has come to its end: it has listed all its files and kept the listings, whether or not the
files have passed. -/
def Passed (error : Option Error) : Prop :=
  ∀ e ∈ error, ∃ count all, e = .failed count all

/-! ## Files -/

/-- The name and the text of the listing of a script file, if it can be read. -/
def listing? (o : Options) (t : FileTree) (path : String) : Option (String × String) :=
  match (ScriptFile.load t path o.version o.kind).1 with
  | .ok script => some (Listings.nameOf path, Listing.script {} script)
  | .error _ => none

theorem fst_of_listing? {o : Options} {t : FileTree} {path : String} {entry : String × String}
    (listed : listing? o t path = some entry) : entry.1 = Listings.nameOf path := by
  unfold listing? at listed
  split at listed
  · rw [← Option.some.inj listed]
  · cases listed

namespace State

variable {o : Options} {v v' : State} {l : Listings} {s' : Session}

theorem enter_eq (v : State) (file : String) (size : ℕ) (report : RoundTrip.Report) :
    (v.enter file size report).listings = v.listings ∧
      (v.enter file size report).session.tree = v.session.tree := by
  unfold enter
  split
  · exact ⟨rfl, rfl⟩
  · dsimp only
    split <;> exact ⟨rfl, rfl⟩

/-- What verifying a file comes to, where listings are kept: it cannot be read, its listing cannot
be put, or the listing is put. -/
theorem file_cases (keeping : v.listings = some l) (path : String) :
    (listing? o v.session.tree path = none ∧ ∃ e s', v.file o path = (.error (.file e), s')) ∨
    ∃ entry, listing? o v.session.tree path = some entry ∧
      ((∃ e s', (l.put entry.1 entry.2).1 = .error e ∧
          v.file o path = (.error (.listing e), s')) ∨
        ∃ l' v' s', (l.put entry.1 entry.2).1 = .ok l' ∧ v.file o path = (.ok v', s') ∧
          v'.listings = some l' ∧ v'.session.tree = v.session.tree) := by
  unfold file listing?
  generalize ScriptFile.load v.session.tree path o.version o.kind = result
  obtain ⟨e | script, remarks⟩ := result
  · exact .inl ⟨rfl, e, _, rfl⟩
  · simp only [keep, keeping, ← RoundTrip.source_check]
    generalize RoundTrip.check script = report
    generalize Listings.nameOf path = name
    refine .inr ⟨(name, report.source), rfl, ?_⟩
    rcases l.put name report.source with ⟨e | l', more⟩
    · exact .inl ⟨e, _, rfl, rfl⟩
    · exact .inr ⟨l', _, _, rfl, rfl, (enter_eq _ _ _ _).1, (enter_eq _ _ _ _).2⟩

/-- What verifying files comes to, where listings are kept. -/
theorem files_cases (keeping : v.listings = some l) (paths : List String) :
    (∃ e s', v.files o paths = (.error e, s') ∧ ∀ count all, e ≠ .failed count all) ∨
    ∃ v' s' entries l', v.files o paths = (.ok v', s') ∧
      paths.map (listing? o v.session.tree) = entries.map some ∧ l.putAll entries = .ok l' ∧
      v'.listings = some l' ∧ v'.session.tree = v.session.tree := by
  induction paths generalizing v l with
  | nil => exact .inr ⟨v, v.session, [], l, rfl, rfl, rfl, keeping, rfl⟩
  | cons path paths ih =>
    rw [files]
    rcases file_cases keeping path with ⟨-, e, s', next⟩ | ⟨entry, listed, ⟨e, s', -, next⟩ |
      ⟨l₁, v₁, s₁, put, next, keeping₁, tree₁⟩⟩ <;> rw [next]
    · exact .inl ⟨_, s', rfl, fun _ _ => by rintro ⟨⟩⟩
    · exact .inl ⟨_, s', rfl, fun _ _ => by rintro ⟨⟩⟩
    · rcases ih keeping₁ with stopped | ⟨v', s', entries, l', ran, all, puts, keeping', tree'⟩
      · exact .inl stopped
      · refine .inr ⟨v', s', entry :: entries, l', ran, ?_, ?_, keeping', tree'.trans tree₁⟩
        · rw [List.map_cons, listed, ← tree₁, all, List.map_cons]
        · rw [Listings.putAll, List.foldlM_cons, put]
          exact puts

/-- Files are verified when they can be read and their listings be put. -/
theorem exists_files_of_putAll {paths : List String} {entries : List (String × String)}
    (keeping : v.listings = some l)
    (all : paths.map (listing? o v.session.tree) = entries.map some)
    {l' : Listings} (puts : l.putAll entries = .ok l') :
    ∃ v' s', v.files o paths = (.ok v', s') ∧ v'.listings = some l' ∧
      v'.session.tree = v.session.tree := by
  induction paths generalizing v l entries with
  | nil =>
    obtain rfl := List.map_eq_nil_iff.1 all.symm
    cases puts
    exact ⟨v, v.session, rfl, keeping, rfl⟩
  | cons path paths ih =>
    obtain ⟨entry, rest, rfl, own, later⟩ := List.map_eq_cons_iff.1 all.symm
    rw [Listings.putAll, List.foldlM_cons] at puts
    rw [files]
    rcases file_cases keeping path with ⟨none, -⟩ | ⟨entry', listed, ⟨e, s', put, -⟩ |
      ⟨l₁, v₁, s₁, put, next, keeping₁, tree₁⟩⟩
    · rw [none] at own
      cases own
    · cases own.trans listed
      rw [put] at puts
      cases puts
    · cases own.trans listed
      rw [put] at puts
      rw [next]
      obtain ⟨v', s', ran, keeping', tree'⟩ := ih keeping₁ (by rw [tree₁, later]) puts
      exact ⟨v', s', ran, keeping', tree'.trans tree₁⟩

end State

/-- The state in which a run begins that keeps listings. -/
def begun (o : Options) (s : Session) : State :=
  { session := s.note .debug (Disk.load {} s.tree o.keep).remarks,
    listings := some { disk := (Disk.load {} s.tree o.keep).disk } }

theorem start_eq_begun {o : Options} {s : Session} (given : o.keep ≠ "")
    (fine : (Disk.load {} s.tree o.keep).error = none) :
    start o s = (.ok (begun o s), (begun o s).session) := by
  rw [start, if_neg given]
  simp only [fine]
  rfl

/-- Saving comes to what saving the disk comes to, when nothing goes wrong with pruning. -/
theorem State.exists_saveUnder_eq {o : Options} {v : State} {l kept : Listings}
    (pruned : (if o.prune then l.prune else .ok l) = .ok kept) :
    ∃ session : Session, ∀ c, v.saveUnder c o l =
      match kept.disk.persistUnder c v.session.tree o.keep with
      | (none, _, tree) => (none, { session with tree })
      | (some e, _, tree) => (some (.keeping o.keep e), { session with tree }) := by
  refine ⟨if o.prune then v.session.note .info (l.stale.map Listings.staleRemark) else v.session,
    fun c => ?_⟩
  have tree : (if o.prune then v.session.note .info (l.stale.map Listings.staleRemark)
      else v.session).tree = v.session.tree := by
    split_ifs <;> rfl
  simp only [saveUnder, pruned, tree]

/-! ## Runs that come to their end -/

section Run

variable {c : Disk.Conditions} {o : Options} {paths : List String} {s s' : Session}
  {error : Option Error} (given : o.keep ≠ "") (ran : runUnder c o paths s = (error, s'))
  (passed : Passed error)
include given ran passed

/-- A run that comes to its end has loaded the directory, listed every file, and put, pruned and
saved the listings; and it depends on the conditions through its save alone. -/
theorem runUnder_of_passed :
    (Disk.load {} s.tree o.keep).error = none ∧ ∃ entries l kept,
      paths.map (listing? o s.tree) = entries.map some ∧
      Listings.putAll { disk := (Disk.load {} s.tree o.keep).disk } entries = .ok l ∧
      (if o.prune then l.prune else .ok l) = .ok kept ∧
      (∃ d', kept.disk.persistUnder c s.tree o.keep = (none, d', s'.tree)) ∧
      ∀ c' : Disk.Conditions, kept.disk.persistUnder c' s.tree o.keep =
        kept.disk.persistUnder c s.tree o.keep → runUnder c' o paths s = runUnder c o paths s := by
  cases loaded : (Disk.load {} s.tree o.keep).error with
  | some e =>
    rw [runUnder, start, if_neg given] at ran
    simp only [loaded] at ran
    cases ran
    obtain ⟨count, all, same⟩ := passed _ rfl
    cases same
  | none =>
    rw [runUnder, start_eq_begun given loaded] at ran
    rcases State.files_cases (v := begun o s) (o := o) rfl paths with ⟨e, s₁, stopped, other⟩ |
      ⟨v', s₁, entries, l, next, all, puts, keeping, tree⟩
    · simp only [stopped] at ran
      cases ran
      obtain ⟨count, all, same⟩ := passed _ rfl
      exact absurd same (other count all)
    · simp only [next, keeping] at ran
      cases pruned : (if o.prune then l.prune else .ok l) with
      | error e =>
        simp only [State.saveUnder, pruned] at ran
        cases ran
        obtain ⟨count, all, same⟩ := passed _ rfl
        cases same
      | ok kept =>
        obtain ⟨session, saves⟩ := State.exists_saveUnder_eq (v := v') pruned
        have origin : v'.session.tree = s.tree := tree
        rw [origin] at saves
        simp only [saves] at ran
        refine ⟨rfl, entries, l, kept, all, puts, pruned, ?_, fun c' same => ?_⟩
        · rcases saved : kept.disk.persistUnder c s.tree o.keep with ⟨_ | e, d', ends⟩ <;>
            simp only [saved] at ran <;> cases ran
          · exact ⟨d', rfl⟩
          · obtain ⟨count, all, same⟩ := passed _ rfl
            cases same
        · simp only [runUnder, start_eq_begun given loaded, next, keeping, saves, same]

omit given ran passed in
/-- The names that a run saves: those of listings whose text is not there already for one of the
files with that name, and those of older listings that are removed. -/
def Touched (o : Options) (t : FileTree) (entries : List (String × String)) (name : String) : Prop :=
  (∃ text, (name, text) ∈ entries ∧
    t.fileAt? (t.placeOf o.keep ++ [name]) ≠ some text.toUTF8) ∨
  o.prune = true ∧ IsListing name ∧ name ∉ entries.map Prod.fst ∧
    t.fileAt? (t.placeOf o.keep ++ [name]) ≠ none

/-- **The directory of listings is exact after a run.**  A run has come to its end, there are no
links in the tree, and before the run the path of the directory showed what stands there.  Then the
path leads to that directory, and the names that listings can have are taken by the listings of this
run, each with the text for the last file of that name; others are gone where older listings are
removed, and are as they were otherwise.
No other file in the tree has changed.  What calls of the save would have come to for names that are
not touched makes no difference to the run: so a listing is not written whose text was there already
for every file with that name. -/
theorem directory_of_runUnder (honest : c.Honest) (valid : s.tree.Valid)
    (home : s.tree.node? s.tree.workingDir = some .directory) (shows : s.tree.Shows o.keep) :
    s'.tree.follow o.keep = .ok (.found (s.tree.placeOf o.keep) .directory) ∧
    ∃ entries, paths.map (listing? o s.tree) = entries.map some ∧
      (∀ entry ∈ entries, IsListing entry.1) ∧
      (∀ name, IsListing name → s'.tree.fileAt? (s.tree.placeOf o.keep ++ [name]) =
        match entries.reverse.lookup name with
        | some text => some text.toUTF8
        | none => if o.prune then none else s.tree.fileAt? (s.tree.placeOf o.keep ++ [name])) ∧
      (∀ place, (∀ name, IsListing name → place ≠ s.tree.placeOf o.keep ++ [name]) →
        s'.tree.fileAt? place = s.tree.fileAt? place) ∧
      ∀ host : String → Disk.Host,
        (∀ name, Touched o s.tree entries name → (host name).Same o.keep name (c.host name)) →
        runUnder { c with host } o paths s = runUnder c o paths s := by
  obtain ⟨fine, entries, l, kept, all, puts, pruned, ⟨d', saved⟩, depends⟩ :=
    runUnder_of_passed given ran passed
  have accounted : (Disk.load {} s.tree o.keep).disk.Accounted := by
    obtain ⟨files, fault, same⟩ := Disk.exists_load_eq {} s.tree o.keep
    rw [same]
    exact Disk.Accounted.empty.loadFiles o.keep files fault
  have settled : Listings.Settled entries o.prune (Disk.load {} s.tree o.keep).disk kept.disk :=
    Listings.settled_of_gained rfl (Disk.unsaved_load _ _)
      (Listings.gained_of_putAll accounted puts) pruned
  have held : ∀ name, isName name = true → (Disk.load {} s.tree o.keep).disk.find? name =
      s.tree.fileAt? (s.tree.placeOf o.keep ++ Path.pieces name) := fun name named =>
    (Disk.find?_load valid fine named).trans (shows name named)
  -- The names of this run's listings are such names.
  have listing : ∀ entry ∈ entries, IsListing entry.1 := by
    intro entry mem
    have listed : some entry ∈ paths.map (listing? o s.tree) := by
      rw [all]
      exact List.mem_map_of_mem mem
    obtain ⟨path, -, own⟩ := List.mem_map.1 listed
    have named := settled.valid entry mem
    rw [fst_of_listing? own] at named ⊢
    exact Listings.isListing_nameOf named
  have touched : ∀ name ∈ kept.disk.unsaved, IsListing name ∧ Touched o s.tree entries name := by
    intro name mem
    rcases settled.marked name mem with ⟨text, here, other⟩ | ⟨prune, own, other, present⟩
    · have own := listing _ here
      rw [held name own.valid, own.pieces] at other
      exact ⟨own, .inl ⟨text, here, other⟩⟩
    · rw [held name own.valid, own.pieces] at present
      exact ⟨own, .inr ⟨prune, own, other, present⟩⟩
  refine ⟨?_, entries, all, listing, fun name own => ?_, fun place apart => ?_,
    fun host same => ?_⟩
  · refine Disk.follow_of_persistUnder honest valid home saved settled.accounted
      fun name mem gone => ?_
    rw [← held name (touched name mem).1.valid]
    exact settled.find?_ne_none_of_removed mem gone
  · have after := Disk.fileAt?_of_persistUnder honest valid home saved settled.accounted
      (fun name named unmarked => (settled.unmarked name unmarked).trans (held name named))
      own.valid
    rw [settled.find?_of_isListing own, held name own.valid, own.pieces] at after
    exact after
  · have keeps : FileTree.Keeps (kept.disk.Marked (s.tree.placeOf o.keep)) s.tree
        (kept.disk.persistUnder c s.tree o.keep).2.2 :=
      (Disk.keeps_persistUnder honest settled.accounted.marked valid home).2
    rw [saved] at keeps
    refine keeps.file place ?_
    rintro ⟨name, mem, same⟩
    have own := (touched name mem).1
    rw [own.pieces] at same
    exact apart name own same
  · exact depends _ (Disk.persistUnder_congr kept.disk s.tree rfl rfl fun name mem =>
      same name (touched name mem).2)

end Run

/-! ## Two directories -/

/-- A run comes to its end when its directory can be loaded, its files be listed, and its listings
be put, pruned and saved. -/
theorem exists_runUnder_of_saved {c : Disk.Conditions} {o : Options} {paths : List String}
    {s : Session} {entries : List (String × String)} {l kept : Listings} {d' : Disk}
    {t' : FileTree} (given : o.keep ≠ "") (fine : (Disk.load {} s.tree o.keep).error = none)
    (all : paths.map (listing? o s.tree) = entries.map some)
    (puts : Listings.putAll { disk := (Disk.load {} s.tree o.keep).disk } entries = .ok l)
    (pruned : (if o.prune then l.prune else .ok l) = .ok kept)
    (saved : kept.disk.persistUnder c s.tree o.keep = (none, d', t')) :
    ∃ error s', runUnder c o paths s = (error, s') ∧ Passed error ∧ s'.tree = t' := by
  obtain ⟨v', s₁, ran, keeping, tree⟩ :=
    State.exists_files_of_putAll (v := begun o s) (o := o) rfl all puts
  obtain ⟨session, saves⟩ := State.exists_saveUnder_eq (v := v') pruned
  have origin : v'.session.tree = s.tree := tree
  rw [origin] at saves
  simp only [runUnder, start_eq_begun given fine, ran, keeping, saves, saved]
  refine ⟨_, _, rfl, fun e mem => ?_, rfl⟩
  split_ifs at mem
  · cases mem
  · cases mem
    exact ⟨_, _, rfl⟩

/-- A raw chunk, and a directory with a listing of an earlier run. -/
def earlier : Session :=
  { tree := { nodes := [(["y"], .directory), (["y", "old.s"], .file "nop\n".toUTF8),
      (["raw.scd"], .file [2, 0, 1, 0].toByteArray)] } }

theorem valid_earlier : earlier.tree.Valid where
  distinct := by decide
  below := by decide
  entries := by decide
  parents := by
    intro e mem
    fin_cases mem <;> rfl

/-- The listing of the chunk. -/
def rawText : String :=
  ".version 2\n\n.main\n\n.proc main\nevt_end 0\n"

theorem listing_raw (o : Options) (version : o.version = .bio2) (kind : o.kind = .main) :
    ["raw.scd"].map (listing? o earlier.tree) = [("raw.s", rawText)].map some := by
  let script : Script := ScriptFile.ofProcedures .bio2 .main [[1, 0]]
  have loaded : (ScriptFile.load earlier.tree "raw.scd" .bio2 .main).1 = .ok script := by
    have read : earlier.tree.read "raw.scd" = .ok [2, 0, 1, 0].toByteArray := rfl
    have plain : Bundle.isBundle ([2, 0, 1, 0].toByteArray.extract 0 4).toList = false := by
      decide +kernel
    have whole : [2, 0, 1, 0].toByteArray.toList = [2, 0, 1, 0] := by decide +kernel
    have split : Chunk.split [2, 0, 1, 0] = .ok [[1, 0]] := by decide
    rw [ScriptFile.load, read]
    simp only [ScriptFile.ofBytes, plain, whole, split]
    rfl
  have name : Listings.nameOf "raw.scd" = "raw.s" := by decide +kernel
  have text : Listing.script {} script = rawText := by decide +kernel
  rw [List.map_singleton, listing?, version, kind, loaded, name, ← text]
  rfl

theorem put_raw {d : Disk} (fresh : d.find? "raw.s" = none) (small : d.used ≤ 1000) :
    Listings.putAll { disk := d } [("raw.s", rawText)] =
      .ok { disk := d.stored "raw.s" rawText.toUTF8, written := ["raw.s"] } := by
  have size : rawText.toUTF8.size ≤ 1000 := by decide +kernel
  have write : d.write "raw.s" rawText.toUTF8 = .ok (d.stored "raw.s" rawText.toUTF8) := by
    refine Disk.write_eq_ok_iff.2 ⟨by decide, ?_, rfl⟩
    have quota : Disk.quota = 64 * 1024 * 1024 := rfl
    omega
  simp only [Listings.putAll, List.foldlM_cons, List.foldlM_nil, Listings.put, fresh,
    Option.any_none, write]
  rfl

/-- The directory itself is given. -/
def beside : Options :=
  { keep := "y", prune := true }

theorem load_beside : (Disk.load {} earlier.tree beside.keep).error = none ∧
    (Disk.load {} earlier.tree beside.keep).disk =
      { files := [("old.s", "nop\n".toUTF8)], used := 4 } := by
  have files : earlier.tree.filesBelow ["y"] = [(["old.s"], "nop\n".toUTF8)] :=
    List.mergeSort_singleton _
  have follows : earlier.tree.follow beside.keep = .ok (.found ["y"] .directory) := rfl
  rw [Disk.load_of_follow _ follows, files]
  exact ⟨rfl, rfl⟩

theorem passed_beside : ∃ error s',
    runUnder Disk.unordered beside ["raw.scd"] earlier = (error, s') ∧ Passed error := by
  let d : Disk := { files := [("old.s", "nop\n".toUTF8)], used := 4 }
  let l : Listings := { disk := d.stored "raw.s" rawText.toUTF8, written := ["raw.s"] }
  let kept : Disk := l.disk.removed "old.s"
  let t : FileTree := earlier.tree.erase ["y", "old.s"]
  let t' : FileTree := t.set ["y", "raw.s"] (.file rawText.toUTF8)
  have pruned : l.prune = .ok { l with disk := kept } := by
    have names : l.disk.names = ["old.s", "raw.s"] := List.mergeSort_of_pairwise (by decide)
    have old : l.isStale "old.s" = true :=
      (Listings.isStale_iff (by decide)).2 ⟨⟨by decide, by decide, by decide⟩, by decide⟩
    have raw : l.isStale "raw.s" = false := by decide
    have stale : l.stale = ["old.s"] := by
      simp only [Listings.stale, names, List.filter_cons, List.filter_nil, old, raw, if_true,
        Bool.false_eq_true, if_false]
    have deleted : l.disk.delete "old.s" = .ok kept :=
      Disk.delete_eq_ok_iff.2 ⟨by decide, by decide, rfl⟩
    simp only [Listings.prune, stale, List.foldlM_cons, List.foldlM_nil, deleted]
    rfl
  have saved : ∃ d', kept.persistUnder Disk.unordered earlier.tree beside.keep =
      (none, d', t') := by
    have directory : Disk.unordered.directory = {} := rfl
    have host : ∀ name, Disk.unordered.host name = {} := fun _ => rfl
    have order : Disk.unordered.order kept.unsaved = ["raw.s", "old.s"] := rfl
    have made : earlier.tree.makeDirs beside.keep = (none, earlier.tree) :=
      FileTree.makeDirs_of_stat rfl
    have above : Path.dir (Path.join [beside.keep, "raw.s"]) = "y" := by decide
    have target : Path.join [beside.keep, "raw.s"] = "y/raw.s" := by decide
    have old : Path.join [beside.keep, "old.s"] = "y/old.s" := by decide
    have found : kept.find? "raw.s" = some rawText.toUTF8 := rfl
    have gone : kept.find? "old.s" = none := rfl
    have removed : ∀ disk, ({ disk, tree := earlier.tree } : Disk.Saving).removeOne {} beside.keep
        "old.s" = { disk, tree := t } := fun disk => by
      rw [Disk.Saving.removeOne, old]
      rfl
    have written : ∀ disk, ({ disk, tree := t } : Disk.Saving).writeOne {} beside.keep
        ("raw.s", rawText.toUTF8) = { disk, tree := t' } := fun disk =>
      Disk.Saving.writeOne_of_stat (by rw [above]; rfl) (by rw [target]; rfl)
    simp only [Disk.persistUnder, directory, host, made, order, Disk.contains, found, gone,
      List.filter_cons, List.filter_nil, List.filterMap_cons, List.filterMap_nil, Option.map_some,
      Option.map_none, List.foldl_cons, List.foldl_nil, Option.isSome_some, Option.isSome_none,
      Bool.not_true, Bool.not_false, if_true, Bool.false_eq_true, if_false, removed, written]
    exact ⟨_, rfl⟩
  obtain ⟨d', saved⟩ := saved
  obtain ⟨fine, loaded⟩ := load_beside
  have puts : Listings.putAll { disk := (Disk.load {} earlier.tree beside.keep).disk }
      [("raw.s", rawText)] = .ok l := by
    rw [loaded]
    exact put_raw rfl (by decide)
  obtain ⟨error, s', ran, passed, -⟩ := exists_runUnder_of_saved (by decide) fine
    (listing_raw beside rfl rfl) puts pruned saved
  exact ⟨error, s', ran, passed⟩

/-- The listing of the chunk takes the place of the older one. -/
theorem directory_of_runUnder_beside : ∃ error s',
    runUnder Disk.unordered beside ["raw.scd"] earlier = (error, s') ∧ Passed error ∧
      s'.tree.follow "y" = .ok (.found ["y"] .directory) ∧
      s'.tree.fileAt? ["y", "raw.s"] = some rawText.toUTF8 ∧
      s'.tree.fileAt? ["y", "old.s"] = none := by
  obtain ⟨error, s', ran, passed⟩ := passed_beside
  have steady : earlier.tree.Steady beside.keep := FileTree.steady_of_notMem _ (by decide)
  have shows : earlier.tree.Shows beside.keep := FileTree.shows_of_steadyFrom valid_earlier
    (steady.steadyFrom (FileTree.Keeps.refl _ _)) ⟨by decide, by decide, by decide⟩
  obtain ⟨follows, entries, all, -, listed, -⟩ := directory_of_runUnder (by decide) ran passed
    Disk.honest_unordered valid_earlier rfl shows
  have own : entries = [("raw.s", rawText)] :=
    List.map_injective_iff.2 (Option.some_injective _) (all.symm.trans (listing_raw beside rfl rfl))
  subst own
  exact ⟨error, s', ran, passed, follows, listed "raw.s" ⟨by decide, by decide, by decide⟩,
    listed "old.s" ⟨by decide, by decide, by decide⟩⟩

/-- The directory is given behind a segment that is missing. -/
def behind : Options :=
  { keep := "x/../y", prune := true }

/-- **An older listing is left in a directory that is seen too late.**  The run is told to remove
older listings, and comes to its end without a fault.  But when it looks for them, the path does not
lead to their directory: it takes the directory for a new one, and an older listing stays beside the
one it saves. -/
theorem run_behind : ∃ error s',
    run behind ["raw.scd"] earlier = (error, s') ∧ Passed error ∧
      s'.tree.follow "x/../y" = .ok (.found ["y"] .directory) ∧
      IsListing "old.s" ∧ "old.s" ∉ ["raw.scd"].map Listings.nameOf ∧
      s'.tree.fileAt? ["y", "old.s"] = some "nop\n".toUTF8 := by
  let l : Listings := { disk := Disk.stored {} "raw.s" rawText.toUTF8, written := ["raw.s"] }
  let t : FileTree := earlier.tree.set ["x"] .directory
  let t' : FileTree := t.set ["y", "raw.s"] (.file rawText.toUTF8)
  have pruned : l.prune = .ok l := by
    have names : l.disk.names = ["raw.s"] := List.mergeSort_singleton _
    have stale : l.stale = [] := by
      rw [Listings.stale, names]
      decide
    rw [Listings.prune, stale]
    rfl
  have saved : ∃ d', l.disk.persistUnder {} earlier.tree behind.keep = (none, d', t') := by
    have made : earlier.tree.makeDirs behind.keep = (none, t) :=
      Disk.makeDirs_behind rfl rfl rfl rfl rfl
    have order : Disk.sorted l.disk.unsaved = ["raw.s"] := List.mergeSort_singleton _
    have above : Path.dir (Path.join [behind.keep, "raw.s"]) = "y" := by decide
    have target : Path.join [behind.keep, "raw.s"] = "y/raw.s" := by decide
    have found : l.disk.find? "raw.s" = some rawText.toUTF8 := rfl
    have written : ∀ disk, ({ disk, tree := t } : Disk.Saving).writeOne {} behind.keep
        ("raw.s", rawText.toUTF8) = { disk, tree := t' } := fun disk =>
      Disk.Saving.writeOne_of_stat (by rw [above]; rfl) (by rw [target]; rfl)
    simp only [Disk.persistUnder, made, order, Disk.contains, found, List.filter_cons,
      List.filter_nil, List.filterMap_cons, List.filterMap_nil, Option.map_some, List.foldl_cons,
      List.foldl_nil, Option.isSome_some, Bool.not_true, Bool.false_eq_true, if_false, written]
    exact ⟨_, rfl⟩
  obtain ⟨d', saved⟩ := saved
  have loaded : Disk.load {} earlier.tree behind.keep = { disk := {} } := rfl
  have puts : Listings.putAll { disk := (Disk.load {} earlier.tree behind.keep).disk }
      [("raw.s", rawText)] = .ok l := by
    rw [loaded]
    exact put_raw rfl (by decide)
  obtain ⟨error, s', ran, passed, tree⟩ := exists_runUnder_of_saved (by decide) (by rw [loaded])
    (listing_raw behind rfl rfl) puts pruned saved
  refine ⟨error, s', ran, passed, ?_, ⟨by decide, by decide, by decide⟩, by decide +kernel, ?_⟩
  · rw [tree]
    rfl
  · rw [tree]
    rfl

end Verification

end RoomScript
