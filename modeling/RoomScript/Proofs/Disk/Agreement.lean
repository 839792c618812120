import RoomScript.Proofs.Disk.Loading

/-!
# A disk and the directory it is saved to

A disk that was loaded from a directory is changed and saved there again, over and over.  Calls on
the file tree may fail while it is saved, and the names come in any order.  Whatever happens, only
the names that are marked can differ between the disk and the directory.  This is said of file
trees, which have no links: a link is not followed in loading, but it is in saving.

* `Host.Honest` says what a call on the file tree may come to;
* `Agrees` relates a disk that is being saved to the file tree, with `Agrees.removeOne` and
  `Agrees.writeOne` for one name;
* `Synced` relates a disk to its directory between the changes, and `Synced.run` says that every
  change keeps it;
* `synced_of_edits` says so for every run, and that after a save without a fault nothing differs.
-/

namespace RoomScript.Disk

open FileTree (Grows Keeps Named)

/-! ## Hosts -/

/-- A call does what the file tree does, or it fails and changes no file.  Removing says that there
is nothing to remove only where that is so. -/
structure Host.Honest (h : Host) : Prop where
  makeDirs : ∀ t path, h.makeDirs t path = t.makeDirs path ∨
    ∃ fault grown, h.makeDirs t path = (some fault, grown) ∧ Grows t grown
  write : ∀ t path data, h.write t path data = t.write path data ∨
    ∃ fault, h.write t path data = .error fault
  remove : ∀ t path, h.remove t path = t.remove path ∨
    ∃ fault, h.remove t path = .error fault ∧ fault.reason ≠ .noEntry

theorem Host.honest_default : Host.Honest {} :=
  ⟨fun _ _ => .inl rfl, fun _ _ _ => .inl rfl, fun _ _ => .inl rfl⟩

/-- All calls of a save are honest. -/
def Conditions.Honest (c : Conditions) : Prop :=
  c.directory.Honest ∧ ∀ name, (c.host name).Honest

section Host

variable {h : Host} (honest : h.Honest) {t : FileTree} {dir name : String}
include honest

theorem Host.Honest.grows {path : String} (valid : t.Valid)
    (anchored : t.Anchored (t.start path) (Path.pieces path)) {result : Option FileTree.Fault}
    {tree : FileTree} (made : h.makeDirs t path = (result, tree)) :
    Grows t tree ∧ (result = none → tree.HasDirectory path) := by
  rcases honest.makeDirs t path with real | ⟨fault, grown, failed, grows⟩
  · have both := FileTree.grows_makeDirs valid anchored
    rwa [← real, made] at both
  · rw [made] at failed
    cases failed
    exact ⟨grows, by rintro ⟨⟩⟩

/-- Making the directories above a name only adds some. -/
theorem Host.Honest.grows_below (valid : t.Valid) (given : dir ≠ "")
    (here : t.node? (t.placeOf dir) = some .directory) (named : isName name = true)
    {result : Option FileTree.Fault} {tree : FileTree}
    (made : h.makeDirs t (Path.dir (Path.join [dir, name])) = (result, tree)) : Grows t tree := by
  rcases honest.makeDirs t (Path.dir (Path.join [dir, name])) with real |
    ⟨fault, grown, failed, grows⟩
  · have grows := FileTree.grows_makeDirs_below valid here given named
    rwa [← real, made] at grows
  · rw [made] at failed
    cases failed
    exact grows

end Host

/-! ## Saving one name after another -/

/-- A disk is being saved: what is neither pending nor marked stands below the directory. -/
structure Agrees (d : Disk) (t : FileTree) (dir : String) (pending : List String) (s : Saving) :
    Prop where
  files : s.disk.files = d.files
  valid : s.tree.Valid
  keeps : Keeps (Named (t.placeOf dir)) t s.tree
  agree : ∀ name, isName name = true → name ∉ s.disk.unsaved → name ∉ pending →
    d.find? name = s.tree.fileAt? (t.placeOf dir ++ Path.pieces name)
  clean : s.fault = none → s.disk.unsaved = []

namespace Agrees

variable {d : Disk} {t tree : FileTree} {dir name : String} {pending : List String} {s : Saving}

/-- The place of a name now has the content of the name. -/
theorem settle (h : Agrees d t dir (name :: pending) s) (named : isName name = true)
    (valid : tree.Valid) (keeps : Keeps (· = t.placeOf dir ++ Path.pieces name) s.tree tree)
    (same : d.find? name = tree.fileAt? (t.placeOf dir ++ Path.pieces name)) :
    Agrees d t dir pending { s with tree } where
  files := h.files
  valid := valid
  keeps := h.keeps.trans (keeps.mono fun place here => ⟨name, named, here⟩)
  agree other valid_other unmarked done := by
    by_cases eq : other = name
    · rwa [eq]
    · have apart : t.placeOf dir ++ Path.pieces other ≠ t.placeOf dir ++ Path.pieces name :=
        fun same => eq (Path.pieces_injective (List.append_cancel_left same))
      rw [keeps.file _ apart]
      exact h.agree other valid_other unmarked (by simp [eq, done])
  clean := h.clean

/-- A name that could not be saved is marked. -/
theorem fail (h : Agrees d t dir (name :: pending) s) (grows : Grows s.tree tree)
    (fault : FileTree.Fault) : Agrees d t dir pending ({ s with tree }.fail name fault) where
  files := h.files
  valid := grows.valid h.valid
  keeps := h.keeps.trans (grows.toKeeps.mono fun _ no => no.elim)
  agree other valid_other unmarked done := by
    simp only [Saving.fail, mem_mark, not_or] at unmarked ⊢
    rw [grows.file _ not_false]
    exact h.agree other valid_other unmarked.1 (by simp [unmarked.2, done])
  clean none := by simp [Saving.fail] at none

section Steps

variable {host : Host} (honest : host.Honest) (h : Agrees d t dir (name :: pending) s)
  (given : dir ≠ "") (here : t.node? (t.placeOf dir) = some .directory)
  (named : isName name = true)
include honest h given here named

/-- The saved copy of a deleted file is removed, or its name is marked. -/
theorem removeOne (deleted : d.find? name = none) :
    Agrees d t dir pending (s.removeOne host dir name) := by
  have root := FileTree.placeOf_of_keeps h.keeps
  have stands : s.tree.node? (s.tree.placeOf dir) = some .directory := by
    rw [root]
    exact h.keeps.directory _ (FileTree.not_named_of_above List.prefix_rfl) here
  rcases s.removeOne_cases host dir name with ⟨tree, removed, next⟩ |
    ⟨fault, failed, missing, next⟩ | ⟨fault, -, -, next⟩ <;> rw [next]
  · rcases honest.remove s.tree (Path.join [dir, name]) with real | ⟨fault, failed, -⟩
    · rw [real] at removed
      obtain ⟨valid, keeps, gone⟩ := FileTree.remove_below h.valid stands given named removed
      rw [root] at keeps gone
      exact h.settle named valid keeps (deleted.trans gone.symm)
    · rw [failed] at removed
      cases removed
  · rcases honest.remove s.tree (Path.join [dir, name]) with real | ⟨other, failed', reason⟩
    · rw [real] at failed
      have gone := FileTree.fileAt?_of_remove h.valid stands given named failed missing
      rw [root] at gone
      exact h.settle named h.valid (Keeps.refl _ _) (deleted.trans gone.symm)
    · rw [failed] at failed'
      cases failed'
      exact absurd missing reason
  · exact h.fail (.refl s.tree) fault

/-- The content of a file is written, or its name is marked. -/
theorem writeOne {data : ByteArray} (present : d.find? name = some data) :
    Agrees d t dir pending (s.writeOne host dir (name, data)) := by
  have root := FileTree.placeOf_of_keeps h.keeps
  have stands : s.tree.node? (s.tree.placeOf dir) = some .directory := by
    rw [root]
    exact h.keeps.directory _ (FileTree.not_named_of_above List.prefix_rfl) here
  rcases s.writeOne_cases host dir (name, data) with ⟨fault, tree, made, next⟩ |
    ⟨tree, made, ⟨after, written, next⟩ | ⟨fault, -, next⟩⟩ <;> rw [next] <;>
    have grows := honest.grows_below h.valid given stands named made
  · exact h.fail grows fault
  · rcases honest.write tree (Path.join [dir, name]) data with real | ⟨fault, failed⟩
    · rw [real] at written
      have same : tree.placeOf dir = s.tree.placeOf dir := by
        rw [FileTree.placeOf, FileTree.placeOf, grows.start]
      have stands' : tree.node? (tree.placeOf dir) = some .directory := by
        rw [same]
        exact grows.directory _ not_false stands
      obtain ⟨valid, keeps, content⟩ :=
        FileTree.write_below (grows.valid h.valid) stands' given named written
      rw [same, root] at keeps content
      refine h.settle named valid ?_ (present.trans content.symm)
      exact (grows.toKeeps.mono fun _ no => no.elim).trans keeps
    · rw [failed] at written
      cases written
  · exact h.fail grows fault

end Steps

section Runs

variable {c : Conditions} (honest : c.Honest) (given : dir ≠ "")
  (here : t.node? (t.placeOf dir) = some .directory)
include honest given here

theorem removeAll {names : List String}
    (deleted : ∀ name ∈ names, isName name = true ∧ d.find? name = none)
    (h : Agrees d t dir (names ++ pending) s) :
    Agrees d t dir pending (names.foldl (fun s name => s.removeOne (c.host name) dir name) s) := by
  induction names generalizing s with
  | nil => exact h
  | cons name names ih =>
    obtain ⟨⟨named, gone⟩, later⟩ := List.forall_mem_cons.1 deleted
    exact ih later (removeOne (honest.2 name) h given here named gone)

theorem writeAll {entries : List (String × ByteArray)}
    (present : ∀ e ∈ entries, isName e.1 = true ∧ d.find? e.1 = some e.2)
    (h : Agrees d t dir (entries.map (·.1) ++ pending) s) :
    Agrees d t dir pending
      (entries.foldl (fun s entry => s.writeOne (c.host entry.1) dir entry) s) := by
  induction entries generalizing s with
  | nil => exact h
  | cons entry entries ih =>
    obtain ⟨⟨named, found⟩, later⟩ := List.forall_mem_cons.1 present
    exact ih later (writeOne (honest.2 entry.1) h given here named found)

/-- All changed names are dealt with, when the others agree. -/
theorem savedAll (accounted : d.Accounted) (valid : t.Valid)
    (agree : ∀ name, isName name = true → name ∉ d.unsaved →
      d.find? name = t.fileAt? (t.placeOf dir ++ Path.pieces name)) :
    Agrees d t dir [] (d.savedAll c t dir) := by
  have valid_name : ∀ name ∈ c.order d.unsaved, isName name = true := fun name mem =>
    accounted.marked name ((c.perm d.unsaved).mem_iff.1 mem)
  -- Every changed name is pending, as a deleted one or as one to be written.
  have begins : Agrees d t dir
      ((c.order d.unsaved).filter (! d.contains ·) ++
        (((c.order d.unsaved).filterMap fun name => (d.find? name).map (name, ·)).map (·.1) ++ []))
      { disk := { d with unsaved := [], dirty := false }, tree := t } := by
    refine ⟨rfl, valid, Keeps.refl _ _, fun name named _ settled => ?_, fun _ => rfl⟩
    refine agree name named fun marked => settled ?_
    have changed := (c.perm d.unsaved).mem_iff.2 marked
    cases found : d.find? name with
    | none => simp [changed, contains, found]
    | some data => simp [changed, contains, found]
  have removed := begins.removeAll honest given here fun name mem => by
    obtain ⟨changed, gone⟩ := List.mem_filter.1 mem
    exact ⟨valid_name name changed, by simpa [contains] using gone⟩
  refine removed.writeAll honest given here fun entry mem => ?_
  obtain ⟨name, changed, found⟩ := List.mem_filterMap.1 mem
  obtain ⟨data, held, rfl⟩ := Option.map_eq_some_iff.1 found
  exact ⟨valid_name name changed, held⟩

end Runs

end Agrees

/-! ## Between the changes -/

/-- A disk and the tree it is saved to, both come from the tree that the disk was loaded from: apart
from marked names they agree, and nothing else has changed in the tree. -/
structure Synced (origin : FileTree) (dir : String) (d : Disk) (t : FileTree) : Prop where
  valid : t.Valid
  keeps : Keeps (Named (origin.placeOf dir)) origin t
  agree : ∀ name, isName name = true → name ∉ d.unsaved → d.find? name = t.below dir name
  accounted : d.Accounted

namespace Synced

section

variable {origin t : FileTree} {dir : String} {d : Disk} (valid : origin.Valid)
  (home : origin.node? origin.workingDir = some .directory) (steady : origin.Steady dir)

include valid

theorem load (fine : (Disk.load {} origin dir).error = none) :
    Synced origin dir (Disk.load {} origin dir).disk origin where
  valid := valid
  keeps := Keeps.refl _ _
  agree _ named _ := find?_load valid fine named
  accounted := by
    obtain ⟨files, fault, same⟩ := exists_load_eq {} origin dir
    rw [same]
    exact Accounted.empty.loadFiles dir files fault

include home steady

/-- All changed names are dealt with in a directory that is there. -/
theorem agrees_savedAll (h : Synced origin dir d t) {c : Conditions} (honest : c.Honest)
    {tree : FileTree} (grows : Grows t tree) (has : tree.HasDirectory dir) :
    Agrees d tree dir [] (d.savedAll c tree dir) ∧
      tree.node? (tree.placeOf dir) = some .directory := by
  have keeps := h.keeps.trans (grows.toKeeps.mono fun _ no => no.elim)
  have stands : tree.node? (tree.placeOf dir) = some .directory := by
    rw [FileTree.placeOf_of_keeps keeps]
    exact has.node? keeps valid home
  refine ⟨Agrees.savedAll honest has.1.2.1 stands h.accounted (grows.valid h.valid)
    fun name named unmarked => ?_, stands⟩
  rw [← FileTree.below_eq_fileAt? (grows.valid h.valid) (steady.steadyFrom keeps) has.1,
    grows.below h.valid (steady.steadyFrom h.keeps)]
  exact h.agree name named unmarked

/-- Saving keeps a disk and its directory together, and nothing stays marked when it succeeds. -/
theorem persistUnder (h : Synced origin dir d t) {c : Conditions} (honest : c.Honest) :
    let r := d.persistUnder c t dir
    Synced origin dir r.2.1 r.2.2 ∧ (r.1 = none → r.2.1.unsaved = [] ∧
      ∃ place, r.2.2.follow dir = .ok (.found place .directory)) := by
  have accounted := h.accounted.persistUnder c t dir
  have anchored := steady.anchored h.keeps valid home
  rcases d.persistUnder_cases c t dir with ⟨fault, tree, made, next⟩ | ⟨tree, made, next⟩ <;>
    rw [next] at accounted ⊢ <;> obtain ⟨grows, has⟩ := honest.1.grows h.valid anchored made
  all_goals have keeps := h.keeps.trans (grows.toKeeps.mono fun _ no => no.elim)
  · -- Nothing is saved, and the files below the directory are as they were.
    refine ⟨⟨grows.valid h.valid, keeps, fun name named unmarked => ?_, accounted⟩, by rintro ⟨⟩⟩
    rw [grows.below h.valid (steady.steadyFrom h.keeps)]
    exact h.agree name named unmarked
  · have walkable := (has rfl).1
    obtain ⟨ends, stands⟩ := agrees_savedAll valid home steady h honest grows (has rfl)
    dsimp only at accounted ⊢
    generalize d.savedAll c tree dir = s at ends accounted ⊢
    have later : Keeps (Named (origin.placeOf dir)) origin s.tree := by
      refine keeps.trans ?_
      rw [← FileTree.placeOf_of_keeps keeps]
      exact ends.keeps
    have steady' := steady.steadyFrom later
    have same : s.tree.placeOf dir = tree.placeOf dir := FileTree.placeOf_of_keeps ends.keeps
    refine ⟨⟨ends.valid, later, fun name named unmarked => ?_, accounted⟩,
      fun fine => ⟨?_, s.tree.placeOf dir, ?_⟩⟩
    · have held : s.disk.find? name = d.find? name := by
        rw [find?, find?, ends.files]
      rw [held, FileTree.below_eq_fileAt? ends.valid steady' walkable, same]
      exact ends.agree name named unmarked (by simp)
    · exact ends.clean (by simpa using fine)
    · refine FileTree.follow_of_steadyFrom ends.valid steady' walkable ?_
      rw [same]
      exact ends.keeps.directory _ (FileTree.not_named_of_above List.prefix_rfl) stands

end

/-- A name that is stored or removed is marked. -/
theorem serve {origin t : FileTree} {dir : String} {d d' : Disk} {name : String}
    (h : Synced origin dir d t) (accounted : d'.Accounted)
    (marked : d'.unsaved = mark d.unsaved name)
    (others : ∀ other ≠ name, d'.find? other = d.find? other) : Synced origin dir d' t where
  valid := h.valid
  keeps := h.keeps
  agree other named unmarked := by
    rw [marked, mem_mark, not_or] at unmarked
    rw [others other unmarked.2]
    exact h.agree other named unmarked.1
  accounted := accounted

end Synced

/-! ## Runs -/

/-- What is done to a disk and the directory it is saved to. -/
inductive Edit where
  | write (name : String) (data : ByteArray)
  | delete (name : String)
  | persist (c : Conditions)

/-- Make one change.  One that fails leaves the disk as it was, apart from a save that fails
halfway. -/
def Edit.run (dir : String) (state : Disk × FileTree) : Edit → Disk × FileTree
  | .write name data => ((state.1.serve (.write name data)).2, state.2)
  | .delete name => ((state.1.serve (.delete name)).2, state.2)
  | .persist c => (state.1.persistUnder c state.2 dir).2

/-- The calls on the file tree are honest. -/
def Edit.Honest : Edit → Prop
  | .persist c => c.Honest
  | _ => True

section Edits

variable {t : FileTree} {dir : String} (valid : t.Valid)
  (home : t.node? t.workingDir = some .directory) (steady : t.Steady dir)
include valid home steady

theorem Synced.run {state : Disk × FileTree} (h : Synced t dir state.1 state.2) {edit : Edit}
    (honest : edit.Honest) : Synced t dir (edit.run dir state).1 (edit.run dir state).2 := by
  cases edit with
  | write name data =>
    have accounted := h.accounted.serve (.write name data)
    simp only [Edit.run, Disk.serve] at accounted ⊢
    split at accounted
    · rename_i disk written
      obtain ⟨-, -, rfl⟩ := write_eq_ok_iff.1 written
      exact h.serve accounted rfl fun other apart => find?_stored_of_ne apart
    · exact h
  | delete name =>
    have accounted := h.accounted.serve (.delete name)
    simp only [Edit.run, Disk.serve] at accounted ⊢
    split at accounted
    · rename_i disk deleted
      obtain ⟨-, -, rfl⟩ := delete_eq_ok_iff.1 deleted
      exact h.serve accounted rfl fun other apart => find?_removed_of_ne apart
    · exact h
  | persist c => exact (h.persistUnder valid home steady honest).1

theorem Synced.foldl {edits : List Edit} (honest : ∀ edit ∈ edits, edit.Honest)
    {state : Disk × FileTree} (h : Synced t dir state.1 state.2) :
    Synced t dir (edits.foldl (Edit.run dir) state).1 (edits.foldl (Edit.run dir) state).2 := by
  induction edits generalizing state with
  | nil => exact h
  | cons edit edits ih =>
    obtain ⟨first, later⟩ := List.forall_mem_cons.1 honest
    exact ih later (h.run valid home steady first)

/-- **Only marked names differ between a disk and its directory.**  The tree has no links, and each
parent mark behind a name in the path of the directory leaves a directory that exists and stands
where the disk can have no file.  A disk is loaded from the directory without an error; then it is
changed and saved there any number of times, where any call on the file tree may fail without
changing a file.  Each valid name that is not marked has the same content on the disk and below the
directory, or none on both, and no file in the tree has changed that is not below the directory
under a valid name.  After a save without a fault no name is marked, and the directory can be loaded
again and gives the same files. -/
theorem synced_of_edits (fine : (load {} t dir).error = none) (edits : List Edit)
    (honest : ∀ edit ∈ edits, edit.Honest) :
    let s := edits.foldl (Edit.run dir) ((load {} t dir).disk, t)
    (∀ name, isName name = true → name ∉ s.1.unsaved → s.1.find? name = s.2.below dir name) ∧
      (∀ place, ¬ Named (t.placeOf dir) place → s.2.fileAt? place = t.fileAt? place) ∧
      ∀ c : Conditions, c.Honest → ∀ d' t', s.1.persistUnder c s.2 dir = (none, d', t') →
        d'.unsaved = [] ∧ (∀ name, isName name = true → d'.find? name = t'.below dir name) ∧
          (load {} t' dir).error = none ∧
          ∀ name, (load {} t' dir).disk.find? name = d'.find? name := by
  intro s
  have synced : Synced t dir s.1 s.2 :=
    Synced.foldl valid home steady honest (Synced.load valid fine)
  refine ⟨synced.agree, synced.keeps.file, fun c honest d' t' saved => ?_⟩
  obtain ⟨after, clean⟩ := synced.persistUnder valid home steady honest
  simp only [saved] at after clean
  obtain ⟨unmarked, place, follows⟩ := clean trivial
  have agree : ∀ name, isName name = true → d'.find? name = t'.below dir name :=
    fun name named => after.agree name named (by simp [unmarked])
  exact ⟨unmarked, agree, load_same after.valid after.accounted agree follows⟩

end Edits

/-! ## Two trees -/

/-- A save that takes the changed names as they come. -/
def unordered : Conditions where
  order := id
  perm _ := .rfl

theorem honest_unordered : unordered.Honest :=
  ⟨Host.honest_default, fun _ => Host.honest_default⟩

/-- A save in which nothing can be written. -/
def refused : Conditions where
  host _ := { write := fun _ path _ => .error ⟨"open", path, .invalid⟩ }
  order := id
  perm _ := .rfl

theorem honest_refused : refused.Honest :=
  ⟨Host.honest_default, fun _ =>
    ⟨fun _ _ => .inl rfl, fun _ _ _ => .inr ⟨_, rfl⟩, fun _ _ => .inl rfl⟩⟩

/-- A directory `d` that has one file and an empty directory. -/
def nested : FileTree where
  nodes := [(["d"], .directory), (["d", "a"], .directory), (["d", "f"], .file ⟨#[1]⟩)]

theorem valid_nested : nested.Valid where
  distinct := by decide
  below := by decide
  entries := by decide
  parents := by
    intro e mem
    fin_cases mem <;> rfl

theorem load_nested (dir : String) (follows : nested.follow dir = .ok (.found ["d"] .directory)) :
    (load {} nested dir).error = none ∧
      (load {} nested dir).disk = { files := [("f", ⟨#[1]⟩)], used := 1 } := by
  have files : nested.filesBelow ["d"] = [(["f"], ⟨#[1]⟩)] := List.mergeSort_singleton _
  rw [load_of_follow _ follows, files]
  exact ⟨rfl, rfl⟩

theorem synced_of_edits_nested :
    let s := [Edit.write "b" ⟨#[2]⟩, .persist refused, .delete "f", .persist unordered].foldl
      (Edit.run "d") ((load {} nested "d").disk, nested)
    (∀ name, isName name = true → name ∉ s.1.unsaved → s.1.find? name = s.2.below "d" name) ∧
      ∀ place, ¬ Named ["d"] place → s.2.fileAt? place = nested.fileAt? place := by
  have run := synced_of_edits valid_nested rfl (FileTree.steady_of_notMem nested (by decide))
    (load_nested "d" rfl).1
    [.write "b" ⟨#[2]⟩, .persist refused, .delete "f", .persist unordered]
    (by simp [Edit.Honest, honest_refused, honest_unordered])
  exact ⟨run.1, run.2.1⟩

/-- A run after which a valid name differs that is not marked. -/
def Differs (t : FileTree) (dir : String) (edits : List Edit) (name : String) : Prop :=
  t.Valid ∧ t.node? t.workingDir = some .directory ∧ (load {} t dir).error = none ∧
    (∀ edit ∈ edits, edit.Honest) ∧ isName name = true ∧
    let s := edits.foldl (Edit.run dir) ((load {} t dir).disk, t)
    name ∉ s.1.unsaved ∧ s.1.find? name ≠ s.2.below dir name

/-- A directory `y` that has one file, beside nothing else. -/
def lone : FileTree where
  nodes := [(["y"], .directory), (["y", "f"], .file ⟨#[1]⟩)]

theorem valid_lone : lone.Valid where
  distinct := by decide
  below := by decide
  entries := by decide
  parents := by
    intro e mem
    fin_cases mem <;> rfl

/-- The first segment is made only for the parent mark to leave it again. -/
theorem makeDirs_behind {t : FileTree} (missing : t.follow "x" = .ok (.absent ["x"] false))
    (left : t.follow "x/.." = .error .noEntry) (barred : t.follow "x/../y" = .error .noEntry)
    (up : (t.set ["x"] .directory).follow "x/.." = .ok (.found [] .directory))
    (shown : (t.set ["x"] .directory).follow "x/../y" = .ok (.found ["y"] .directory)) :
    t.makeDirs "x/../y" = (none, t.set ["x"] .directory) := by
  have first : t.makeDirsFrom "x".toList = (none, t.set ["x"] .directory) := by
    have top : FileTree.parentPart "x".toList = [] := rfl
    rw [FileTree.makeDirsFrom, String.ofList_toList, FileTree.stat, missing]
    simp only [top, FileTree.makeDir, missing, dite_true]
  have second : t.makeDirsFrom "x/..".toList = (none, t.set ["x"] .directory) := by
    have above : FileTree.parentPart "x/..".toList = "x".toList := rfl
    have some : "x".toList ≠ [] := by decide
    rw [FileTree.makeDirsFrom, String.ofList_toList, FileTree.stat, left]
    simp only [above, some, dite_false, first, FileTree.makeDir, FileTree.stat, up]
  have above : FileTree.parentPart "x/../y".toList = "x/..".toList := rfl
  have some : "x/..".toList ≠ [] := by decide
  rw [FileTree.makeDirs, FileTree.makeDirsFrom, String.ofList_toList, FileTree.stat, barred]
  simp only [above, some, dite_false, second, FileTree.makeDir, FileTree.stat, shown]

theorem makeDirs_lone : lone.makeDirs "x/../y" = (none, lone.set ["x"] .directory) :=
  makeDirs_behind rfl rfl rfl rfl rfl

/-- **Parent marks behind ordinary segments can make a difference.**  The path `x/../y` leads
nowhere while there is no `x`, so nothing is loaded; saving makes `x`, and the path leads to the
file in `y`.  The path `d/a/..` leads to `d` until the save of a disk removes the empty directory
`a`. -/
theorem differs_unsteady :
    Differs lone "x/../y" [.persist unordered] "f" ∧
      Differs nested "d/a/.." [.write "a" ⟨#[2]⟩, .delete "a", .persist unordered] "f" := by
  constructor
  · refine ⟨valid_lone, rfl, rfl, by simp [Edit.Honest, honest_unordered], by decide, ?_⟩
    have made : unordered.directory.makeDirs lone "x/../y" = (none, lone.set ["x"] .directory) :=
      makeDirs_lone
    simp only [List.foldl, Edit.run, persistUnder]
    rw [made]
    exact ⟨by decide, by rintro ⟨⟩⟩
  · obtain ⟨fine, loaded⟩ := load_nested "d/a/.." rfl
    refine ⟨valid_nested, rfl, fine, by simp [Edit.Honest, honest_unordered], by decide, ?_⟩
    have made : unordered.directory.makeDirs nested "d/a/.." = (none, nested) := by
      change nested.makeDirsFrom ['d', '/', 'a', '/', '.', '.'] = _
      rw [FileTree.makeDirsFrom]
      rfl
    rw [loaded]
    simp only [List.foldl, Edit.run, persistUnder]
    rw [made]
    exact ⟨by decide, by rintro ⟨⟩⟩

end RoomScript.Disk
