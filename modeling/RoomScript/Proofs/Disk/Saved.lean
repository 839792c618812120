import RoomScript.Proofs.Disk.Confinement
import RoomScript.Proofs.FileTree.Directories

/-!
# A directory after a save

A save without a fault leaves the content of every changed name in its place.  When it has only
files to remove, all directories stay, and the path of the directory leads to it in the end.

* `FileTree.Shows` says that a path shows what stands at the place that its text leads to, and
  `FileTree.shows_of_steadyFrom` that it does so unless it passes a directory that is missing;
* `Disk.fileAt?_of_persistUnder` says what stands under a name after a save without a fault;
* `Disk.follow_of_persistUnder` says where the path of the directory leads then.
-/

namespace RoomScript

namespace FileTree

variable {t : FileTree} {dir : String}

/-- What stands below a directory under a valid name is seen through the path of the directory. -/
def Shows (t : FileTree) (dir : String) : Prop :=
  ∀ name, Disk.isName name = true →
    t.below dir name = t.fileAt? (t.placeOf dir ++ Path.pieces name)

/-- A path shows what stands below it, when every parent mark behind an ordinary segment leaves a
directory that exists. -/
theorem shows_of_steadyFrom (valid : t.Valid)
    (steady : t.SteadyFrom (t.start dir) (Path.pieces dir)) (walkable : Walkable dir) :
    t.Shows dir :=
  fun _ _ => below_eq_fileAt? valid steady walkable

theorem not_directory_of_fileAt? {place : List String} (file : t.fileAt? place ≠ none) :
    t.node? place ≠ some .directory := by
  intro here
  rw [fileAt?, here] at file
  exact file rfl

end FileTree

namespace Disk

open FileTree (Keeps KeepsDirectories)

/-! ## One name -/

section Steps

variable {host : Host} (honest : host.Honest) {s : Saving} {dir name : String}
  (valid : s.tree.Valid) (given : dir ≠ "")
  (here : s.tree.node? (s.tree.placeOf dir) = some .directory) (named : isName name = true)
include honest valid given here named

omit honest valid given here named in
/-- A file is written into a directory that is there. -/
theorem Saving.writeOne_of_stat {tree : FileTree} {data : ByteArray}
    (found : s.tree.stat (Path.dir (Path.join [dir, name])) = .ok .directory)
    (written : s.tree.write (Path.join [dir, name]) data = .ok tree) :
    s.writeOne {} dir (name, data) = { s with tree } := by
  simp only [writeOne, FileTree.makeDirs_of_stat found, written]

/-- No directory is lost where a file is removed. -/
theorem Saving.keepsDirectories_removeOne
    (file : s.tree.fileAt? (s.tree.placeOf dir ++ Path.pieces name) ≠ none) :
    KeepsDirectories s.tree (s.removeOne host dir name).tree :=
  (Saving.keeps_removeOne honest valid given here named).2.keepsDirectories
    (FileTree.not_directory_of_fileAt? file)

/-- No directory is lost where a file is written. -/
theorem Saving.keepsDirectories_writeOne (data : ByteArray) :
    KeepsDirectories s.tree (s.writeOne host dir (name, data)).tree := by
  rcases s.writeOne_cases host dir (name, data) with ⟨fault, tree, made, next⟩ |
    ⟨tree, made, ⟨after, written, next⟩ | ⟨fault, -, next⟩⟩ <;> rw [next] <;>
    have grows := honest.grows_below valid given here named made
  · exact grows.keepsDirectories
  · rcases honest.write tree (Path.join [dir, name]) data with real | ⟨fault, failed⟩
    · rw [real] at written
      exact grows.keepsDirectories.trans (FileTree.write_eq_ok written).1.keepsDirectories
    · rw [failed] at written
      cases written
  · exact grows.keepsDirectories

end Steps

/-! ## One name after another -/

section Runs

variable {c : Conditions} (honest : c.Honest) {dir : String} (given : dir ≠ "")
include honest given

theorem keepsDirectories_removeAll {names : List String} (distinct : names.Nodup) {s : Saving}
    (valid : s.tree.Valid) (here : s.tree.node? (s.tree.placeOf dir) = some .directory)
    (files : ∀ name ∈ names, isName name = true ∧
      s.tree.fileAt? (s.tree.placeOf dir ++ Path.pieces name) ≠ none) :
    let s' := names.foldl (fun s name => s.removeOne (c.host name) dir name) s
    s'.tree.Valid ∧ KeepsDirectories s.tree s'.tree := by
  induction names generalizing s with
  | nil => exact ⟨valid, .refl _⟩
  | cons name names ih =>
    obtain ⟨fresh, distinct⟩ := List.nodup_cons.1 distinct
    obtain ⟨⟨named, file⟩, later⟩ := List.forall_mem_cons.1 files
    obtain ⟨valid', keeps⟩ := Saving.keeps_removeOne (honest.2 name) valid given here named
    have stays := Saving.keepsDirectories_removeOne (honest.2 name) valid given here named file
    obtain ⟨ends, rest⟩ := ih distinct valid' (by
      rw [keeps.placeOf]
      exact stays.directory _ here) fun other mem => by
        obtain ⟨named', file'⟩ := later other mem
        have apart : s.tree.placeOf dir ++ Path.pieces other ≠
            s.tree.placeOf dir ++ Path.pieces name := fun same =>
          fresh (Path.pieces_injective (List.append_cancel_left same) ▸ mem)
        exact ⟨named', by rwa [keeps.placeOf, keeps.file _ apart]⟩
    exact ⟨ends, stays.trans rest⟩

theorem keepsDirectories_writeAll {entries : List (String × ByteArray)} {s : Saving}
    (valid : s.tree.Valid) (here : s.tree.node? (s.tree.placeOf dir) = some .directory)
    (named : ∀ e ∈ entries, isName e.1 = true) :
    KeepsDirectories s.tree
      (entries.foldl (fun s entry => s.writeOne (c.host entry.1) dir entry) s).tree := by
  induction entries generalizing s with
  | nil => exact .refl _
  | cons entry entries ih =>
    obtain ⟨first, later⟩ := List.forall_mem_cons.1 named
    obtain ⟨valid', keeps⟩ :=
      Saving.keeps_writeOne (honest.2 entry.1) valid given here first entry.2
    have stays :=
      Saving.keepsDirectories_writeOne (honest.2 entry.1) valid given here first entry.2
    refine stays.trans (ih valid' ?_ later)
    rw [keeps.placeOf]
    exact stays.directory _ here

variable {d : Disk} (accounted : d.Accounted) {t : FileTree} (valid : t.Valid)
include accounted valid

/-- A save loses no directory when all it has to remove are files. -/
theorem keepsDirectories_savedAll (here : t.node? (t.placeOf dir) = some .directory)
    (files : ∀ name ∈ d.unsaved, d.find? name = none →
      t.fileAt? (t.placeOf dir ++ Path.pieces name) ≠ none) :
    KeepsDirectories t (d.savedAll c t dir).tree := by
  have changed : ∀ {name : String}, name ∈ c.order d.unsaved → name ∈ d.unsaved := fun mem =>
    (c.perm d.unsaved).mem_iff.1 mem
  have distinct := (c.perm d.unsaved).nodup_iff.2 accounted.once
  obtain ⟨valid', removed⟩ := keepsDirectories_removeAll honest given
    (s := { disk := { d with unsaved := [], dirty := false }, tree := t })
    (distinct.filter (! d.contains ·)) valid here fun name mem => by
      obtain ⟨mem, gone⟩ := List.mem_filter.1 mem
      exact ⟨accounted.marked name (changed mem), files name (changed mem)
        (by simpa [contains] using gone)⟩
  refine removed.trans (keepsDirectories_writeAll honest given valid' ?_ fun entry mem => ?_)
  · have same := removed.workingDir
    rw [FileTree.placeOf, FileTree.start, same]
    exact removed.directory _ here
  · obtain ⟨name, here, found⟩ := List.mem_filterMap.1 mem
    obtain ⟨data, -, rfl⟩ := Option.map_eq_some_iff.1 found
    exact accounted.marked name (changed here)

end Runs

/-! ## A save without a fault -/

section Save

variable {d d' : Disk} {c : Conditions} {t t' : FileTree} {dir : String} (honest : c.Honest)
  (valid : t.Valid) (home : t.node? t.workingDir = some .directory)
  (saved : d.persistUnder c t dir = (none, d', t'))
include honest valid home saved

/-- A save without a fault has made its directory, and dealt with all changed names in there. -/
theorem savedAll_of_persistUnder : ∃ tree, t.makeDirs dir = (none, tree) ∧
    FileTree.Grows t tree ∧ dir ≠ "" ∧ tree.node? (tree.placeOf dir) = some .directory ∧
    (d.savedAll c tree dir).fault = none ∧ (d.savedAll c tree dir).tree = t' := by
  rcases d.persistUnder_cases c t dir with ⟨fault, tree, made, next⟩ | ⟨tree, made, next⟩ <;>
    rw [saved] at next
  · cases next
  · obtain ⟨grows, stands⟩ := FileTree.makeDirs_of_honest honest.1 valid home made
    obtain ⟨walkable, here⟩ := stands rfl
    have real : t.makeDirs dir = (none, tree) := by
      rcases honest.1.makeDirs t dir with real | ⟨fault, grown, failed, -⟩
      · rwa [← real]
      · rw [made] at failed
        cases failed
    simp only [Prod.mk.injEq] at next
    obtain ⟨fine, -, ends⟩ := next
    exact ⟨tree, real, grows, walkable.2.1, here, by simpa using fine.symm, ends.symm⟩

variable (accounted : d.Accounted)
include accounted

/-- **After a save without a fault every valid name has its content**, when those that are not
marked had it before. -/
theorem fileAt?_of_persistUnder
    (agree : ∀ name, isName name = true → name ∉ d.unsaved →
      d.find? name = t.fileAt? (t.placeOf dir ++ Path.pieces name)) {name : String}
    (named : isName name = true) :
    t'.fileAt? (t.placeOf dir ++ Path.pieces name) = d.find? name := by
  obtain ⟨tree, -, grows, given, here, fine, rfl⟩ :=
    savedAll_of_persistUnder honest valid home saved
  have same := grows.toKeeps.placeOf dir
  have ends := Agrees.savedAll honest given here accounted (grows.valid valid)
    fun name named unmarked => by
      rw [same, grows.file _ not_false]
      exact agree name named unmarked
  rw [← same]
  exact (ends.agree name named (by simp [ends.clean fine]) (by simp)).symm

/-- **After a save without a fault the path of the directory leads to it**, when all that was
removed were files. -/
theorem follow_of_persistUnder
    (files : ∀ name ∈ d.unsaved, d.find? name = none →
      t.fileAt? (t.placeOf dir ++ Path.pieces name) ≠ none) :
    t'.follow dir = .ok (.found (t.placeOf dir) .directory) := by
  obtain ⟨valid', keeps⟩ := keeps_persistUnder honest accounted.marked valid home
  rw [saved] at valid' keeps
  obtain ⟨tree, made, grows, given, here, -, rfl⟩ :=
    savedAll_of_persistUnder honest valid home saved
  obtain ⟨place, leads⟩ := FileTree.exists_follow_of_makeDirs made
  have follows := (keepsDirectories_savedAll honest given accounted (grows.valid valid) here
    fun name mem gone => by
      rw [grows.toKeeps.placeOf, grows.file _ not_false]
      exact files name mem gone).follow leads
  have walkable := FileTree.walkable_of_follow follows
  have whole := follows
  rw [FileTree.follow_of_walkable walkable] at follows
  rw [whole, ← keeps.placeOf, FileTree.placeOf, (FileTree.eq_lead_of_found valid' follows).1]

end Save

end Disk

end RoomScript
