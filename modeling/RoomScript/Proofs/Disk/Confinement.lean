import RoomScript.Proofs.Disk.Agreement
import RoomScript.Proofs.Disk.Names

/-!
# What a save can reach

A disk is saved below a directory, one file for each changed name.  The names that are marked are
valid, whatever was asked of the disk before, so their paths lie strictly below the directory; and a
save neither calls for anything else nor changes anything else.

* `Host.Same` says that two hosts answer alike for the path of one name, and
  `Disk.persistUnder_congr` that a save asks for no more than that of the changed names;
* `Saving.keeps_removeOne` and `Saving.keeps_writeOne` say what one name changes in the tree, and
  `Disk.keeps_persistUnder` what a save changes;
* `Disk.persistUnder_confined` puts these together with the paths of names, for every disk that
  requests can lead to.
-/

namespace RoomScript

namespace FileTree

theorem Keeps.placeOf {changed : List String → Prop} {t t' : FileTree} (keeps : Keeps changed t t')
    (path : String) : t'.placeOf path = t.placeOf path := by
  rw [FileTree.placeOf, FileTree.placeOf, start, start, keeps.workingDir]

/-- At the start of a path there is a directory. -/
theorem node?_start {t : FileTree} (home : t.node? t.workingDir = some .directory) (path : String) :
    t.node? (t.start path) = some .directory := by
  rw [start]
  split_ifs
  · rfl
  · exact home

/-- Making a directory only adds some, and it is there in the end. -/
theorem makeDirs_of_honest {h : Disk.Host} (honest : h.Honest) {t tree : FileTree} {dir : String}
    {result : Option Fault} (valid : t.Valid) (home : t.node? t.workingDir = some .directory)
    (made : h.makeDirs t dir = (result, tree)) :
    Grows t tree ∧ (result = none →
      Walkable dir ∧ tree.node? (tree.placeOf dir) = some .directory) := by
  have first := node?_start home dir
  obtain ⟨grows, has⟩ := honest.grows valid (anchored_of_directory valid first _) made
  refine ⟨grows, fun fine => ⟨(has fine).1, ?_⟩⟩
  rcases (has fine).2 with here | marks
  · exact here
  · -- A path without an ordinary segment leads to a directory that was there before.
    rw [grows.toKeeps.placeOf]
    exact grows.directory _ not_false
      (valid.directory_of_above (Path.lead_of_marks marks (t.start dir)) first)

end FileTree

namespace Disk

open FileTree (Grows Keeps)

/-! ## The calls of a save -/

/-- For what is saved under a name two hosts come to the same. -/
structure Host.Same (dir name : String) (h h' : Host) : Prop where
  makeDirs : ∀ t, h.makeDirs t (Path.dir (Path.join [dir, name])) =
    h'.makeDirs t (Path.dir (Path.join [dir, name]))
  write : ∀ t data, h.write t (Path.join [dir, name]) data = h'.write t (Path.join [dir, name]) data
  remove : ∀ t, h.remove t (Path.join [dir, name]) = h'.remove t (Path.join [dir, name])

theorem Saving.removeOne_congr {dir name : String} {h h' : Host} (same : h.Same dir name h')
    (s : Saving) : s.removeOne h dir name = s.removeOne h' dir name := by
  simp only [removeOne, same.remove]

theorem Saving.writeOne_congr {dir name : String} {h h' : Host} (same : h.Same dir name h')
    (s : Saving) (data : ByteArray) :
    s.writeOne h dir (name, data) = s.writeOne h' dir (name, data) := by
  simp only [writeOne, same.makeDirs, same.write]

/-- **A save asks for the paths of changed names only.**  What a call would come to for any other
path makes no difference. -/
theorem persistUnder_congr (d : Disk) {c c' : Conditions} (t : FileTree) {dir : String}
    (directory : c.directory.makeDirs t dir = c'.directory.makeDirs t dir)
    (order : c.order d.unsaved = c'.order d.unsaved)
    (same : ∀ name ∈ d.unsaved, (c.host name).Same dir name (c'.host name)) :
    d.persistUnder c t dir = d.persistUnder c' t dir := by
  have changed : ∀ name ∈ c'.order d.unsaved, (c.host name).Same dir name (c'.host name) :=
    fun name mem => same name ((c'.perm d.unsaved).mem_iff.1 mem)
  unfold persistUnder
  rw [directory, order]
  rcases c'.directory.makeDirs t dir with ⟨_ | fault, tree⟩
  · dsimp only
    have removing := List.foldl_ext (fun s name => Saving.removeOne s (c.host name) dir name)
      (fun s name => Saving.removeOne s (c'.host name) dir name)
      { disk := { d with unsaved := [], dirty := false }, tree }
      (l := (c'.order d.unsaved).filter (! d.contains ·)) fun s name mem =>
        Saving.removeOne_congr (changed name (List.mem_of_mem_filter mem)) s
    rw [removing, List.foldl_ext (fun s entry => Saving.writeOne s (c.host entry.1) dir entry)
      (fun s entry => Saving.writeOne s (c'.host entry.1) dir entry) _ fun s entry mem => ?_]
    obtain ⟨name, here, found⟩ := List.mem_filterMap.1 mem
    obtain ⟨data, -, rfl⟩ := Option.map_eq_some_iff.1 found
    exact Saving.writeOne_congr (changed name here) s data
  · rfl

/-! ## The places of a save -/

section Steps

variable {host : Host} (honest : host.Honest) {s : Saving} {dir name : String}
  (valid : s.tree.Valid) (given : dir ≠ "")
  (here : s.tree.node? (s.tree.placeOf dir) = some .directory) (named : isName name = true)
include honest valid given here named

/-- Removing the saved copy of a file changes the place of its name alone. -/
theorem Saving.keeps_removeOne : (s.removeOne host dir name).tree.Valid ∧
    Keeps (· = s.tree.placeOf dir ++ Path.pieces name) s.tree (s.removeOne host dir name).tree := by
  rcases s.removeOne_cases host dir name with ⟨tree, removed, next⟩ | ⟨fault, -, -, next⟩ |
    ⟨fault, -, -, next⟩ <;> rw [next]
  · rcases honest.remove s.tree (Path.join [dir, name]) with real | ⟨fault, failed, -⟩
    · rw [real] at removed
      obtain ⟨after, keeps, -⟩ := FileTree.remove_below valid here given named removed
      exact ⟨after, keeps⟩
    · rw [failed] at removed
      cases removed
  · exact ⟨valid, Keeps.refl _ _⟩
  · exact ⟨valid, Keeps.refl _ _⟩

/-- Saving the content of a file changes the place of its name alone, directories above it apart
that were not there. -/
theorem Saving.keeps_writeOne (data : ByteArray) : (s.writeOne host dir (name, data)).tree.Valid ∧
    Keeps (· = s.tree.placeOf dir ++ Path.pieces name) s.tree
      (s.writeOne host dir (name, data)).tree := by
  rcases s.writeOne_cases host dir (name, data) with ⟨fault, tree, made, next⟩ |
    ⟨tree, made, ⟨after, written, next⟩ | ⟨fault, -, next⟩⟩ <;> rw [next] <;>
    have grows := honest.grows_below valid given here named made
  · exact ⟨grows.valid valid, grows.toKeeps.mono fun _ no => no.elim⟩
  · rcases honest.write tree (Path.join [dir, name]) data with real | ⟨fault, failed⟩
    · rw [real] at written
      have stands : tree.node? (tree.placeOf dir) = some .directory := by
        rw [grows.toKeeps.placeOf]
        exact grows.directory _ not_false here
      obtain ⟨valid', keeps, -⟩ :=
        FileTree.write_below (grows.valid valid) stands given named written
      rw [grows.toKeeps.placeOf] at keeps
      exact ⟨valid', (grows.toKeeps.mono fun _ no => no.elim).trans keeps⟩
    · rw [failed] at written
      cases written
  · exact ⟨grows.valid valid, grows.toKeeps.mono fun _ no => no.elim⟩

end Steps

/-- The places where the changed names of a disk are saved. -/
def Marked (d : Disk) (place p : List String) : Prop :=
  ∃ name ∈ d.unsaved, p = place ++ Path.pieces name

section Save

variable {d : Disk} {c : Conditions} {t : FileTree} {dir : String} (honest : c.Honest)
  (marked : ∀ name ∈ d.unsaved, isName name = true) (valid : t.Valid)
include honest marked valid

/-- In a directory that is there, all changed names together change their places alone. -/
theorem keeps_savedAll (given : dir ≠ "") (here : t.node? (t.placeOf dir) = some .directory) :
    (d.savedAll c t dir).tree.Valid ∧
      Keeps (d.Marked (t.placeOf dir)) t (d.savedAll c t dir).tree := by
  -- A step for a changed name leads from a tree that has changed in marked places to another one.
  have step : ∀ {s s' : Saving} {name : String}, name ∈ c.order d.unsaved →
      s.tree.Valid ∧ Keeps (d.Marked (t.placeOf dir)) t s.tree →
      (s.tree.node? (s.tree.placeOf dir) = some .directory → isName name = true →
        s'.tree.Valid ∧ Keeps (· = s.tree.placeOf dir ++ Path.pieces name) s.tree s'.tree) →
      s'.tree.Valid ∧ Keeps (d.Marked (t.placeOf dir)) t s'.tree := by
    intro s s' name mem ⟨_, before⟩ next
    have changed := (c.perm d.unsaved).mem_iff.1 mem
    have outside : ¬ d.Marked (t.placeOf dir) (t.placeOf dir) := by
      rintro ⟨other, -, same⟩
      exact Path.pieces_ne_nil other (List.self_eq_append_right.1 same)
    have stands : s.tree.node? (s.tree.placeOf dir) = some .directory := by
      rw [before.placeOf]
      exact before.directory _ outside here
    obtain ⟨valid', keeps⟩ := next stands (marked name changed)
    rw [before.placeOf] at keeps
    exact ⟨valid', before.trans (keeps.mono fun p same => ⟨name, changed, same⟩)⟩
  refine List.foldlRecOn (motive := fun s : Saving =>
    s.tree.Valid ∧ Keeps (d.Marked (t.placeOf dir)) t s.tree) _ _ ?_ fun s kept entry mem => ?_
  · refine List.foldlRecOn (motive := fun s : Saving =>
      s.tree.Valid ∧ Keeps (d.Marked (t.placeOf dir)) t s.tree) _ _ ⟨valid, Keeps.refl _ _⟩
      fun s kept name mem => ?_
    exact step (List.mem_of_mem_filter mem) kept fun stands named =>
      Saving.keeps_removeOne (honest.2 name) kept.1 given stands named
  · obtain ⟨name, changed, found⟩ := List.mem_filterMap.1 mem
    obtain ⟨data, -, rfl⟩ := Option.map_eq_some_iff.1 found
    exact step changed kept fun stands named =>
      Saving.keeps_writeOne (honest.2 name) kept.1 given stands named data

/-- **A save changes the places of the changed names alone**, directories apart that were not there,
whatever it comes to. -/
theorem keeps_persistUnder (home : t.node? t.workingDir = some .directory) :
    (d.persistUnder c t dir).2.2.Valid ∧
      Keeps (d.Marked (t.placeOf dir)) t (d.persistUnder c t dir).2.2 := by
  rcases d.persistUnder_cases c t dir with ⟨fault, tree, made, next⟩ | ⟨tree, made, next⟩ <;>
    rw [next] <;> obtain ⟨grows, stands⟩ := FileTree.makeDirs_of_honest honest.1 valid home made
  · exact ⟨grows.valid valid, grows.toKeeps.mono fun _ no => no.elim⟩
  · obtain ⟨walkable, here⟩ := stands rfl
    obtain ⟨valid', keeps⟩ := keeps_savedAll honest marked (grows.valid valid) walkable.2.1 here
    rw [grows.toKeeps.placeOf] at keeps
    exact ⟨valid', (grows.toKeeps.mono fun _ no => no.elim).trans keeps⟩

end Save

/-! ## Any disk -/

/-- **A save does not leave its directory.**  A valid name is a relative path in its cleaned form,
of ordinary segments.  Its path below a directory is that of the directory, cleaned, with the
segments of the name behind it, and no other name has it.  After any requests to a new disk, the
names that are marked are valid; what a save comes to depends on the calls for their paths alone;
and it changes a tree at their places alone. -/
theorem persistUnder_confined (requests : List Request) (dir : String) :
    (∀ name, isName name = true →
      Path.isAbsolute name = false ∧ Path.clean name = name ∧
      (∀ s ∈ Path.pieces name, s ≠ "" ∧ s ≠ "." ∧ s ≠ "..") ∧
      (Path.join [dir, name] =
        if Path.clean dir = "." then name
        else if Path.clean dir = "/" then "/" ++ name else Path.clean dir ++ "/" ++ name) ∧
      Path.isAbsolute (Path.join [dir, name]) = Path.isAbsolute dir ∧
      Path.reducedSegments (Path.join [dir, name]) =
        Path.reducedSegments dir ++ Path.pieces name ∧ Path.pieces name ≠ []) ∧
    (∀ name other, isName name = true → isName other = true →
      Path.join [dir, name] = Path.join [dir, other] → name = other) ∧
    let d := afterAll requests
    (∀ name ∈ d.unsaved, isName name = true) ∧
    (∀ (c c' : Conditions) (t : FileTree),
      c.directory.makeDirs t dir = c'.directory.makeDirs t dir →
      c.order d.unsaved = c'.order d.unsaved →
      (∀ name ∈ d.unsaved, (c.host name).Same dir name (c'.host name)) →
      d.persistUnder c t dir = d.persistUnder c' t dir) ∧
    ∀ (c : Conditions) (t : FileTree), c.Honest → t.Valid →
      t.node? t.workingDir = some .directory →
      Keeps (fun place => ∃ name ∈ d.unsaved, place = t.placeOf dir ++ Path.pieces name) t
        (d.persistUnder c t dir).2.2 := by
  have marked := (accounted_afterAll requests).marked
  refine ⟨fun name valid => ?_, fun name other => Path.join_injective, marked,
    fun c c' t => persistUnder_congr _ t, fun c t honest valid home =>
      (keeps_persistUnder honest marked valid home).2⟩
  obtain ⟨relative, cleaned⟩ := Path.clean_of_isName valid
  have joined : Path.isAbsolute (Path.join [dir, name]) = Path.isAbsolute dir ∧
      Path.reducedSegments (Path.join [dir, name]) =
        Path.reducedSegments dir ++ Path.pieces name := Path.reducedSegments_join valid
  exact ⟨relative, cleaned, Path.isPlain_of_isName valid, Path.join_text valid, joined.1, joined.2,
    Path.pieces_ne_nil name⟩

/-- The path of one name below directories that are given in several forms, and a file beside them
that a save does not change. -/
theorem persistUnder_confined_listings :
    Path.join ["out/../listings/", "rooms/r100.s"] = "listings/rooms/r100.s" ∧
      Path.join ["..", "rooms/r100.s"] = "../rooms/r100.s" ∧
      Path.join ["/", "rooms/r100.s"] = "/rooms/r100.s" ∧
      Path.join ["./", "rooms/r100.s"] = "rooms/r100.s" ∧
      (afterAll [.write "rooms/r100.s" ⟨#[1]⟩]).unsaved = ["rooms/r100.s"] ∧
      ((afterAll [.write "rooms/r100.s" ⟨#[1]⟩]).persistUnder unordered nested
        "out/../listings/").2.2.fileAt? ["d", "f"] = some ⟨#[1]⟩ := by
  have named : isName "rooms/r100.s" = true := by decide
  have text : ∀ dir, Path.join [dir, "rooms/r100.s"] =
      if Path.clean dir = "." then "rooms/r100.s"
      else if Path.clean dir = "/" then "/" ++ "rooms/r100.s"
      else Path.clean dir ++ "/" ++ "rooms/r100.s" := fun dir =>
    ((persistUnder_confined [] dir).1 _ named).2.2.2.1
  have marks : (afterAll [.write "rooms/r100.s" ⟨#[1]⟩]).unsaved = ["rooms/r100.s"] := by decide
  have keeps := (persistUnder_confined [.write "rooms/r100.s" ⟨#[1]⟩] "out/../listings/").2.2.2.2
    unordered nested honest_unordered valid_nested rfl
  refine ⟨?_, ?_, ?_, ?_, marks, ?_⟩
  · rw [text, show Path.clean "out/../listings/" = "listings" by decide]
    decide
  · rw [text, show Path.clean ".." = ".." by decide]
    decide
  · rw [text, show Path.clean "/" = "/" by decide]
    decide
  · rw [text, show Path.clean "./" = "." by decide]
    decide
  · refine (keeps.file ["d", "f"] ?_).trans rfl
    rw [marks]
    rintro ⟨name, mem, place⟩
    rw [List.mem_singleton.1 mem] at place
    revert place
    decide

end Disk

end RoomScript
