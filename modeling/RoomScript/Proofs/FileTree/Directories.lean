import RoomScript.Proofs.FileTree.Growth
import RoomScript.Proofs.FileTree.Writing

/-!
# Paths to directories

A path that leads to a directory goes on leading there for as long as no directory is lost, and the
path of a directory leads to it once it has been made.

* `FileTree.KeepsDirectories` are the trees that have lost no directory, and
  `KeepsDirectories.follow` says what becomes of a path in them;
* `FileTree.exists_follow_of_makeDirs` says where a path leads whose directories have been made.
-/

namespace RoomScript.FileTree

open RoomScript.Path (IsPlain)

variable {t t' t'' : FileTree} {place p segments : List String} {path : String}

/-! ## Directories that stay -/

/-- A tree has all directories of another one. -/
structure KeepsDirectories (t t' : FileTree) : Prop where
  workingDir : t'.workingDir = t.workingDir
  directory : ∀ place, t.node? place = some .directory → t'.node? place = some .directory

theorem KeepsDirectories.refl (t : FileTree) : KeepsDirectories t t :=
  ⟨rfl, fun _ here => here⟩

theorem KeepsDirectories.trans (first : KeepsDirectories t t') (second : KeepsDirectories t' t'') :
    KeepsDirectories t t'' :=
  ⟨second.workingDir.trans first.workingDir, fun place here =>
    second.directory place (first.directory place here)⟩

theorem Grows.keepsDirectories (grows : Grows t t') : KeepsDirectories t t' :=
  ⟨grows.workingDir, fun place => grows.directory place not_false⟩

theorem Extends.keepsDirectories (extends' : Extends t t') : KeepsDirectories t t' :=
  ⟨extends'.workingDir, extends'.directory⟩

/-- Nothing is lost where the only place that changes is no directory. -/
theorem Keeps.keepsDirectories (keeps : Keeps (· = p) t t') (bare : t.node? p ≠ some .directory) :
    KeepsDirectories t t' where
  workingDir := keeps.workingDir
  directory place here := keeps.directory place (fun same => bare (same ▸ here)) here

/-- A path that leads to a directory goes on leading there. -/
theorem KeepsDirectories.followFrom (keeps : KeepsDirectories t t')
    (ok : t.followFrom place .directory segments = .ok (.found p .directory)) :
    t'.followFrom place .directory segments = .ok (.found p .directory) := by
  induction segments generalizing place with
  | nil =>
    rw [FileTree.followFrom] at ok ⊢
    exact ok
  | cons s rest ih =>
    rcases followFrom_cons_cases t place s rest with ⟨mark, next⟩ | ⟨plain, size, node, here, next⟩ |
      ⟨-, -, -, -, next⟩ | ⟨-, -, next⟩ | ⟨-, reason, -, next | next⟩ <;> rw [next] at ok
    · rw [followFrom_mark mark]
      exact ih ok
    · cases node with
      | file data => rcases followFrom_file ok with ⟨-, same⟩ | same <;> cases same
      | directory =>
        rw [followFrom_named plain size (keeps.directory _ here)]
        exact ih ok
    all_goals cases ok

/-- A path that leads to a directory goes on leading there. -/
theorem KeepsDirectories.follow (keeps : KeepsDirectories t t')
    (ok : t.follow path = .ok (.found p .directory)) :
    t'.follow path = .ok (.found p .directory) := by
  have walkable := walkable_of_follow ok
  have start : t'.start path = t.start path := by
    rw [FileTree.start, FileTree.start, keeps.workingDir]
  rw [follow_of_walkable walkable] at ok ⊢
  rw [start]
  exact keeps.followFrom ok

/-! ## Directories that are made -/

theorem followFrom_blanks {segments : List String} (blank : ∀ s ∈ segments, s = "") :
    t.followFrom place .directory segments = .ok (.found place .directory) := by
  induction segments with
  | nil => rw [followFrom]
  | cons s rest ih =>
    obtain ⟨first, later⟩ := List.forall_mem_cons.1 blank
    rw [followFrom_blank (.inl first), ih later]

/-- A directory that is put where nothing stands is found there. -/
theorem followFrom_set_directory {asDirectory : Bool}
    (ok : t.followFrom place .directory segments = .ok (.absent p asDirectory)) :
    p ≠ [] ∧ t.node? p = none ∧
      (t.set p .directory).followFrom place .directory segments = .ok (.found p .directory) := by
  induction segments generalizing place with
  | nil =>
    rw [followFrom] at ok
    cases ok
  | cons s rest ih =>
    rcases followFrom_cons_cases t place s rest with ⟨mark, next⟩ | ⟨plain, size, node, here, next⟩ |
      ⟨plain, size, free, blank, next⟩ | ⟨-, -, next⟩ | ⟨-, reason, -, next | next⟩ <;>
      rw [next] at ok
    · rw [followFrom_mark mark]
      exact ih ok
    · cases node with
      | file data => rcases followFrom_file ok with ⟨-, same⟩ | same <;> cases same
      | directory =>
        obtain ⟨below, free, found⟩ := ih ok
        have apart : place ++ [s] ≠ p := by
          rintro rfl
          rw [here] at free
          cases free
        exact ⟨below, free, by
          rw [followFrom_named plain size ((node?_set_of_ne apart).trans here), found]⟩
    · cases ok
      have below : place ++ [s] ≠ [] := List.append_ne_nil_of_right_ne_nil _ (List.cons_ne_nil _ _)
      exact ⟨below, free, by
        rw [followFrom_named plain size (node?_set below), followFrom_blanks blank]⟩
    all_goals cases ok

/-- A directory that is there need not be made. -/
theorem makeDirs_of_stat (found : t.stat path = .ok .directory) : t.makeDirs path = (none, t) := by
  rw [makeDirs, makeDirsFrom, String.ofList_toList, found]

theorem exists_follow_of_stat (found : t.stat path = .ok .directory) :
    ∃ place, t.follow path = .ok (.found place .directory) := by
  unfold stat at found
  split at found <;> cases found
  exact ⟨_, by assumption⟩

theorem exists_follow_of_makeDir (made : t.makeDir path = .ok t') :
    ∃ place, t'.follow path = .ok (.found place .directory) := by
  unfold makeDir at made
  split at made <;> cases made
  rename_i place asDirectory follows
  have walkable := walkable_of_follow follows
  rw [follow_of_walkable walkable] at follows
  have start : (t.set place .directory).start path = t.start path := by
    rw [FileTree.start, FileTree.start, workingDir_set]
  refine ⟨place, ?_⟩
  rw [follow_of_walkable walkable, start]
  exact (followFrom_set_directory follows).2.2

/-- When directories have been made, the path leads to the last of them. -/
theorem exists_follow_of_makeDirs (made : t.makeDirs path = (none, t')) :
    ∃ place, t'.follow path = .ok (.found place .directory) := by
  have text : String.ofList path.toList = path := String.ofList_toList
  rw [makeDirs, makeDirsFrom, text] at made
  split at made
  · rename_i found
    cases made
    exact exists_follow_of_stat found
  · cases made
  · revert made
    generalize (if _h : parentPart path.toList = [] then (none, t)
      else t.makeDirsFrom (parentPart path.toList) : Option Fault × FileTree) = above
    obtain ⟨_ | fault, t₁⟩ := above
    · intro made
      dsimp only at made
      split at made
      · rename_i made'
        cases made
        exact exists_follow_of_makeDir made'
      · rename_i found
        cases made
        exact exists_follow_of_stat found
      · cases made
    · rintro ⟨⟩

end RoomScript.FileTree
