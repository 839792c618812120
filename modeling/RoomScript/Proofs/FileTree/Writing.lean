import RoomScript.Proofs.FileTree.Following

/-!
# Writing files

A file that has been written is found again by the path it was written to, also after other files
have been written.

* `FileTree.Extends` are the trees that come by writing files;
* `FileTree.Extends.follow` says that a path to a file goes on leading there;
* `FileTree.write_eq_ok` says what writing a file does, and that the path leads to it;
* `FileTree.SameFile` are paths that lead to one file, and `SameFile.getLast?_pieces` compares their
  last segments.
-/

namespace RoomScript.FileTree

open RoomScript.Path (IsPlain)

variable {t t' t'' : FileTree} {place p segments rest : List String} {s path : String}

/-! ## One segment -/

theorem followFrom_mark (mark : ¬ IsPlain s) :
    t.followFrom place .directory (s :: rest) =
      t.followFrom (Path.advance place s) .directory rest := by
  rcases IsPlain.cases s with blank | rfl | plain
  · rw [followFrom_blank blank, Path.advance_blank blank]
  · rw [followFrom_parent, Path.advance_parent]
  · exact absurd plain mark

theorem followFrom_named {node : FileNode} (plain : IsPlain s) (size : s.utf8ByteSize ≤ maxSegment)
    (here : t.node? (place ++ [s]) = some node) :
    t.followFrom place .directory (s :: rest) = t.followFrom (place ++ [s]) node rest := by
  obtain ⟨empty, dot, parent⟩ := plain
  rw [followFrom, if_neg (by simp [empty, dot]), if_neg (by simpa using parent),
    if_neg (Nat.not_lt.2 size), here]

/-! ## Trees that have been written to -/

/-- One tree has the directories of the other, and files wherever it has files. -/
structure Extends (t t' : FileTree) : Prop where
  workingDir : t'.workingDir = t.workingDir
  directory : ∀ place, t.node? place = some .directory → t'.node? place = some .directory
  file : ∀ place data, t.node? place = some (.file data) →
    ∃ data', t'.node? place = some (.file data')

theorem Extends.refl (t : FileTree) : Extends t t :=
  ⟨rfl, fun _ here => here, fun _ data here => ⟨data, here⟩⟩

theorem Extends.trans (first : Extends t t') (second : Extends t' t'') : Extends t t'' where
  workingDir := second.workingDir.trans first.workingDir
  directory place here := second.directory place (first.directory place here)
  file place data here := by
    obtain ⟨data', here⟩ := first.file place data here
    exact second.file place data' here

/-- A file is put where no directory stands. -/
theorem extends_set (below : place ≠ []) (free : t.node? place ≠ some .directory)
    (data : ByteArray) : Extends t (t.set place (.file data)) where
  workingDir := workingDir_set
  directory p here := by
    by_cases same : p = place
    · exact absurd (same ▸ here) free
    · rw [node?_set_of_ne same, here]
  file p data' here := by
    by_cases same : p = place
    · exact ⟨data, by rw [same, node?_set below]⟩
    · exact ⟨data', by rw [node?_set_of_ne same, here]⟩

/-- A path that leads to a file goes on leading there. -/
theorem Extends.followFrom (extends' : Extends t t') {data : ByteArray}
    (ok : t.followFrom place .directory segments = .ok (.found p (.file data))) :
    ∃ data', t'.node? p = some (.file data') ∧
      t'.followFrom place .directory segments = .ok (.found p (.file data')) := by
  induction segments generalizing place with
  | nil =>
    rw [FileTree.followFrom] at ok
    cases ok
  | cons s rest ih =>
    rcases followFrom_cons_cases t place s rest with ⟨mark, next⟩ | ⟨plain, size, node, here, next⟩ |
      ⟨-, -, -, -, next⟩ | ⟨-, -, next⟩ | ⟨-, reason, -, next | next⟩ <;> rw [next] at ok
    · rw [followFrom_mark mark]
      exact ih ok
    · cases node with
      | file old =>
        obtain ⟨data', there⟩ := extends'.file _ _ here
        rcases followFrom_file ok with ⟨rfl, same⟩ | barred
        · cases same
          exact ⟨data', there, by rw [followFrom_named plain size there, FileTree.followFrom]⟩
        · cases barred
      | directory =>
        rw [followFrom_named plain size (extends'.directory _ here)]
        exact ih ok
    all_goals cases ok

/-- A path that leads to a file goes on leading there. -/
theorem Extends.follow (extends' : Extends t t') {data : ByteArray}
    (ok : t.follow path = .ok (.found p (.file data))) :
    ∃ data', t'.node? p = some (.file data') ∧ t'.follow path = .ok (.found p (.file data')) := by
  have walkable := walkable_of_follow ok
  rw [follow_of_walkable walkable] at ok
  have start : t'.start path = t.start path := by
    rw [FileTree.start, FileTree.start, extends'.workingDir]
  rw [follow_of_walkable walkable, start]
  exact extends'.followFrom ok

/-! ## Writing -/

/-- A file is written where a path leads to a file or to nothing. -/
def Target.IsWritable (p : List String) : Target → Prop
  | .found place (.file _) => place = p
  | .absent place asDirectory => place = p ∧ asDirectory = false
  | _ => False

/-- What can be written stands below the root and is no directory, and after writing the segments
lead to it. -/
theorem followFrom_set {target : Target} (ok : t.followFrom place .directory segments = .ok target)
    (writable : target.IsWritable p) (data : ByteArray) :
    p ≠ [] ∧ t.node? p ≠ some .directory ∧
      (t.set p (.file data)).followFrom place .directory segments =
        .ok (.found p (.file data)) := by
  induction segments generalizing place with
  | nil =>
    rw [FileTree.followFrom] at ok
    cases ok
    cases writable
  | cons s rest ih =>
    rcases followFrom_cons_cases t place s rest with ⟨mark, next⟩ | ⟨plain, size, node, here, next⟩ |
      ⟨plain, size, free, blank, next⟩ | ⟨-, -, next⟩ | ⟨-, reason, -, next | next⟩ <;>
      rw [next] at ok
    · rw [followFrom_mark mark]
      exact ih ok
    · have below : place ++ [s] ≠ [] := List.append_ne_nil_of_right_ne_nil _ (List.cons_ne_nil _ _)
      cases node with
      | file old =>
        rcases followFrom_file ok with ⟨rfl, rfl⟩ | rfl
        · obtain rfl : place ++ [s] = p := writable
          refine ⟨below, by rw [here]; simp, ?_⟩
          rw [followFrom_named plain size (node?_set below), FileTree.followFrom]
        · cases writable
      | directory =>
        obtain ⟨below, free, found⟩ := ih ok
        have apart : place ++ [s] ≠ p := fun same => free (same ▸ here)
        refine ⟨below, free, ?_⟩
        rw [followFrom_named plain size ((node?_set_of_ne apart).trans here), found]
    · obtain rfl := Except.ok.inj ok
      obtain ⟨rfl, bare⟩ := writable
      have last : rest = [] := by simpa using bare
      have below : place ++ [s] ≠ [] := List.append_ne_nil_of_right_ne_nil _ (List.cons_ne_nil _ _)
      subst last
      refine ⟨below, by rw [free]; simp, ?_⟩
      rw [followFrom_named plain size (node?_set below), FileTree.followFrom]
    · cases ok
    · obtain rfl := Except.ok.inj ok
      cases writable
    · cases ok

/-- A file that can be written is put where its path leads. -/
theorem exists_target_of_write {data : ByteArray} (ok : t.write path data = .ok t') :
    ∃ target p, t.follow path = .ok target ∧ target.IsWritable p ∧ t' = t.set p (.file data) := by
  unfold write at ok
  split at ok
  case h_1 place old follows => exact ⟨_, place, follows, rfl, (Except.ok.inj ok).symm⟩
  case h_3 place follows => exact ⟨_, place, follows, ⟨rfl, rfl⟩, (Except.ok.inj ok).symm⟩
  all_goals cases ok

/-- A file is written at one place, which is no directory, and its path leads there afterwards. -/
theorem write_eq_ok {data : ByteArray} (ok : t.write path data = .ok t') :
    Extends t t' ∧ ∃ p, t'.follow path = .ok (.found p (.file data)) ∧
      ∀ place, place ≠ p → t'.node? place = t.node? place := by
  obtain ⟨target, p, follows, writable, rfl⟩ := exists_target_of_write ok
  have walkable := walkable_of_follow follows
  rw [follow_of_walkable walkable] at follows
  obtain ⟨below, free, found⟩ := followFrom_set follows writable data
  have start : (t.set p (.file data)).start path = t.start path := by
    rw [FileTree.start, FileTree.start, workingDir_set]
  refine ⟨extends_set below free data, p, ?_, fun place apart => node?_set_of_ne apart⟩
  rw [follow_of_walkable walkable, start, found]

/-- A file that a path leads to stands there. -/
theorem node?_of_follow {data : ByteArray}
    (found : t.follow path = .ok (.found p (.file data))) : t.node? p = some (.file data) := by
  obtain ⟨data', here, again⟩ := (Extends.refl t).follow found
  rw [found] at again
  cases again
  exact here

/-- Writing a file leaves another one as it is, or is written to that one. -/
theorem follow_of_write {data : ByteArray} (ok : t.write path data = .ok t') (place : List String)
    (old : ByteArray) :
    (∀ path', t.follow path' = .ok (.found place (.file old)) →
        t'.follow path' = .ok (.found place (.file old))) ∨
      t'.follow path = .ok (.found place (.file data)) ∧
        ∀ path', t.follow path' = .ok (.found place (.file old)) →
          t'.follow path' = .ok (.found place (.file data)) := by
  obtain ⟨extends', p, found, others⟩ := write_eq_ok ok
  by_cases same : place = p
  · subst same
    refine .inr ⟨found, fun path' leads => ?_⟩
    obtain ⟨data', here, leads⟩ := extends'.follow leads
    rw [node?_of_follow found] at here
    cases here
    exact leads
  · refine .inl fun path' leads => ?_
    obtain ⟨data', here, again⟩ := extends'.follow leads
    rw [others place same, node?_of_follow leads] at here
    cases here
    exact again

/-! ## Paths to one file -/

/-- Two paths lead to one file. -/
def SameFile (t : FileTree) (path path' : String) : Prop :=
  ∃ place data, t.follow path = .ok (.found place (.file data)) ∧
    t.follow path' = .ok (.found place (.file data))

theorem read_of_follow {data : ByteArray} (found : t.follow path = .ok (.found p (.file data))) :
    t.read path = .ok data := by
  rw [read, stat, found]

/-- A file stands under the last segment that leads to it. -/
theorem getLast?_of_followFrom {data : ByteArray} (plain : IsPlain s)
    (ok : t.followFrom place .directory (segments ++ [s]) = .ok (.found p (.file data))) :
    p.getLast? = some s := by
  induction segments generalizing place with
  | nil =>
    rcases followFrom_cons_cases t place s [] with ⟨mark, -⟩ | ⟨-, -, node, -, next⟩ |
      ⟨-, -, -, -, next⟩ | ⟨-, -, next⟩ | ⟨-, reason, -, next | next⟩
    · exact absurd plain mark
    all_goals rw [List.nil_append, next] at ok
    · rw [FileTree.followFrom] at ok
      cases ok
      exact List.getLast?_concat
    all_goals cases ok
  | cons first segments ih =>
    rcases followFrom_cons_cases t place first (segments ++ [s]) with ⟨-, next⟩ |
      ⟨-, -, node, -, next⟩ | ⟨-, -, -, -, next⟩ | ⟨-, -, next⟩ | ⟨-, reason, -, next | next⟩ <;>
      rw [List.cons_append, next] at ok
    · exact ih ok
    · cases node with
      | file old =>
        rcases followFrom_file ok with ⟨none, -⟩ | barred
        · simp at none
        · cases barred
      | directory => exact ih ok
    all_goals cases ok

/-- Paths to one file have the same last segment, when this is an ordinary one. -/
theorem SameFile.getLast?_pieces {path' : String} (same : t.SameFile path path')
    {front front' : List String} {s' : String} (split : Path.pieces path = front ++ [s])
    (split' : Path.pieces path' = front' ++ [s']) (plain : IsPlain s) (plain' : IsPlain s') :
    s = s' := by
  obtain ⟨place, data, first, second⟩ := same
  rw [follow_of_walkable (walkable_of_follow first), split] at first
  rw [follow_of_walkable (walkable_of_follow second), split'] at second
  have here := getLast?_of_followFrom plain first
  rw [getLast?_of_followFrom plain' second] at here
  exact (Option.some.inj here).symm

end RoomScript.FileTree
