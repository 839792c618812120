import RoomScript.Disk.Sync
import RoomScript.Proofs.FileTree.Growth

/-!
# Where a disk is saved

A name on a disk is saved at one place below a directory: the path made for it leads there, whatever
parent marks the path of the directory has.  The calls that save a name change that place alone.

* `FileTree.pieces_below` takes the paths below a directory apart;
* `FileTree.remove_below` and `FileTree.write_below` say what the two calls do to the place of a
  name, and `FileTree.grows_makeDirs_below` that making the directories above it only adds some.
-/

namespace RoomScript.FileTree

open RoomScript.Path (IsPlain Slashless Reduced lead render reducedSegments)

variable {t t' : FileTree} {dir name : String} {names : List String}

/-! ## Paths below a directory -/

/-- Parent marks stand in front of a cleaned path, so none stands behind an ordinary segment. -/
theorem steadyFrom_reduced {place blanks segments : List String} {rooted : Bool}
    (blank : ∀ s ∈ blanks, s = "" ∨ s = ".") (reduced : Reduced rooted segments) :
    t.SteadyFrom place (blanks ++ segments) := by
  obtain ⟨marks, ordinary, rfl, plain, -⟩ := reduced.split
  rintro before after split ⟨s, mem, named⟩
  rw [← List.append_assoc, List.append_eq_append_iff] at split
  rcases split with ⟨more, -, split⟩ | ⟨more, split, -⟩
  · -- A parent mark among the ordinary segments.
    have parent : ".." ∈ ordinary := by
      rw [split]
      simp
    exact absurd rfl (plain ".." parent).2.2
  · -- An ordinary segment among the marks.
    have front : s ∈ blanks ++ List.replicate marks ".." := by
      rw [split]
      exact List.mem_append_left _ mem
    rcases List.mem_append.1 front with mem | mem
    · rcases blank s mem with rfl | rfl
      · exact absurd rfl named.1
      · exact absurd rfl named.2.1
    · exact absurd (List.mem_replicate.1 mem).2 named.2.2

theorem lead_reducedSegments (t : FileTree) (dir : String) :
    lead (t.start dir) (reducedSegments dir) = t.placeOf dir := by
  refine Path.lead_reducedSegments fun root => ?_
  rw [start, if_pos root]

/-- The path of names below a directory starts where the directory starts, and passes the directory
before the names without leaving anything. -/
theorem pieces_below (t : FileTree) (dir : String) (plain : ∀ s ∈ names, IsPlain s)
    (slashless : ∀ s ∈ names, Slashless s) :
    t.start (render (Path.isAbsolute dir) (reducedSegments dir ++ names)) = t.start dir ∧
      ∃ front, Path.pieces (render (Path.isAbsolute dir) (reducedSegments dir ++ names)) =
          front ++ names ∧ lead (t.start dir) front = t.placeOf dir ∧
        t.SteadyFrom (t.start dir) front := by
  have reduced := Path.reduced_reducedSegments dir
  have whole : ∀ s ∈ reducedSegments dir ++ names, Slashless s :=
    List.forall_mem_append.2 ⟨fun s => Path.slashless_of_mem_reducedSegments, slashless⟩
  obtain ⟨blanks, blank, split⟩ := Path.exists_pieces_render (Path.isAbsolute dir) whole
  constructor
  · rw [start, start, Path.isAbsolute_render (reduced.append plain) whole]
  · refine ⟨blanks ++ reducedSegments dir, by rw [split, List.append_assoc], ?_,
      steadyFrom_reduced blank reduced⟩
    rw [Path.lead_append, Path.lead_blank blank, lead_reducedSegments]

section Below

variable (valid : t.Valid) (here : t.node? (t.placeOf dir) = some .directory)
include valid here

theorem anchored_below (plain : ∀ s ∈ names, IsPlain s) (slashless : ∀ s ∈ names, Slashless s) :
    let path := render (Path.isAbsolute dir) (reducedSegments dir ++ names)
    t.Anchored (t.start path) (Path.pieces path) ∧ t.placeOf path = t.placeOf dir ++ names := by
  obtain ⟨first, front, split, leads, steady⟩ := pieces_below t dir plain slashless
  rw [← leads] at here
  have isOpen := open_of_steadyFrom valid steady here
  refine ⟨?_, ?_⟩
  · rw [first, split]
    exact isOpen.anchored valid here names
  · rw [placeOf, first, split, Path.lead_append, leads, Path.lead_plain plain]

variable (some : dir ≠ "") (named : Disk.isName name = true)
include some named

/-! ## The place of a name -/

theorem grows_makeDirs_below : Grows t (t.makeDirs (Path.dir (Path.join [dir, name]))).2 := by
  have plain := Path.isPlain_of_isName named
  have slashless : ∀ s ∈ Path.pieces name, Slashless s := fun s => Path.slashless_of_mem_pieces
  obtain ⟨front, last, split⟩ := List.eq_nil_or_concat' (Path.pieces name) |>.resolve_left
    (Path.pieces_ne_nil name)
  rw [split] at plain slashless
  obtain ⟨front_plain, last_plain⟩ := List.forall_mem_append.1 plain
  obtain ⟨front_slashless, last_slashless⟩ := List.forall_mem_append.1 slashless
  have parent : Path.dir (Path.join [dir, name]) =
      render (Path.isAbsolute dir) (reducedSegments dir ++ front) := by
    rw [Path.join_eq_render some named, split, ← List.append_assoc]
    exact Path.dir_render ((Path.reduced_reducedSegments dir).append front_plain)
      (List.forall_mem_append.2 ⟨fun s => Path.slashless_of_mem_reducedSegments, front_slashless⟩)
      (last_plain last (by simp)) (last_slashless last (by simp))
  rw [parent]
  exact (grows_makeDirs valid (anchored_below valid here front_plain front_slashless).1).1

/-- What following the path of a name comes to. -/
theorem follow_below {target : Target} (ok : t.follow (Path.join [dir, name]) = .ok target) :
    (∀ place node, target = .found place node → place = t.placeOf dir ++ Path.pieces name ∧
      (t.node? place = .some node ∨ node = .directory)) ∧
    ∀ place asDirectory, target = .absent place asDirectory →
      place = t.placeOf dir ++ Path.pieces name ∧ t.node? place = none ∧
        t.node? place.dropLast = .some .directory ∧ ∀ s ∈ place, IsEntry s := by
  have plain := Path.isPlain_of_isName named
  have slashless : ∀ s ∈ Path.pieces name, Slashless s := fun s => Path.slashless_of_mem_pieces
  have walkable := walkable_of_follow ok
  rw [follow_of_walkable walkable] at ok
  rw [Path.join_eq_render some named] at ok
  obtain ⟨anchored, leads⟩ := anchored_below valid here plain slashless
  refine ⟨?_, ?_⟩
  · rintro place node rfl
    obtain ⟨rfl, stands⟩ := eq_lead_of_found valid ok
    exact ⟨leads, stands.imp_right And.left⟩
  · rintro place asDirectory rfl
    obtain ⟨rfl, -, free, parent, entry⟩ := absent_of_followFrom valid anchored
      (fun s => Path.slashless_of_mem_pieces) ok
    exact ⟨leads, free, parent, entry⟩

/-- Removing what is saved under a name changes its place alone, and leaves no file there. -/
theorem remove_below (ok : t.remove (Path.join [dir, name]) = .ok t') :
    t'.Valid ∧ Keeps (· = t.placeOf dir ++ Path.pieces name) t t' ∧
      t'.fileAt? (t.placeOf dir ++ Path.pieces name) = none := by
  have below : t.placeOf dir ++ Path.pieces name ≠ [] := by
    simp [Path.pieces_ne_nil]
  have gone : (t.erase (t.placeOf dir ++ Path.pieces name)).fileAt?
      (t.placeOf dir ++ Path.pieces name) = none := by
    rw [fileAt?, node?_erase below]
  unfold remove at ok
  split at ok
  · rename_i place data follows
    cases ok
    obtain ⟨rfl, stands | dir⟩ := (follow_below valid here some named follows).1 _ _ rfl
    · refine ⟨valid.erase fun e mem above => ?_, Keeps.erase t _, gone⟩
      have parent := valid.parents e mem
      rw [above, stands] at parent
      cases parent
    · cases dir
  · rename_i place follows
    obtain ⟨rfl, -⟩ := (follow_below valid here some named follows).1 _ _ rfl
    split at ok
    · rename_i empty
      cases ok
      refine ⟨valid.erase fun e mem above => ?_, Keeps.erase t _, gone⟩
      have nothing := List.all_eq_true.1 empty e mem
      simp [above, valid.below e mem] at nothing
    · cases ok
  all_goals cases ok

/-- There is nothing to remove only where there is no file. -/
theorem fileAt?_of_remove {fault : Fault} (failed : t.remove (Path.join [dir, name]) = .error fault)
    (missing : fault.reason = .noEntry) : t.fileAt? (t.placeOf dir ++ Path.pieces name) = none := by
  by_contra present
  obtain ⟨data, stands⟩ := Option.ne_none_iff_exists'.1 present
  rw [fileAt?_eq_some_iff] at stands
  have plain := Path.isPlain_of_isName named
  have slashless : ∀ s ∈ Path.pieces name, Slashless s := fun s => Path.slashless_of_mem_pieces
  obtain ⟨first, front, split, leads, steady⟩ := pieces_below t dir plain slashless
  have target : Path.join [dir, name] ≠ "" := by
    rw [Path.join_eq_render some named]
    exact Path.render_ne_empty ((Path.reduced_reducedSegments dir).append plain)
  by_cases walkable : Walkable (Path.join [dir, name])
  · -- The file is found, and can be removed.
    have follows : t.follow (Path.join [dir, name]) =
        .ok (.found (t.placeOf dir ++ Path.pieces name) (.file data)) := by
      rw [follow_of_walkable walkable, Path.join_eq_render some named, first, split, ← leads]
      rw [← leads] at here stands
      exact followFrom_below valid (open_of_steadyFrom valid steady here) plain
        (Path.pieces_ne_nil name) stands
    rw [remove, follows] at failed
    cases failed
  · obtain ⟨reason, error, other⟩ := follow_of_not_walkable (t := t) walkable
    rw [remove, error] at failed
    cases failed
    exact other target missing

/-- Writing what is saved under a name changes its place alone, and leaves the content there. -/
theorem write_below {data : ByteArray} (ok : t.write (Path.join [dir, name]) data = .ok t') :
    t'.Valid ∧ Keeps (· = t.placeOf dir ++ Path.pieces name) t t' ∧
      t'.fileAt? (t.placeOf dir ++ Path.pieces name) = .some data := by
  have below : t.placeOf dir ++ Path.pieces name ≠ [] := by
    simp [Path.pieces_ne_nil]
  have written : (t.set (t.placeOf dir ++ Path.pieces name) (.file data)).fileAt?
      (t.placeOf dir ++ Path.pieces name) = .some data := by
    rw [fileAt?_eq_some_iff, node?_set below]
  unfold write at ok
  split at ok
  · rename_i place old follows
    cases ok
    obtain ⟨rfl, stands | dir⟩ := (follow_below valid here some named follows).1 _ _ rfl
    · refine ⟨valid.set (valid.isEntry stands) below (valid.dropLast stands) ?_, Keeps.set t _ _,
        written⟩
      rw [stands]
      rintro ⟨⟩
    · cases dir
  · cases ok
  · rename_i place follows
    cases ok
    obtain ⟨rfl, free, parent, entry⟩ := (follow_below valid here some named follows).2 _ _ rfl
    refine ⟨valid.set entry below parent ?_, Keeps.set t _ _, written⟩
    rw [free]
    rintro ⟨⟩
  all_goals cases ok

end Below

end RoomScript.FileTree
