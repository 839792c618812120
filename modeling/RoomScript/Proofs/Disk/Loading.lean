import RoomScript.Proofs.Disk.Accounting
import RoomScript.Proofs.Disk.Targets

/-!
# What a disk is loaded with

The files below a directory are those that stand below the place its path leads to.  Loading a disk
takes all of them that have valid names.

* `FileTree.below` is the content that a name has below a directory;
* `FileTree.Steady` are the paths of directories that saving a disk cannot cut off, and
  `FileTree.below_eq_fileAt?` says that for them what stands below is told by the text alone;
* `Disk.find?_load` says what a disk is loaded with, and `Disk.load_same` that a disk which holds
  just that can be loaded again.
-/

namespace RoomScript

namespace FileTree

open RoomScript.Path (IsPlain lead)

variable {t t' : FileTree} {dir name : String}

/-! ## Below a directory -/

/-- The content of a name below a directory, if the path leads to a directory and the name to a file
there. -/
def below (t : FileTree) (dir name : String) : Option ByteArray :=
  match t.follow dir with
  | .ok (.found place .directory) => t.fileAt? (place ++ Path.pieces name)
  | _ => none

/-- The places where files with valid names stand below a place. -/
def Named (place p : List String) : Prop :=
  ∃ name, Disk.isName name = true ∧ p = place ++ Path.pieces name

theorem not_named_of_above {place p : List String} (above : p <+: place) : ¬ Named place p := by
  rintro ⟨name, -, rfl⟩
  have longer := above.length_le
  have some := List.length_pos_iff.2 (Path.pieces_ne_nil name)
  rw [List.length_append] at longer
  omega

/-- Every parent mark behind an ordinary segment of a path leaves a directory that exists, and not
one that stands where a disk saved below the path could have a file. -/
def Steady (t : FileTree) (dir : String) : Prop :=
  ∀ before after, Path.pieces dir = before ++ ".." :: after → (∃ s ∈ before, IsPlain s) →
    t.node? (lead (t.start dir) before) = some .directory ∧
      ¬ Named (t.placeOf dir) (lead (t.start dir) before)

theorem steady_of_notMem (t : FileTree) (direct : ".." ∉ Path.pieces dir) : t.Steady dir := by
  intro before after split
  rw [split] at direct
  simp at direct

section Steady

variable (steady : t.Steady dir) (keeps : Keeps (Named (t.placeOf dir)) t t')
include keeps

theorem start_of_keeps : t'.start dir = t.start dir := by
  rw [start, start, keeps.workingDir]

theorem placeOf_of_keeps : t'.placeOf dir = t.placeOf dir := by
  rw [placeOf, placeOf, start_of_keeps keeps]

/-- A directory that is there stands where the text of its path leads. -/
theorem HasDirectory.node? (has : t'.HasDirectory dir) (valid : t.Valid)
    (home : t.node? t.workingDir = some .directory) :
    t'.node? (t.placeOf dir) = some .directory := by
  rw [← placeOf_of_keeps keeps]
  rcases has.2 with here | marks
  · exact here
  · have up := Path.lead_of_marks marks (t.start dir)
    have first : t.node? (t.start dir) = some .directory := by
      rw [start]
      split_ifs
      · rfl
      · exact home
    rw [placeOf_of_keeps keeps]
    exact keeps.directory _ (not_named_of_above List.prefix_rfl)
      (valid.directory_of_above up first)

include steady

theorem Steady.steadyFrom : t'.SteadyFrom (t'.start dir) (Path.pieces dir) := by
  intro before after split named
  obtain ⟨here, other⟩ := steady before after split named
  rw [start_of_keeps keeps]
  exact keeps.directory _ other here

/-- Saving leaves a directory for the first ordinary segment of the path. -/
theorem Steady.anchored (valid : t.Valid) (home : t.node? t.workingDir = some .directory) :
    t'.Anchored (t'.start dir) (Path.pieces dir) := by
  intro marks s rest split nameless plain
  rw [start_of_keeps keeps]
  have first : t.node? (t.start dir) = some .directory := by
    rw [start]
    split_ifs
    · rfl
    · exact home
  have stands := valid.directory_of_above (Path.lead_of_marks nameless _) first
  refine keeps.directory _ ?_ stands
  -- The place is on the way to the directory, or it is left by a parent mark behind the segment.
  rcases Path.prefix_lead_or_left (List.prefix_rfl (l := lead (t.start dir) marks)) (s :: rest) with
    on | ⟨back, after, left, same⟩
  · refine not_named_of_above ?_
    rwa [placeOf, split, Path.lead_append]
  · rw [← same, ← Path.lead_append]
    have passed : s ∈ back := by
      cases back with
      | nil =>
        obtain ⟨rfl, -⟩ := List.cons.inj left
        exact absurd rfl plain.2.2
      | cons b back =>
        obtain ⟨rfl, -⟩ := List.cons.inj left
        exact List.mem_cons_self
    refine (steady (marks ++ back) after ?_ ⟨s, List.mem_append_right _ passed, plain⟩).2
    rw [split, left, List.append_assoc]

end Steady

theorem below_of_not_walkable (barred : ¬ Walkable dir) : t.below dir name = none := by
  obtain ⟨reason, error, -⟩ := follow_of_not_walkable (t := t) barred
  rw [below, error]

/-- A path is followed to the directory that its text leads to. -/
theorem follow_of_steadyFrom (valid : t.Valid)
    (steady : t.SteadyFrom (t.start dir) (Path.pieces dir)) (walkable : Walkable dir)
    (here : t.node? (t.placeOf dir) = some .directory) :
    t.follow dir = .ok (.found (t.placeOf dir) .directory) := by
  have follows := followFrom_open valid (open_of_steadyFrom valid steady here) []
  rw [List.append_nil, followFrom] at follows
  rw [follow_of_walkable walkable, follows, placeOf]

/-- What stands below a directory is told by the text of its path. -/
theorem below_eq_fileAt? (valid : t.Valid)
    (steady : t.SteadyFrom (t.start dir) (Path.pieces dir)) (walkable : Walkable dir) :
    t.below dir name = t.fileAt? (t.placeOf dir ++ Path.pieces name) := by
  unfold below
  split
  · rename_i place follows
    rw [follow_of_walkable walkable] at follows
    rw [(eq_lead_of_found valid follows).1, placeOf]
  · rename_i other
    -- A file would stand in a directory, and the path would lead there.
    by_contra present
    obtain ⟨data, stands⟩ := Option.ne_none_iff_exists'.1 (Ne.symm present)
    rw [fileAt?_eq_some_iff] at stands
    have here := valid.directory_append (Path.pieces_ne_nil name) stands
    exact other _ (follow_of_steadyFrom valid steady walkable here)

/-- Directories that are added do not change the files below a directory. -/
theorem Grows.below (grows : Grows t t') (valid : t.Valid)
    (steady : t.SteadyFrom (t.start dir) (Path.pieces dir)) :
    t'.below dir name = t.below dir name := by
  by_cases walkable : Walkable dir
  · have steady' : t'.SteadyFrom (t'.start dir) (Path.pieces dir) := by
      intro before after split named
      rw [grows.start]
      exact grows.directory _ not_false (steady before after split named)
    rw [below_eq_fileAt? valid steady walkable, below_eq_fileAt? (grows.valid valid) steady' walkable,
      placeOf, placeOf, grows.start, grows.file _ not_false]
  · rw [below_of_not_walkable walkable, below_of_not_walkable walkable]

/-! ## Listing -/

theorem mem_filesBelow (valid : t.Valid) {place rel : List String} {data : ByteArray}
    (below : rel ≠ []) :
    (rel, data) ∈ t.filesBelow place ↔ t.fileAt? (place ++ rel) = some data := by
  rw [fileAt?_eq_some_iff, valid.node?_eq_some_iff (by simp [below]), filesBelow,
    List.mem_mergeSort, List.mem_filterMap]
  constructor
  · rintro ⟨⟨key, content | _⟩, mem, found⟩
    · dsimp only at found
      split at found
      · rename_i above
        obtain ⟨rest, rfl⟩ := List.isPrefixOf_iff_prefix.1 above
        simp only [Option.some.injEq, Prod.mk.injEq, List.drop_left] at found
        obtain ⟨rfl, rfl⟩ := found
        exact mem
      · cases found
    · cases found
  · intro mem
    refine ⟨_, mem, ?_⟩
    have above : place.isPrefixOf (place ++ rel) = true :=
      List.isPrefixOf_iff_prefix.2 (List.prefix_append _ _)
    simp [above]

theorem isEntry_of_mem_filesBelow (valid : t.Valid) {place : List String}
    {e : List String × ByteArray} (mem : e ∈ t.filesBelow place) : ∀ s ∈ e.1, IsEntry s := by
  intro s here
  have stands := (mem_filesBelow valid (List.ne_nil_of_mem here)).1 mem
  exact valid.isEntry (fileAt?_eq_some_iff.1 stands) s (List.mem_append_right _ here)

/-- A listed file stands where its name leads. -/
theorem fileAt?_of_mem_filesBelow (valid : t.Valid) {place : List String}
    {e : List String × ByteArray} (mem : e ∈ t.filesBelow place)
    (named : Disk.isName ("/".intercalate e.1) = true) :
    t.fileAt? (place ++ Path.pieces ("/".intercalate e.1)) = some e.2 := by
  have some : e.1 ≠ [] := by
    intro none
    rw [none] at named
    revert named
    decide
  rw [Path.pieces_intercalate some fun s here => (isEntry_of_mem_filesBelow valid mem s here).2.1]
  exact (mem_filesBelow valid some).1 mem

end FileTree

namespace Disk

variable {d : Disk} {t : FileTree} {dir name : String}

/-! ## Loading -/

@[simp] theorem find?_saved : (d.saved name).find? = d.find? := rfl

/-- After an error nothing is loaded any more. -/
theorem Loading.foldl_of_error {l : Loading} (failed : l.error ≠ none)
    (entries : List (List String × ByteArray)) : entries.foldl (Loading.file dir) l = l := by
  induction entries with
  | nil => rfl
  | cons entry entries ih =>
    have same : l.file dir entry = l := by
      rcases l.file_cases dir entry with ⟨-, same⟩ | ⟨none, -⟩ | ⟨none, -⟩ | ⟨none, -⟩
      · exact same
      all_goals exact absurd none failed
    rw [List.foldl_cons, same, ih]

/-- What is loaded without an error is all that was given under valid names. -/
theorem Loading.find?_foldl (dir : String) (content : String → Option ByteArray)
    {entries : List (List String × ByteArray)} (l : Loading)
    (given : ∀ e ∈ entries, isName ("/".intercalate e.1) = true →
      content ("/".intercalate e.1) = some e.2)
    (fine : (entries.foldl (Loading.file dir) l).error = none) (valid : isName name = true) :
    (entries.foldl (Loading.file dir) l).disk.find? name =
      if name ∈ entries.map ("/".intercalate ·.1) then content name else l.disk.find? name := by
  induction entries generalizing l with
  | nil => simp
  | cons entry entries ih =>
    obtain ⟨first, later⟩ := List.forall_mem_cons.1 given
    rw [List.foldl_cons] at fine ⊢
    rw [ih _ later fine]
    rcases l.file_cases dir entry with ⟨failed, same⟩ | ⟨-, skipped, remarks, same⟩ |
      ⟨-, -, e, -, stopped⟩ | ⟨-, disk, written, stored⟩
    · rw [same, foldl_of_error (Option.isSome_iff_ne_none.1 failed)] at fine
      rw [fine] at failed
      cases failed
    · have apart : name ≠ "/".intercalate entry.1 := by
        rintro rfl
        rw [valid] at skipped
        cases skipped
      simp only [same, List.map_cons, List.mem_cons, apart, false_or]
    · rw [stopped, foldl_of_error (by simp)] at fine
      cases fine
    · obtain ⟨named, -, rfl⟩ := write_eq_ok_iff.1 written
      rw [stored]
      by_cases same : name = "/".intercalate entry.1
      · subst same
        simp [find?_stored, first named]
      · simp only [find?_saved, find?_stored_of_ne same, List.map_cons, List.mem_cons, same,
          false_or]

theorem load_of_follow (d : Disk) {place : List String} {node : FileNode}
    (follows : t.follow dir = .ok (.found place node)) :
    d.load t dir = d.loadFiles dir (t.filesBelow place) none := by
  rw [load, FileTree.walk, follows]

/-- Loading takes the files below a place. -/
theorem find?_loadFiles (valid : t.Valid) {place : List String}
    (fine : (loadFiles {} dir (t.filesBelow place) none).error = none)
    (named : isName name = true) :
    (loadFiles {} dir (t.filesBelow place) none).disk.find? name =
      t.fileAt? (place ++ Path.pieces name) := by
  have loaded := Loading.find?_foldl dir (fun name => t.fileAt? (place ++ Path.pieces name))
    { disk := {} } (fun e => FileTree.fileAt?_of_mem_filesBelow valid)
    (Option.or_eq_none_iff.1 fine).1 named
  refine Eq.trans loaded ?_
  split_ifs with present
  · rfl
  · cases stands : t.fileAt? (place ++ Path.pieces name) with
    | none => rfl
    | some data =>
      have mem := (FileTree.mem_filesBelow valid (Path.pieces_ne_nil name)).2 stands
      exact absurd (List.mem_map.2 ⟨_, mem, Path.intercalate_pieces name⟩) present

/-- The files that a disk is loaded with. -/
theorem find?_load (valid : t.Valid) (fine : (load {} t dir).error = none)
    (named : isName name = true) : (load {} t dir).disk.find? name = t.below dir name := by
  by_cases found : ∃ place node, t.follow dir = .ok (.found place node)
  · obtain ⟨place, node, follows⟩ := found
    rw [load_of_follow _ follows] at fine ⊢
    rw [find?_loadFiles valid fine named, FileTree.below, follows]
    cases node with
    | directory => rfl
    | file data =>
      -- Nothing stands below a file.
      have walkable := FileTree.walkable_of_follow follows
      rw [FileTree.follow_of_walkable walkable] at follows
      obtain ⟨-, here | ⟨other, -⟩⟩ := FileTree.eq_lead_of_found valid follows
      · cases stands : t.fileAt? (place ++ Path.pieces name) with
        | none => rfl
        | some content =>
          have dir := valid.directory_append (Path.pieces_ne_nil name)
            (FileTree.fileAt?_eq_some_iff.1 stands)
          rw [here] at dir
          cases dir
      · cases other
  · have none : t.below dir name = none := by
      unfold FileTree.below
      split
      · rename_i place follows
        exact absurd ⟨place, _, follows⟩ found
      · rfl
    rw [none, load, FileTree.walk]
    split
    · rfl
    · rename_i files listed
      split at listed
      · rename_i place node follows
        exact absurd ⟨place, node, follows⟩ found
      all_goals cases listed

/-! ## Loading again -/

theorem total_le_of_subset {files more : List (String × ByteArray)}
    (distinct : (files.map (·.1)).Nodup) (subset : files ⊆ more) : total files ≤ total more := by
  obtain ⟨some, perm, sub⟩ := (List.Nodup.of_map _ distinct).subperm subset
  have same : total some = total files := (perm.map _).sum_eq
  rw [← same]
  exact (sub.map _).sum_le_sum fun _ _ => Nat.zero_le _

/-- A disk that holds nothing but what another one holds has room for one more file of that. -/
theorem write_of_subset {d more : Disk} {data : ByteArray} (right : d.Accounted)
    (enough : more.Accounted)
    (subset : ∀ n content, d.find? n = some content → more.find? n = some content)
    (held : more.find? name = some data) :
    d.write name data = .ok (d.stored name data) := by
  have named := enough.isName_of_find? held
  refine write_eq_ok_iff.2 ⟨named, ?_, rfl⟩
  have distinct : ((put d.files name data).map (·.1)).Nodup := by
    rw [map_fst_put]
    exact nodup_mark right.distinct name
  have fewer : total (put d.files name data) ≤ total more.files := by
    refine total_le_of_subset distinct fun e mem => ?_
    have stored := (Entries.lookup_eq_some_iff distinct).2 mem
    rw [← Entries.lookup_eq_some_iff enough.distinct]
    by_cases same : e.1 = name
    · rw [same, lookup_put] at stored
      rw [same, ← stored]
      exact held
    · rw [lookup_put_of_ne same] at stored
      exact subset _ _ stored
  have size := @total_put d.files name data
  have old := right.sizeOf_le name
  have limit := enough.within
  rw [enough.used] at limit
  rw [right.used, sizeOf, find?] at *
  omega

theorem Loading.error_foldl {more : Disk} (enough : more.Accounted)
    {entries : List (List String × ByteArray)}
    (given : ∀ e ∈ entries, isName ("/".intercalate e.1) = true →
      more.find? ("/".intercalate e.1) = some e.2) {l : Loading} (fine : l.error = none)
    (right : l.disk.Accounted)
    (subset : ∀ n content, l.disk.find? n = some content → more.find? n = some content) :
    (entries.foldl (Loading.file dir) l).error = none := by
  induction entries generalizing l with
  | nil => exact fine
  | cons entry entries ih =>
    obtain ⟨first, later⟩ := List.forall_mem_cons.1 given
    rw [List.foldl_cons]
    have kept := Accounted.loading dir right entry
    rcases l.file_cases dir entry with ⟨failed, -⟩ | ⟨-, -, remarks, same⟩ |
      ⟨-, named, e, refused, -⟩ | ⟨-, disk, written, stored⟩
    · rw [fine] at failed
      cases failed
    · rw [same] at kept ⊢
      exact ih later fine kept subset
    · rw [write_of_subset right enough subset (first named)] at refused
      cases refused
    · rw [stored] at kept ⊢
      refine ih later fine kept fun n content found => ?_
      obtain ⟨named, -, rfl⟩ := write_eq_ok_iff.1 written
      rw [find?_saved] at found
      by_cases same : n = "/".intercalate entry.1
      · rw [same, find?_stored] at found
        rw [same, first named, found]
      · rw [find?_stored_of_ne same] at found
        exact subset n content found

/-- **A disk that holds what stands below a directory can be loaded from there again.** -/
theorem load_same {place : List String} (valid : t.Valid) (right : d.Accounted)
    (agree : ∀ name, isName name = true → d.find? name = t.below dir name)
    (follows : t.follow dir = .ok (.found place .directory)) :
    (load {} t dir).error = none ∧ ∀ name, (load {} t dir).disk.find? name = d.find? name := by
  have given : ∀ e ∈ t.filesBelow place, isName ("/".intercalate e.1) = true →
      d.find? ("/".intercalate e.1) = some e.2 := by
    intro e mem named
    rw [agree _ named, FileTree.below, follows]
    exact FileTree.fileAt?_of_mem_filesBelow valid mem named
  have fine : (load {} t dir).error = none := by
    rw [load_of_follow _ follows]
    refine Option.or_eq_none_iff.2 ⟨?_, rfl⟩
    exact Loading.error_foldl right given rfl .empty (by rintro n content ⟨⟩)
  refine ⟨fine, fun name => ?_⟩
  by_cases named : isName name = true
  · rw [find?_load valid fine named, agree name named]
  · -- Neither disk has anything under a name that is not valid.
    have loaded : (load {} t dir).disk.Accounted := by
      rw [load_of_follow _ follows]
      exact Accounted.empty.loadFiles dir _ none
    rw [loaded.find?_eq_none named, right.find?_eq_none named]

end Disk

end RoomScript
