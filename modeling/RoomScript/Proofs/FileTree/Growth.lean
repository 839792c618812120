import RoomScript.Proofs.FileTree.Following

/-!
# Making directories

Making directories adds to a tree and changes nothing that stands there, also where it fails
halfway.

* `FileTree.Grows` are the trees that come by adding directories;
* `FileTree.grows_makeDirs` says that making directories does that, and that the directory is there
  when it succeeds.
-/

namespace RoomScript.FileTree

open RoomScript.Path (IsPlain Slashless lead)

variable {t t' t'' : FileTree} {path : String}

/-- One tree has the files of the other and all its directories, and maybe more of these. -/
structure Grows (t t' : FileTree) : Prop extends Keeps (fun _ => False) t t' where
  valid : t.Valid → t'.Valid

theorem Grows.refl (t : FileTree) : Grows t t :=
  ⟨Keeps.refl _ t, fun valid => valid⟩

theorem Grows.trans (first : Grows t t') (second : Grows t' t'') : Grows t t'' :=
  ⟨first.toKeeps.trans second.toKeeps, fun valid => second.valid (first.valid valid)⟩

theorem Grows.start (grows : Grows t t') (path : String) : t'.start path = t.start path := by
  rw [FileTree.start, FileTree.start, grows.workingDir]

theorem Grows.anchored {place segments : List String} (grows : Grows t t')
    (anchored : t.Anchored place segments) : t'.Anchored place segments := by
  intro marks s rest split nameless plain
  exact grows.directory _ not_false (anchored marks s rest split nameless plain)

/-- A directory is made where nothing stands. -/
theorem Grows.set {place : List String} (valid : t.Valid) (below : place ≠ [])
    (free : t.node? place = none) (parent : t.node? place.dropLast = some .directory)
    (entry : ∀ s ∈ place, IsEntry s) : Grows t (t.set place .directory) where
  workingDir := workingDir_set
  directory p _ here := by
    by_cases same : p = place
    · rw [same, node?_set below]
    · rw [node?_set_of_ne same, here]
  file p _ := by
    by_cases same : p = place
    · subst same
      simp only [fileAt?, node?_set below, free]
    · exact fileAt?_congr (node?_set_of_ne same)
  valid _ := valid.set entry below parent fun _ => rfl

/-! ## Parents -/

theorem exists_parentPart_append {path : List Char} (some : parentPart path ≠ []) :
    ∃ last, path = parentPart path ++ '/' :: last := by
  let found := (path.reverse.dropWhile (· == '/')).dropWhile (· != '/')
  have parts : parentPart path = found.tail.reverse := rfl
  have cut : found <:+ path.reverse :=
    (List.dropWhile_suffix _).trans (List.dropWhile_suffix _)
  obtain ⟨front, split⟩ := cut
  cases here : found with
  | nil =>
    rw [parts, here] at some
    exact absurd rfl some
  | cons c parent =>
    have slash : c = '/' := by
      have some : found ≠ [] := by simp [here]
      have stops : (found.head some != '/') = false := List.head_dropWhile_not _ some
      simpa [here] using stops
    refine ⟨front.reverse, ?_⟩
    rw [parts, here, List.tail_cons]
    have whole := congrArg List.reverse split
    rw [here, slash] at whole
    simpa using whole.symm

/-- The parent of a path starts where the path starts, and is followed by the same segments. -/
theorem pieces_parentPart {path : List Char} (some : parentPart path ≠ []) :
    Path.isAbsolute (String.ofList (parentPart path)) = Path.isAbsolute (String.ofList path) ∧
      Path.pieces (String.ofList (parentPart path)) <+: Path.pieces (String.ofList path) := by
  obtain ⟨last, split⟩ := exists_parentPart_append some
  have text : String.ofList path =
      String.ofList (parentPart path) ++ "/" ++ String.ofList last := by
    rw [← String.toList_inj]
    simpa using split
  constructor
  · rw [text]
    simp [Path.isAbsolute, List.head?_append_of_ne_nil _ some]
  · rw [text, Path.pieces_slash]
    exact List.prefix_append _ _

/-! ## Making directories -/

/-- What a path that leads to a directory says of the tree. -/
def HasDirectory (t : FileTree) (path : String) : Prop :=
  Walkable path ∧
    (t.node? (t.placeOf path) = some .directory ∨ ∀ s ∈ Path.pieces path, ¬ IsPlain s)

theorem hasDirectory_of_stat (valid : t.Valid) (found : t.stat path = .ok .directory) :
    t.HasDirectory path := by
  unfold stat at found
  split at found
  · rename_i place node follows
    cases found
    have walkable := walkable_of_follow follows
    rw [follow_of_walkable walkable] at follows
    obtain ⟨rfl, here | ⟨-, marks⟩⟩ := eq_lead_of_found valid follows
    · exact ⟨walkable, .inl here⟩
    · exact ⟨walkable, .inr marks⟩
  all_goals cases found

theorem grows_makeDir (valid : t.Valid) (anchored : t.Anchored (t.start path) (Path.pieces path))
    (made : t.makeDir path = .ok t') : Grows t t' ∧ t'.HasDirectory path := by
  unfold makeDir at made
  split at made
  case h_2 place asDirectory follows =>
    cases made
    have walkable := walkable_of_follow follows
    rw [follow_of_walkable walkable] at follows
    obtain ⟨leads, below, free, parent, entry⟩ := absent_of_followFrom valid anchored
      (fun s => Path.slashless_of_mem_pieces) follows
    have grows := Grows.set valid below free parent entry
    refine ⟨grows, walkable, .inl ?_⟩
    rw [placeOf, grows.start, ← leads, node?_set below]
  all_goals cases made

theorem grows_makeDirsFrom (path : List Char) (valid : t.Valid)
    (anchored : t.Anchored (t.start (String.ofList path)) (Path.pieces (String.ofList path))) :
    Grows t (t.makeDirsFrom path).2 ∧
      ((t.makeDirsFrom path).1 = none →
        (t.makeDirsFrom path).2.HasDirectory (String.ofList path)) := by
  induction long : path.length using Nat.strong_induction_on generalizing t path with
  | _ length ih =>
    rw [makeDirsFrom]
    split
    · rename_i found
      exact ⟨.refl t, fun _ => hasDirectory_of_stat valid found⟩
    · exact ⟨.refl t, fun ok => by cases ok⟩
    · -- The directories above come first.
      have above : Grows t (if _h : parentPart path = [] then (none, t)
          else t.makeDirsFrom (parentPart path) : Option Fault × FileTree).2 := by
        split
        · exact .refl t
        · rename_i some
          obtain ⟨root, shorter⟩ := pieces_parentPart some
          have smaller : (parentPart path).length < length := by
            rw [← long]
            refine length_parentPart path ?_
            rintro rfl
            exact some rfl
          have first :
              t.start (String.ofList (parentPart path)) = t.start (String.ofList path) := by
            rw [FileTree.start, FileTree.start, root]
          refine (ih _ smaller _ valid ?_ rfl).1
          rw [first]
          exact anchored.shorten shorter
      revert above
      generalize (if _h : parentPart path = [] then (none, t)
        else t.makeDirsFrom (parentPart path) : Option Fault × FileTree) = result
      intro above
      obtain ⟨failed, t₁⟩ := result
      have valid₁ : t₁.Valid := above.valid valid
      have anchored₁ : t₁.Anchored (t₁.start (String.ofList path))
          (Path.pieces (String.ofList path)) := by
        have same := above.start (String.ofList path)
        rw [same]
        exact above.anchored anchored
      cases failed with
      | some fault => exact ⟨above, fun ok => by cases ok⟩
      | none =>
        dsimp only
        split
        · rename_i t₂ made
          obtain ⟨grows, has⟩ := grows_makeDir valid₁ anchored₁ made
          exact ⟨above.trans grows, fun _ => has⟩
        · rename_i found
          exact ⟨above, fun _ => hasDirectory_of_stat valid₁ found⟩
        · exact ⟨above, fun ok => by cases ok⟩

theorem grows_makeDirs (valid : t.Valid) (anchored : t.Anchored (t.start path) (Path.pieces path)) :
    Grows t (t.makeDirs path).2 ∧
      ((t.makeDirs path).1 = none → (t.makeDirs path).2.HasDirectory path) := by
  have text : String.ofList path.toList = path := String.ofList_toList
  have result := grows_makeDirsFrom (t := t) path.toList valid (by rwa [text])
  rwa [text] at result

end RoomScript.FileTree
