import RoomScript.FileTree
import RoomScript.Library
import RoomScript.Text.Quoted

/-!
# Sources from a file tree

Sources can be read from a file tree.  A path that is not absolute is looked for beside the
including file first, and then in each of the include directories.
-/

namespace RoomScript

/-! ## Finitely many paths -/

namespace Text

/-- There are finitely many characters. -/
theorem finite_chars : ∃ chars : List Char, ∀ c, c ∈ chars := by
  refine ⟨(List.range 0x110000).map Char.ofNat, fun c => List.mem_map.2 ⟨c.toNat, ?_, ?_⟩⟩
  · have := c.valid
    simp only [List.mem_range]
    rcases this with h | h <;> simp only [Char.toNat] <;> omega
  · exact Char.ofNat_toNat c

/-- There are finitely many character lists of bounded length. -/
theorem finite_lists (n : Nat) : ∃ lists : List (List Char), ∀ cs, cs.length ≤ n → cs ∈ lists := by
  obtain ⟨chars, hc⟩ := finite_chars
  induction n with
  | zero => exact ⟨[[]], fun cs h => by simp [List.eq_nil_of_length_eq_zero (Nat.le_zero.1 h)]⟩
  | succ n ih =>
    obtain ⟨lists, hl⟩ := ih
    refine ⟨[] :: chars.flatMap fun c => lists.map (c :: ·), fun cs h => ?_⟩
    cases cs with
    | nil => simp
    | cons c rest =>
      have := hl rest (by simpa using h)
      simp only [List.mem_cons, List.mem_flatMap, List.mem_map]
      exact .inr ⟨c, hc c, rest, this, rfl⟩

/-- Every character takes at least one byte. -/
theorem length_le_size (s : String) : s.length ≤ s.utf8ByteSize := by
  induction s using String.push_induction with
  | empty => simp
  | push b c ih =>
    have := c.utf8Size_pos
    simp only [String.length_push, String.utf8ByteSize_push]
    omega

/-- There are finitely many texts of bounded size. -/
theorem finite_texts (n : Nat) :
    ∃ texts : List String, ∀ s : String, s.utf8ByteSize ≤ n → s ∈ texts := by
  obtain ⟨lists, h⟩ := finite_lists n
  refine ⟨lists.map String.ofList, fun s hs => List.mem_map.2 ⟨s.toList, h _ ?_, ?_⟩⟩
  · rw [String.length_toList]
    exact Nat.le_trans (length_le_size s) hs
  · simp

end Text

namespace FileTree

/-- A path that can be read is not too long. -/
theorem size_of_read_ok {t : FileTree} {path : String} {data : ByteArray}
    (h : t.read path = .ok data) : path.utf8ByteSize ≤ maxPath := by
  unfold read stat at h
  rcases hf : t.follow path with reason | target
  · simp [hf] at h
  · unfold follow at hf
    split at hf
    · simp at hf
    · split at hf
      · simp at hf
      · split at hf
        · simp at hf
        · omega

/-- The wording of a failed read. -/
def readFailure (path : String) (f : Fault) : String :=
  "reading " ++ path ++ ": " ++ f.message

/-- The path that a quoted path means in the file `current`. -/
def resolve (t : FileTree) (includeDirs : List String) (current quoted : String) : Resolution :=
  if Path.isAbsolute quoted then ⟨quoted, none⟩
  else
    let beside := Path.join [Path.dir current, quoted]
    if t.contains beside then ⟨beside, none⟩
    else
      match includeDirs.find? fun dir => t.contains (Path.join [dir, quoted]) with
      | some dir =>
        ⟨Path.join [dir, quoted],
          some ("resolved include " ++ Text.quote quoted ++ " via include dir " ++ dir)⟩
      | none => ⟨beside, none⟩

/-- Read sources from a file tree. -/
def library (t : FileTree) (includeDirs : List String) : Library where
  read path :=
    match t.read path with
    | .ok data => .ok data
    | .error fault => .error (readFailure path fault)
  resolve := t.resolve includeDirs
  finite := by
    obtain ⟨texts, h⟩ := Text.finite_texts maxPath
    refine ⟨texts, fun path data found => h path ?_⟩
    split at found
    · rename_i readable
      exact size_of_read_ok readable
    · simp at found

end FileTree

end RoomScript
