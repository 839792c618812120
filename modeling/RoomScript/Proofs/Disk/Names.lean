import Mathlib.Computability.Language
import RoomScript.Proofs.Path

/-!
# Names below a directory

A valid name is a word of a regular language, in which a segment starts with a letter, a digit or an
underscore.  So it has no empty segment and no mark, and below any directory it has a path of its
own that does not leave the directory.

* `Disk.isName_iff` gives the names as a regular language;
* `Disk.clean_of_isName` says that a name is a relative path in its cleaned form;
* `Path.reducedSegments_join` and `Path.join_text` are the path of a name below a directory, by its
  segments and by its text, and `Path.join_injective` says that no other name has it.
-/

namespace RoomScript

open scoped Computability
open RoomScript.Path (pieces Slashless IsPlain Reduced render reducedSegments)

/-! ## The language of names -/

namespace Disk

/-- The one-letter words over some characters. -/
def letter (allowed : Char → Bool) : Language Char :=
  {word | ∃ c, allowed c = true ∧ word = [c]}

/-- The words of segments. -/
def segmentWord : Language Char :=
  letter isSegmentStart * (letter isSegmentPart)∗

/-- The words of names: segments with slashes between them. -/
def nameWord : Language Char :=
  segmentWord * (letter (· == '/') * segmentWord)∗

theorem mem_kstar_letter {allowed : Char → Bool} {word : List Char} :
    word ∈ (letter allowed)∗ ↔ word.all allowed = true := by
  constructor
  · rintro ⟨letters, rfl, each⟩
    rw [List.all_eq_true]
    intro c mem
    obtain ⟨one, here, inside⟩ := List.mem_flatten.1 mem
    obtain ⟨d, fine, rfl⟩ := each one here
    rwa [List.mem_singleton.1 inside]
  · intro all
    have flat : word = (word.map fun c => [c]).flatten := by
      rw [← List.flatMap_def, List.flatMap_singleton']
    rw [flat]
    refine Language.join_mem_kstar fun one mem => ?_
    obtain ⟨c, here, rfl⟩ := List.mem_map.1 mem
    exact ⟨c, List.all_eq_true.1 all c here, rfl⟩

theorem isSegment_iff {segment : String} :
    isSegment segment = true ↔ segment.toList ∈ segmentWord := by
  unfold isSegment segmentWord
  rw [Language.mem_mul]
  constructor
  · cases chars : segment.toList with
    | nil => simp
    | cons c rest =>
      intro fine
      obtain ⟨first, later⟩ := Bool.and_eq_true_iff.1 fine
      exact ⟨[c], ⟨c, first, rfl⟩, rest, mem_kstar_letter.2 later, rfl⟩
  · rintro ⟨front, ⟨c, first, rfl⟩, rest, later, split⟩
    rw [← split]
    exact Bool.and_eq_true_iff.2 ⟨first, mem_kstar_letter.1 later⟩

theorem slashless_of_mem_segmentWord {word : List Char} (mem : word ∈ segmentWord) :
    Slashless (String.ofList word) := by
  obtain ⟨front, ⟨c, first, rfl⟩, rest, later, rfl⟩ := Language.mem_mul.1 mem
  rw [Slashless, String.toList_ofList, List.mem_append, not_or]
  constructor
  · rintro slash
    rw [← List.mem_singleton.1 slash] at first
    cases first
  · intro slash
    have part := List.all_eq_true.1 (mem_kstar_letter.1 later) _ slash
    cases part

/-- Words with slashes in front are joined by slashes behind a first word. -/
theorem toList_intercalate_slash (first : String) (others : List String) :
    ("/".intercalate (first :: others)).toList =
      first.toList ++ (others.map fun s => '/' :: s.toList).flatten := by
  have mark : "/".toList = ['/'] := rfl
  rw [String.toList_intercalate, mark]
  induction others generalizing first with
  | nil => simp
  | cons second others ih =>
    have rest := ih second
    simp only [List.map_cons, List.intercalate_cons_cons, List.flatten_cons] at rest ⊢
    rw [rest]
    simp

/-- **The valid names are the words of a regular language**: segments with slashes between them,
where a segment starts with a letter, a digit or an underscore and may go on with dots and hyphens
too. -/
theorem isName_iff {name : String} : isName name = true ↔ name.toList ∈ nameWord := by
  constructor
  · intro valid
    obtain ⟨first, others, split⟩ := List.exists_cons_of_ne_nil (Path.pieces_ne_nil name)
    have text := toList_intercalate_slash first others
    rw [← split, Path.intercalate_pieces] at text
    rw [isName, split, List.all_cons] at valid
    obtain ⟨head, later⟩ := Bool.and_eq_true_iff.1 valid
    rw [text]
    refine Language.append_mem_mul (isSegment_iff.1 head)
      (Language.join_mem_kstar fun word mem => ?_)
    obtain ⟨s, here, rfl⟩ := List.mem_map.1 mem
    exact Language.append_mem_mul (a := ['/']) ⟨'/', rfl, rfl⟩
      (isSegment_iff.1 (List.all_eq_true.1 later s here))
  · intro word
    obtain ⟨first, head, rest, ⟨words, rfl, each⟩, split⟩ := Language.mem_mul.1 word
    -- Behind each slash there is a segment.
    have others : ∃ segments : List String, (∀ s ∈ segments, s.toList ∈ segmentWord) ∧
        words = segments.map fun s => '/' :: s.toList := by
      clear split
      induction words with
      | nil => exact ⟨[], by simp, rfl⟩
      | cons word words ih =>
        obtain ⟨one, later⟩ := List.forall_mem_cons.1 each
        obtain ⟨segments, fine, rfl⟩ := ih later
        obtain ⟨mark, ⟨c, slash, rfl⟩, chars, segment, rfl⟩ := Language.mem_mul.1 one
        refine ⟨String.ofList chars :: segments, List.forall_mem_cons.2 ⟨?_, fine⟩, ?_⟩
        · rwa [String.toList_ofList]
        · rw [eq_of_beq slash, List.map_cons, String.toList_ofList]
          rfl
    obtain ⟨segments, fine, rfl⟩ := others
    have whole : ∀ s ∈ String.ofList first :: segments, s.toList ∈ segmentWord := by
      refine List.forall_mem_cons.2 ⟨?_, fine⟩
      rwa [String.toList_ofList]
    have text : name = "/".intercalate (String.ofList first :: segments) := by
      rw [← String.toList_inj, toList_intercalate_slash, String.toList_ofList, split]
    have apart : ∀ s ∈ String.ofList first :: segments, Slashless s := fun s mem => by
      have slashless := slashless_of_mem_segmentWord (whole s mem)
      rwa [String.ofList_toList] at slashless
    rw [isName, text, Path.pieces_intercalate (List.cons_ne_nil _ _) apart, List.all_eq_true]
    exact fun s mem => isSegment_iff.2 (whole s mem)

end Disk

/-! ## Paths of names -/

namespace Path

/-- The segments of a cleaned path are read again from its text. -/
theorem reducedSegments_render {rooted : Bool} {segments : List String}
    (reduced : Reduced rooted segments) (slashless : ∀ s ∈ segments, Slashless s) :
    reducedSegments (render rooted segments) = segments := by
  obtain ⟨blanks, blank, split⟩ := exists_pieces_render rooted slashless
  rw [reducedSegments, isAbsolute_render reduced slashless, split, List.foldl_append,
    foldl_pushSegment_blank blank, reduced.foldl_pushSegment, List.reverse_reverse]

theorem intercalate_append {before after : List String} (some : before ≠ []) (more : after ≠ [])
    (slashless : ∀ s ∈ before ++ after, Slashless s) :
    "/".intercalate (before ++ after) = "/".intercalate before ++ "/" ++ "/".intercalate after := by
  obtain ⟨front, back⟩ := List.forall_mem_append.1 slashless
  refine pieces_injective ?_
  rw [pieces_intercalate (by simp [some]) slashless, pieces_slash, pieces_intercalate some front,
    pieces_intercalate more back]

section Name

variable {dir name : String} (valid : Disk.isName name = true)
include valid

theorem reduced_pieces (rooted : Bool) : Reduced rooted (pieces name) :=
  ⟨0, pieces name, rfl, isPlain_of_isName valid, fun _ => rfl⟩

/-- **A name is a relative path in its cleaned form.** -/
theorem clean_of_isName : isAbsolute name = false ∧ clean name = name := by
  have relative : isAbsolute name = false := by
    rw [Bool.eq_false_iff, Ne, isAbsolute_iff]
    rintro ⟨first, -⟩
    exact (isPlain_of_isName valid "" (List.mem_of_mem_head? first)).1 rfl
  refine ⟨relative, ?_⟩
  have whole : pieces name = [] ++ pieces name ++ [] := by simp
  rw [clean_of_pieces relative (reduced_pieces valid false) (by simp) (by simp) whole, render,
    if_neg Bool.false_ne_true, if_neg (pieces_ne_nil name), intercalate_pieces]

/-- The path of a name below a directory, also below one that is not given. -/
theorem join_eq : join [dir, name] =
    render (isAbsolute dir) (reducedSegments dir ++ pieces name) := by
  by_cases given : dir = ""
  · subst given
    have named : name ≠ "" := by
      rintro rfl
      exact (isPlain_of_isName valid "" (by decide)).1 rfl
    have joined : join ["", name] = clean name := by simp [join, named]
    have none : reducedSegments "" = [] := by decide
    have relative : isAbsolute "" = false := by decide
    rw [joined, clean_eq_render, (clean_of_isName valid).1, none, relative, reducedSegments,
      (reduced_pieces valid _).foldl_pushSegment, List.reverse_reverse, List.nil_append]
  · exact join_eq_render given valid

/-- The path of a name below a directory has the segments of the directory and behind them those of
the name. -/
theorem reducedSegments_join : isAbsolute (join [dir, name]) = isAbsolute dir ∧
    reducedSegments (join [dir, name]) = reducedSegments dir ++ pieces name := by
  have reduced := (reduced_reducedSegments dir).append (isPlain_of_isName valid)
  have slashless : ∀ s ∈ reducedSegments dir ++ pieces name, Slashless s :=
    List.forall_mem_append.2
      ⟨fun s => slashless_of_mem_reducedSegments, fun s => slashless_of_mem_pieces⟩
  rw [join_eq valid]
  exact ⟨isAbsolute_render reduced slashless, reducedSegments_render reduced slashless⟩

/-- **The text of a path below a directory** is that of the directory in its cleaned form and behind
it the name; the working directory is left out. -/
theorem join_text : join [dir, name] =
    if clean dir = "." then name
    else if clean dir = "/" then "/" ++ name else clean dir ++ "/" ++ name := by
  have reduced := reduced_reducedSegments dir
  have apart : ∀ s ∈ reducedSegments dir, Slashless s := fun s => slashless_of_mem_reducedSegments
  have slashless : ∀ s ∈ reducedSegments dir ++ pieces name, Slashless s :=
    List.forall_mem_append.2 ⟨apart, fun s => slashless_of_mem_pieces⟩
  have more : reducedSegments dir ++ pieces name ≠ [] := by simp [pieces_ne_nil]
  rw [join_eq valid, clean_eq_render]
  generalize isAbsolute dir = rooted at reduced ⊢
  generalize reducedSegments dir = segments at *
  by_cases none : segments = []
  · -- Nothing is left of the directory but the root or the working directory.
    subst none
    cases rooted with
    | true => simp [render, intercalate_pieces]
    | false => simp [render, pieces_ne_nil, intercalate_pieces]
  · have joined := intercalate_append none (pieces_ne_nil name) slashless
    have text : pieces ("/".intercalate segments) = segments := pieces_intercalate none apart
    have notEmpty : "/".intercalate segments ≠ "" := mt reduced.intercalate_eq_empty_iff.1 none
    rw [intercalate_pieces] at joined
    cases rooted with
    | true =>
      have notDot : "/" ++ "/".intercalate segments ≠ "." := by
        rw [Ne, ← String.toList_inj]
        simp
      have notRoot : "/" ++ "/".intercalate segments ≠ "/" := by
        intro root
        exact notEmpty ((String.append_right_inj "/").1 (root.trans String.append_empty.symm))
      simp only [render, if_true, joined, if_neg notDot, if_neg notRoot, String.append_assoc]
    | false =>
      have notDot : "/".intercalate segments ≠ "." := by
        intro dot
        rw [dot, show pieces "." = ["."] by decide] at text
        obtain ⟨marks, names, split, plain, -⟩ := reduced.split
        have mem : "." ∈ List.replicate marks ".." ++ names := by
          rw [← split, ← text]
          exact List.mem_singleton_self _
        rcases List.mem_append.1 mem with mark | named
        · exact absurd (List.eq_of_mem_replicate mark) (by decide)
        · exact (plain "." named).2.1 rfl
      have notRoot : "/".intercalate segments ≠ "/" := by
        intro root
        rw [root, show pieces "/" = ["", ""] by decide] at text
        exact reduced.ne_empty "" (by simp [← text]) rfl
      simp only [render, Bool.false_eq_true, if_false, if_neg none, if_neg more, joined,
        if_neg notDot, if_neg notRoot]

end Name

/-- **No two names have one path below a directory.** -/
theorem join_injective {dir name other : String} (valid : Disk.isName name = true)
    (valid' : Disk.isName other = true) (same : join [dir, name] = join [dir, other]) :
    name = other := by
  have segments : reducedSegments (join [dir, name]) = reducedSegments dir ++ pieces name :=
    (reducedSegments_join valid).2
  rw [same, (reducedSegments_join valid').2] at segments
  exact pieces_injective (List.append_cancel_left segments).symm

end Path

end RoomScript
