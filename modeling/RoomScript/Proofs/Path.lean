import Mathlib.Tactic
import RoomScript.Disk

/-!
# Where paths lead by their text

A path leads from a place to a place by its text alone: an ordinary segment goes down, a parent mark
goes up, and all other segments stay.  Cleaning a path does not change where it leads.

* `Path.lead` follows segments, with `Path.IsPlain` for the ordinary ones;
* `Path.Reduced` is the form of a cleaned path, parent marks in front and ordinary segments behind
  them, and `Path.render` is its text;
* `Path.lead_reducedSegments` says that cleaning keeps the place;
* `Path.join_eq_render` and `Path.dir_render` are the paths that a disk is saved to.
-/

namespace RoomScript.Path

/-! ## Segments -/

/-- An ordinary segment, which names something. -/
def IsPlain (s : String) : Prop :=
  s ≠ "" ∧ s ≠ "." ∧ s ≠ ".."

instance : DecidablePred IsPlain := fun s =>
  inferInstanceAs (Decidable (s ≠ "" ∧ s ≠ "." ∧ s ≠ ".."))

theorem IsPlain.cases (s : String) : (s = "" ∨ s = ".") ∨ s = ".." ∨ IsPlain s := by
  by_cases empty : s = ""
  · exact .inl (.inl empty)
  by_cases dot : s = "."
  · exact .inl (.inr dot)
  by_cases parent : s = ".."
  · exact .inr (.inl parent)
  · exact .inr (.inr ⟨empty, dot, parent⟩)

/-- Follow one segment. -/
def advance (place : List String) (s : String) : List String :=
  if s = "" ∨ s = "." then place else if s = ".." then place.dropLast else place ++ [s]

/-- Follow segments. -/
def lead (place : List String) (segments : List String) : List String :=
  segments.foldl advance place

theorem advance_blank {s : String} (blank : s = "" ∨ s = ".") (place : List String) :
    advance place s = place :=
  if_pos blank

@[simp] theorem advance_parent (place : List String) : advance place ".." = place.dropLast := rfl

theorem advance_plain {s : String} (plain : IsPlain s) (place : List String) :
    advance place s = place ++ [s] := by
  rw [advance, if_neg (not_or.2 ⟨plain.1, plain.2.1⟩), if_neg plain.2.2]

@[simp] theorem lead_nil (place : List String) : lead place [] = place := rfl

@[simp] theorem lead_cons (place : List String) (s : String) (segments : List String) :
    lead place (s :: segments) = lead (advance place s) segments := rfl

theorem lead_append (place before after : List String) :
    lead place (before ++ after) = lead (lead place before) after :=
  List.foldl_append

theorem lead_blank {blanks : List String} (blank : ∀ s ∈ blanks, s = "" ∨ s = ".")
    (place : List String) : lead place blanks = place := by
  induction blanks with
  | nil => rfl
  | cons s blanks ih =>
    obtain ⟨first, later⟩ := List.forall_mem_cons.1 blank
    rw [lead_cons, advance_blank first, ih later]

theorem lead_plain {segments : List String} (plain : ∀ s ∈ segments, IsPlain s)
    (place : List String) : lead place segments = place ++ segments := by
  induction segments generalizing place with
  | nil => simp
  | cons s segments ih =>
    obtain ⟨first, later⟩ := List.forall_mem_cons.1 plain
    rw [lead_cons, advance_plain first, ih later, List.append_assoc, List.singleton_append]

/-- Without an ordinary segment there is no way down. -/
theorem lead_of_marks {segments : List String} (marks : ∀ s ∈ segments, ¬ IsPlain s)
    (place : List String) : lead place segments <+: place := by
  induction segments generalizing place with
  | nil => exact List.prefix_rfl
  | cons s segments ih =>
    obtain ⟨first, later⟩ := List.forall_mem_cons.1 marks
    have up : advance place s <+: place := by
      rcases IsPlain.cases s with blank | rfl | plain
      · rw [advance_blank blank]
      · exact List.dropLast_prefix place
      · exact absurd plain first
    exact (ih later _).trans up

/-- A place that segments have passed is on the way to where they lead, unless a parent mark has
left it. -/
theorem prefix_lead_or_left {place from_ : List String} (below : place <+: from_)
    (segments : List String) : place <+: lead from_ segments ∨
      ∃ before after, segments = before ++ ".." :: after ∧ lead from_ before = place := by
  induction segments generalizing from_ with
  | nil => exact .inl below
  | cons s segments ih =>
    -- Where the first segment leads is still below the place, unless it leaves the place itself.
    have step : place <+: advance from_ s ∨ (s = ".." ∧ from_ = place) := by
      rcases IsPlain.cases s with blank | rfl | plain
      · rw [advance_blank blank]
        exact .inl below
      · by_cases same : from_ = place
        · exact .inr ⟨rfl, same⟩
        · obtain ⟨rest, rfl⟩ := below
          have some : rest ≠ [] := by
            rintro rfl
            simp at same
          rw [advance_parent, List.dropLast_append_of_ne_nil some]
          exact .inl (List.prefix_append _ _)
      · rw [advance_plain plain]
        exact .inl (below.trans (List.prefix_append _ _))
    rcases step with below | ⟨rfl, rfl⟩
    · rcases ih below with on | ⟨before, after, rfl, left⟩
      · exact .inl on
      · exact .inr ⟨s :: before, after, rfl, left⟩
    · exact .inr ⟨[], segments, rfl, rfl⟩

/-! ## Pieces of a text -/

theorem pieces_ne_nil (p : String) : pieces p ≠ [] := by
  simp [pieces, List.splitOn_ne_nil]

/-- A text without a slash. -/
def Slashless (s : String) : Prop :=
  '/' ∉ s.toList

theorem pieces_intercalate {segments : List String} (some : segments ≠ [])
    (slashless : ∀ s ∈ segments, Slashless s) : pieces ("/".intercalate segments) = segments := by
  have mark : "/".toList = ['/'] := rfl
  have apart : ∀ l ∈ segments.map String.toList, '/' ∉ l := by simpa [Slashless] using slashless
  have split := List.splitOn_intercalate '/' apart (by simpa using some)
  rw [pieces, String.toList_intercalate, mark, split, List.map_map]
  simp

theorem intercalate_pieces (p : String) : "/".intercalate (pieces p) = p := by
  have mark : "/".toList = ['/'] := rfl
  rw [← String.toList_inj, String.toList_intercalate, pieces, List.map_map, mark]
  simp [Function.comp_def]

theorem notMem_of_mem_splitOn (xs : List Char) : ∀ l ∈ xs.splitOn '/', '/' ∉ l := by
  induction xs with
  | nil => simp
  | cons x xs ih =>
    rw [List.splitOn_cons_eq_if_modifyHead]
    split
    · exact List.forall_mem_cons.2 ⟨List.not_mem_nil, ih⟩
    · rename_i apart
      obtain ⟨first, rest, split⟩ := List.exists_cons_of_ne_nil (List.splitOn_ne_nil '/' xs)
      rw [split] at ih ⊢
      obtain ⟨head, later⟩ := List.forall_mem_cons.1 ih
      refine List.forall_mem_cons.2 ⟨fun mem => ?_, later⟩
      rcases List.mem_cons.1 mem with rfl | mem
      · simp at apart
      · exact head mem

theorem slashless_of_mem_pieces {p s : String} (mem : s ∈ pieces p) : Slashless s := by
  obtain ⟨cs, here, rfl⟩ := List.mem_map.1 mem
  rw [Slashless, String.toList_ofList]
  exact notMem_of_mem_splitOn p.toList cs here

theorem pieces_slash (a b : String) : pieces (a ++ "/" ++ b) = pieces a ++ pieces b := by
  have chars : (a ++ "/" ++ b).toList = a.toList ++ '/' :: b.toList := by simp
  rw [pieces, chars, List.splitOn_append_cons_self, List.map_append]
  rfl

theorem pieces_injective {a b : String} (same : pieces a = pieces b) : a = b := by
  rw [← intercalate_pieces a, same, intercalate_pieces]

/-- The segments of a name on a disk are ordinary. -/
theorem isPlain_of_isName {name : String} (valid : Disk.isName name = true) :
    ∀ s ∈ pieces name, IsPlain s := by
  intro s mem
  have segment := List.all_eq_true.1 valid s mem
  have marks : ∀ s ∈ ["", ".", ".."], Disk.isSegment s = false := by decide
  refine ⟨?_, ?_, ?_⟩ <;> rintro rfl <;> rw [marks _ (by decide)] at segment <;> cases segment

/-! ## Cleaned paths -/

/-- The segments of a cleaned path: parent marks, of which a path from the root has none, and
ordinary segments behind them. -/
structure Reduced (rooted : Bool) (segments : List String) : Prop where
  split : ∃ marks names, segments = List.replicate marks ".." ++ names ∧
    (∀ s ∈ names, IsPlain s) ∧ (rooted = true → marks = 0)

theorem Reduced.nil (rooted : Bool) : Reduced rooted [] :=
  ⟨0, [], rfl, by simp, fun _ => rfl⟩

theorem Reduced.append {rooted : Bool} {segments names : List String}
    (reduced : Reduced rooted segments) (plain : ∀ s ∈ names, IsPlain s) :
    Reduced rooted (segments ++ names) := by
  obtain ⟨marks, front, rfl, front_plain, none⟩ := reduced.split
  exact ⟨marks, front ++ names, List.append_assoc .., List.forall_mem_append.2 ⟨front_plain, plain⟩,
    none⟩

theorem pushSegment_blank {s : String} (blank : s = "" ∨ s = ".") (rooted : Bool)
    (reduced : List String) : pushSegment rooted reduced s = reduced := by
  rcases blank with rfl | rfl <;> rfl

theorem pushSegment_plain {s : String} (plain : IsPlain s) (rooted : Bool)
    (reduced : List String) : pushSegment rooted reduced s = s :: reduced := by
  obtain ⟨empty, dot, parent⟩ := plain
  simp [pushSegment, empty, dot, parent]

/-- A parent mark is kept behind parent marks. -/
theorem pushSegment_parent (marks : ℕ) :
    pushSegment false (List.replicate marks "..") ".." = List.replicate (marks + 1) ".." := by
  cases marks <;> rfl

/-- One more segment keeps the form, and leads on from where the segments before it lead. -/
theorem reduced_pushSegment {rooted : Bool} {segments : List String}
    (reduced : Reduced rooted segments) (s : String) {place : List String}
    (top : rooted = true → place = []) :
    Reduced rooted (pushSegment rooted segments.reverse s).reverse ∧
      lead place (pushSegment rooted segments.reverse s).reverse =
        advance (lead place segments) s := by
  rcases IsPlain.cases s with blank | rfl | plain
  · rw [pushSegment_blank blank, List.reverse_reverse, advance_blank blank]
    exact ⟨reduced, rfl⟩
  · obtain ⟨marks, names, rfl, plain, none⟩ := reduced.split
    rcases List.eq_nil_or_concat' names with rfl | ⟨front, last, rfl⟩
    · -- There is no ordinary segment to remove.
      rw [List.append_nil, List.reverse_replicate]
      cases rooted with
      | true =>
        obtain rfl := none rfl
        exact ⟨.nil true, by simp [pushSegment, top rfl]⟩
      | false =>
        rw [pushSegment_parent, List.reverse_replicate]
        refine ⟨⟨marks + 1, [], by simp, by simp, by simp⟩, ?_⟩
        rw [List.replicate_succ', lead_append]
        rfl
    · obtain ⟨front_plain, last_plain⟩ := List.forall_mem_append.1 plain
      have ordinary := last_plain last (List.mem_singleton_self last)
      have popped : (pushSegment rooted (List.replicate marks ".." ++ (front ++ [last])).reverse
          "..").reverse = List.replicate marks ".." ++ front := by
        simp [pushSegment, ordinary.2.2]
      rw [popped]
      refine ⟨⟨marks, front, rfl, front_plain, none⟩, ?_⟩
      rw [← List.append_assoc, lead_append place _ [last], lead_cons, lead_nil,
        advance_plain ordinary, advance_parent, List.dropLast_concat]
  · rw [pushSegment_plain plain, List.reverse_cons, List.reverse_reverse, lead_append]
    exact ⟨reduced.append (by simpa using plain), rfl⟩

theorem reduced_foldl {rooted : Bool} (place : List String) (top : rooted = true → place = [])
    (segments : List String) {before : List String} (reduced : Reduced rooted before) :
    Reduced rooted (segments.foldl (pushSegment rooted) before.reverse).reverse ∧
      lead place (segments.foldl (pushSegment rooted) before.reverse).reverse =
        lead (lead place before) segments := by
  induction segments generalizing before with
  | nil => simpa using reduced
  | cons s segments ih =>
    obtain ⟨form, leads⟩ := reduced_pushSegment reduced s top
    have later := ih form
    rw [List.reverse_reverse, leads] at later
    exact later

theorem reduced_reducedSegments (p : String) : Reduced (isAbsolute p) (reducedSegments p) :=
  (reduced_foldl [] (fun _ => rfl) (pieces p) (.nil _)).1

/-- Cleaning a path does not change where it leads. -/
theorem lead_reducedSegments {p : String} {place : List String}
    (top : isAbsolute p = true → place = []) :
    lead place (reducedSegments p) = lead place (pieces p) :=
  (reduced_foldl place top (pieces p) (.nil _)).2

theorem foldl_pushSegment_plain {segments : List String} (plain : ∀ s ∈ segments, IsPlain s)
    (rooted : Bool) (reduced : List String) :
    segments.foldl (pushSegment rooted) reduced = segments.reverse ++ reduced := by
  induction segments generalizing reduced with
  | nil => rfl
  | cons s segments ih =>
    obtain ⟨first, later⟩ := List.forall_mem_cons.1 plain
    rw [List.foldl_cons, pushSegment_plain first, ih later, List.reverse_cons, List.append_assoc,
      List.singleton_append]

/-- Segments in the form of a cleaned path stay as they are. -/
theorem Reduced.foldl_pushSegment {rooted : Bool} {segments : List String}
    (reduced : Reduced rooted segments) :
    segments.foldl (pushSegment rooted) [] = segments.reverse := by
  obtain ⟨marks, names, rfl, plain, none⟩ := reduced.split
  have front : (List.replicate marks "..").foldl (pushSegment rooted) [] =
      List.replicate marks ".." := by
    cases rooted with
    | true => rw [none rfl]; rfl
    | false =>
      clear reduced none
      induction marks with
      | zero => rfl
      | succ marks ih =>
        rw [List.replicate_succ', List.foldl_append, ih, List.foldl_cons, List.foldl_nil,
          pushSegment_parent, List.replicate_succ']
  rw [List.foldl_append, front, foldl_pushSegment_plain plain, List.reverse_append,
    List.reverse_replicate]

theorem mem_foldl_pushSegment {rooted : Bool} {segments reduced : List String} {s : String}
    (mem : s ∈ segments.foldl (pushSegment rooted) reduced) : s ∈ segments ∨ s ∈ reduced := by
  induction segments generalizing reduced with
  | nil => exact .inr mem
  | cons first segments ih =>
    rcases ih mem with later | now
    · exact .inl (List.mem_cons_of_mem _ later)
    · rcases IsPlain.cases first with blank | rfl | plain
      · rw [pushSegment_blank blank] at now
        exact .inr now
      · simp only [pushSegment] at now
        grind
      · rw [pushSegment_plain plain] at now
        rcases List.mem_cons.1 now with rfl | before
        · exact .inl List.mem_cons_self
        · exact .inr before

theorem slashless_of_mem_reducedSegments {p s : String} (mem : s ∈ reducedSegments p) :
    Slashless s := by
  rcases mem_foldl_pushSegment (List.mem_reverse.1 mem) with here | none
  · exact slashless_of_mem_pieces here
  · cases none

/-! ## Their texts -/

/-- The text of a cleaned path. -/
def render (rooted : Bool) (segments : List String) : String :=
  if rooted then "/" ++ "/".intercalate segments
  else if segments = [] then "." else "/".intercalate segments

theorem pieces_of_slashless {s : String} (slashless : Slashless s) : pieces s = [s] := by
  have each : ∀ piece ∈ [s], Slashless piece := by simpa using slashless
  simpa using pieces_intercalate (List.cons_ne_nil s []) each

theorem Reduced.ne_empty {rooted : Bool} {segments : List String}
    (reduced : Reduced rooted segments) : ∀ s ∈ segments, s ≠ "" := by
  obtain ⟨marks, names, rfl, plain, -⟩ := reduced.split
  intro s mem
  rcases List.mem_append.1 mem with mem | mem
  · rw [(List.mem_replicate.1 mem).2]
    decide
  · exact (plain s mem).1

/-- A path starts at the root when its first piece is empty and not the only one. -/
theorem isAbsolute_iff (p : String) :
    isAbsolute p = true ↔ (pieces p).head? = some "" ∧ pieces p ≠ [""] := by
  unfold isAbsolute pieces
  cases p.toList with
  | nil => simp
  | cons c cs =>
    obtain ⟨first, rest, split⟩ := List.exists_cons_of_ne_nil (List.splitOn_ne_nil '/' cs)
    rw [List.splitOn_cons_eq_if_modifyHead, split]
    by_cases slash : c = '/'
    · subst slash
      simp
    · simp [slash, String.ofList_eq_empty_iff]

theorem upToLastSlash_of_slashless {s : String} (slashless : Slashless s) :
    upToLastSlash s = "" := by
  have all : ∀ c ∈ s.toList.reverse, (c != '/') = true := by
    intro c mem
    rw [bne_iff_ne]
    rintro rfl
    exact slashless (List.mem_reverse.1 mem)
  have none : s.toList.reverse.dropWhile (· != '/') = [] := by
    rw [← List.append_nil s.toList.reverse, List.dropWhile_append_of_pos all]
    rfl
  rw [upToLastSlash, none]
  rfl

theorem upToLastSlash_append {last : String} (slashless : Slashless last) (front : String) :
    upToLastSlash (front ++ "/" ++ last) = front ++ "/" := by
  have all : ∀ c ∈ last.toList.reverse, (c != '/') = true := by
    intro c mem
    rw [bne_iff_ne]
    rintro rfl
    exact slashless (List.mem_reverse.1 mem)
  have chars : (front ++ "/" ++ last).toList.reverse =
      last.toList.reverse ++ '/' :: front.toList.reverse := by simp
  rw [upToLastSlash, chars, List.dropWhile_append_of_pos all, List.dropWhile_cons_of_neg (by simp)]
  simp

theorem pieces_upToLastSlash (p : String) :
    pieces (upToLastSlash p) = (pieces p).dropLast ++ [""] := by
  have slashless : ∀ s ∈ pieces p, Slashless s := fun s => slashless_of_mem_pieces
  have text := intercalate_pieces p
  rcases List.eq_nil_or_concat' (pieces p) with none | ⟨front, last, split⟩
  · exact absurd none (pieces_ne_nil p)
  rw [split] at slashless text ⊢
  obtain ⟨front_slashless, last_slashless⟩ := List.forall_mem_append.1 slashless
  have lastPiece := last_slashless last (List.mem_singleton_self last)
  rw [List.dropLast_concat]
  by_cases alone : front = []
  · subst alone
    have same : p = last := by simpa using text.symm
    rw [same, upToLastSlash_of_slashless lastPiece]
    rfl
  · have same : p = "/".intercalate front ++ "/" ++ last := by
      refine pieces_injective ?_
      rw [pieces_slash, pieces_intercalate alone front_slashless, pieces_of_slashless lastPiece,
        split]
    have ended : "/".intercalate front ++ "/" = "/".intercalate front ++ "/" ++ "" := by simp
    rw [same, upToLastSlash_append lastPiece, ended, pieces_slash,
      pieces_intercalate alone front_slashless]
    rfl

/-- What lies before the last slash starts where the path starts. -/
theorem isAbsolute_upToLastSlash (p : String) : isAbsolute (upToLastSlash p) = isAbsolute p := by
  rw [Bool.eq_iff_iff, isAbsolute_iff, isAbsolute_iff, pieces_upToLastSlash]
  obtain ⟨first, rest, split⟩ := List.exists_cons_of_ne_nil (pieces_ne_nil p)
  rw [split]
  cases rest with
  | nil => simp +contextual
  | cons second rest => simp

theorem Reduced.intercalate_eq_empty_iff {rooted : Bool} {segments : List String}
    (reduced : Reduced rooted segments) : "/".intercalate segments = "" ↔ segments = [] := by
  constructor
  · intro none
    cases segments with
    | nil => rfl
    | cons s rest =>
      have some := reduced.ne_empty s List.mem_cons_self
      rw [← String.toList_inj, String.toList_intercalate] at none
      cases rest <;> simp_all
  · rintro rfl
    rfl

theorem clean_eq_render (p : String) : clean p = render (isAbsolute p) (reducedSegments p) := by
  have empty := (reduced_reducedSegments p).intercalate_eq_empty_iff
  rw [clean, render]
  cases isAbsolute p with
  | true => rfl
  | false => simp only [beq_iff_eq, empty, Bool.false_eq_true, if_false]

theorem foldl_pushSegment_blank {blanks : List String} (blank : ∀ s ∈ blanks, s = "" ∨ s = ".")
    (rooted : Bool) (reduced : List String) :
    blanks.foldl (pushSegment rooted) reduced = reduced := by
  induction blanks with
  | nil => rfl
  | cons s blanks ih =>
    obtain ⟨first, later⟩ := List.forall_mem_cons.1 blank
    rw [List.foldl_cons, pushSegment_blank first, ih later]

/-- Cleaning a path whose pieces are cleaned, blanks apart. -/
theorem clean_of_pieces {p : String} {rooted : Bool} {before after segments : List String}
    (root : isAbsolute p = rooted) (reduced : Reduced rooted segments)
    (front : ∀ s ∈ before, s = "" ∨ s = ".") (back : ∀ s ∈ after, s = "" ∨ s = ".")
    (split : pieces p = before ++ segments ++ after) : clean p = render rooted segments := by
  have form : reducedSegments p = segments := by
    rw [reducedSegments, root, split, List.foldl_append, List.foldl_append,
      foldl_pushSegment_blank front, reduced.foldl_pushSegment, foldl_pushSegment_blank back,
      List.reverse_reverse]
  rw [clean_eq_render, form, root]

/-- The pieces of a cleaned path are its segments, and maybe blanks in front of them. -/
theorem exists_pieces_render (rooted : Bool) {segments : List String}
    (slashless : ∀ s ∈ segments, Slashless s) :
    ∃ blanks, (∀ s ∈ blanks, s = "" ∨ s = ".") ∧
      pieces (render rooted segments) = blanks ++ segments := by
  by_cases none : segments = []
  · subst none
    cases rooted with
    | true => exact ⟨["", ""], by simp, by decide⟩
    | false => exact ⟨["."], by simp, by decide⟩
  · cases rooted with
    | true =>
      have text : render true segments = "" ++ "/" ++ "/".intercalate segments := by simp [render]
      exact ⟨[""], by simp, by rw [text, pieces_slash, pieces_intercalate none slashless]; rfl⟩
    | false =>
      have text : render false segments = "/".intercalate segments := by simp [render, none]
      exact ⟨[], by simp, by rw [text, pieces_intercalate none slashless]; rfl⟩

theorem isAbsolute_render {rooted : Bool} {segments : List String}
    (reduced : Reduced rooted segments) (slashless : ∀ s ∈ segments, Slashless s) :
    isAbsolute (render rooted segments) = rooted := by
  cases rooted with
  | true => simp [render, isAbsolute]
  | false =>
    by_cases none : segments = []
    · subst none
      decide
    · have text : render false segments = "/".intercalate segments := by simp [render, none]
      have split := pieces_intercalate none slashless
      rw [Bool.eq_false_iff, Ne, isAbsolute_iff, text, split]
      rintro ⟨first, -⟩
      exact reduced.ne_empty "" (List.mem_of_mem_head? first) rfl

/-- The directory of a cleaned path has one segment less. -/
theorem dir_render {rooted : Bool} {segments : List String} {last : String}
    (reduced : Reduced rooted segments) (slashless : ∀ s ∈ segments, Slashless s)
    (plain : IsPlain last) (slashlessLast : Slashless last) :
    dir (render rooted (segments ++ [last])) = render rooted segments := by
  have whole : ∀ s ∈ segments ++ [last], Slashless s :=
    List.forall_mem_append.2 ⟨slashless, by simpa using slashlessLast⟩
  have form : Reduced rooted (segments ++ [last]) := reduced.append (by simpa using plain)
  obtain ⟨blanks, blank, split⟩ := exists_pieces_render rooted whole
  -- The last segment is cut off, and a slash is left behind the others.
  have cut : pieces (upToLastSlash (render rooted (segments ++ [last]))) =
      blanks ++ segments ++ [""] := by
    rw [pieces_upToLastSlash, split, ← List.append_assoc, List.dropLast_concat]
  have root : isAbsolute (upToLastSlash (render rooted (segments ++ [last]))) = rooted := by
    rw [isAbsolute_upToLastSlash, isAbsolute_render form whole]
  exact clean_of_pieces root reduced blank (by simp) cut

/-- The path of a name below a directory. -/
theorem join_eq_render {directory name : String} (some : directory ≠ "")
    (valid : Disk.isName name = true) :
    join [directory, name] =
      render (isAbsolute directory) (reducedSegments directory ++ pieces name) := by
  have named : name ≠ "" := by
    rintro rfl
    simp [Disk.isName, Disk.isSegment, Path.pieces] at valid
  have joined : join [directory, name] = clean (directory ++ "/" ++ name) := by
    simp [join, some, named]
  have root : isAbsolute (directory ++ "/" ++ name) = isAbsolute directory := by
    have chars : directory.toList ≠ [] := by simpa using some
    simp [isAbsolute, List.head?_append_of_ne_nil _ chars]
  have segments : reducedSegments (directory ++ "/" ++ name) =
      reducedSegments directory ++ pieces name := by
    rw [reducedSegments, root, pieces_slash, List.foldl_append,
      foldl_pushSegment_plain (isPlain_of_isName valid), List.reverse_append, List.reverse_reverse,
      ← reducedSegments]
  rw [joined, clean_eq_render, root, segments]

theorem render_ne_empty {rooted : Bool} {segments : List String}
    (reduced : Reduced rooted segments) : render rooted segments ≠ "" := by
  unfold render
  split_ifs with root none
  · simp
  · decide
  · exact mt reduced.intercalate_eq_empty_iff.1 none

end RoomScript.Path
