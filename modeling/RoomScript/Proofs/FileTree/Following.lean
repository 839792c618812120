import RoomScript.Proofs.FileTree.Places

/-!
# Following paths

Where a path leads, it leads by its text: what the tree says is only whether it does.  A path whose
ordinary segments name directories that exist is followed to its end.

* `FileTree.eq_lead_of_followFrom` says that a target is where the text leads, for what is found and
  for what is absent;
* `FileTree.Open` are the segments that name directories, and `followFrom_open` that they are
  followed;
* `FileTree.Steady` are the paths that stay open once they lead to a directory.
-/

namespace RoomScript.FileTree

open RoomScript.Path (IsPlain Slashless advance lead)

variable {t : FileTree} {place p : List String} {node n : FileNode} {segments rest : List String}
  {s : String}

/-! ## One segment -/

theorem followFrom_blank (blank : s = "" ∨ s = ".") :
    t.followFrom place .directory (s :: rest) = t.followFrom place .directory rest := by
  rw [followFrom, if_pos (by simpa using blank)]

theorem followFrom_parent :
    t.followFrom place .directory (".." :: rest) = t.followFrom place.dropLast .directory rest := by
  rw [followFrom, if_neg (by decide), if_pos (by decide)]

theorem followFrom_plain (entry : IsEntry s) (here : t.node? (place ++ [s]) = some node) :
    t.followFrom place .directory (s :: rest) = t.followFrom (place ++ [s]) node rest := by
  obtain ⟨⟨empty, dot, parent⟩, -, size⟩ := entry
  rw [followFrom, if_neg (by simp [empty, dot]), if_neg (by simpa using parent),
    if_neg (Nat.not_lt.2 size), here]

/-- All that can come of one segment in a directory. -/
theorem followFrom_cons_cases (t : FileTree) (place : List String) (s : String)
    (rest : List String) :
    (¬ IsPlain s ∧ t.followFrom place .directory (s :: rest) =
      t.followFrom (advance place s) .directory rest) ∨
    (IsPlain s ∧ s.utf8ByteSize ≤ maxSegment ∧ ∃ node, t.node? (place ++ [s]) = some node ∧
      t.followFrom place .directory (s :: rest) = t.followFrom (place ++ [s]) node rest) ∨
    (IsPlain s ∧ s.utf8ByteSize ≤ maxSegment ∧ t.node? (place ++ [s]) = none ∧
      (∀ b ∈ rest, b = "") ∧
      t.followFrom place .directory (s :: rest) = .ok (.absent (place ++ [s]) !rest.isEmpty)) ∨
    (IsPlain s ∧ t.node? (place ++ [s]) = none ∧
      t.followFrom place .directory (s :: rest) = .error .noEntry) ∨
    (maxSegment < s.utf8ByteSize ∧ ∃ reason, reason ≠ .noEntry ∧
      (t.followFrom place .directory (s :: rest) = .ok (.barred reason) ∨
        t.followFrom place .directory (s :: rest) = .error reason)) := by
  rcases IsPlain.cases s with blank | rfl | plain
  · refine .inl ⟨?_, by rw [followFrom_blank blank, Path.advance_blank blank]⟩
    rintro ⟨empty, dot, -⟩
    exact blank.elim empty dot
  · exact .inl ⟨fun plain => plain.2.2 rfl, by rw [followFrom_parent, Path.advance_parent]⟩
  · obtain ⟨empty, dot, parent⟩ := id plain
    rw [followFrom, if_neg (by simp [empty, dot]), if_neg (by simpa using parent)]
    by_cases long : s.utf8ByteSize > maxSegment
    · refine .inr (.inr (.inr (.inr ⟨long, .nameTooLong, by decide, ?_⟩)))
      rw [if_pos long]
      split
      · exact .inl rfl
      · exact .inr rfl
    · rw [if_neg long]
      have size := Nat.not_lt.1 long
      cases here : t.node? (place ++ [s]) with
      | some node => exact .inr (.inl ⟨plain, size, node, rfl, rfl⟩)
      | none =>
        dsimp only
        split
        · rename_i blank
          exact .inr (.inr (.inl ⟨plain, size, rfl, by simpa using blank, rfl⟩))
        · exact .inr (.inr (.inr (.inl ⟨plain, rfl, rfl⟩)))

/-- Nothing is found behind a file. -/
theorem followFrom_file {data : ByteArray} {target : Target}
    (ok : t.followFrom place (.file data) segments = .ok target) :
    (segments = [] ∧ target = .found place (.file data)) ∨ target = .barred .notDirectory := by
  cases segments with
  | nil =>
    rw [followFrom] at ok
    exact .inl ⟨rfl, (Except.ok.inj ok).symm⟩
  | cons s rest =>
    rw [followFrom] at ok
    split at ok
    · exact .inr (Except.ok.inj ok).symm
    · cases ok

/-! ## Targets -/

/-- What is found stands where the text leads, and a file was looked up there. -/
theorem eq_lead_of_found (valid : t.Valid)
    (ok : t.followFrom place .directory segments = .ok (.found p n)) :
    p = lead place segments ∧
      (t.node? p = some n ∨ n = .directory ∧ ∀ s ∈ segments, ¬ IsPlain s) := by
  induction segments generalizing place with
  | nil =>
    rw [followFrom] at ok
    cases ok
    exact ⟨rfl, .inr ⟨rfl, by simp⟩⟩
  | cons s rest ih =>
    rcases followFrom_cons_cases t place s rest with ⟨mark, next⟩ | ⟨plain, -, node, here, next⟩ |
      ⟨-, -, -, -, next⟩ | ⟨-, -, next⟩ | ⟨-, reason, -, next | next⟩ <;> rw [next] at ok
    · obtain ⟨leads, stands⟩ := ih ok
      refine ⟨leads, stands.imp_right fun ⟨dir, marks⟩ => ⟨dir, ?_⟩⟩
      exact List.forall_mem_cons.2 ⟨mark, marks⟩
    · rw [Path.lead_cons, Path.advance_plain plain]
      cases node with
      | file data =>
        rcases followFrom_file ok with ⟨rfl, same⟩ | barred
        · cases same
          exact ⟨rfl, .inl here⟩
        · cases barred
      | directory =>
        obtain ⟨leads, stands⟩ := ih ok
        refine ⟨leads, .inl ?_⟩
        rcases stands with found | ⟨rfl, marks⟩
        · exact found
        · rw [leads]
          exact valid.directory_of_above (Path.lead_of_marks marks _) here
    all_goals cases ok

/-- The place before the first ordinary segment is a directory that exists. -/
def Anchored (t : FileTree) (place segments : List String) : Prop :=
  ∀ marks s rest, segments = marks ++ s :: rest → (∀ m ∈ marks, ¬ IsPlain m) → IsPlain s →
    t.node? (lead place marks) = some .directory

theorem anchored_of_directory (valid : t.Valid) (here : t.node? place = some .directory)
    (segments : List String) : t.Anchored place segments := by
  intro marks s rest _ nameless _
  exact valid.directory_of_above (Path.lead_of_marks nameless place) here

theorem Anchored.tail (anchored : t.Anchored place (s :: rest)) (mark : ¬ IsPlain s) :
    t.Anchored (advance place s) rest := by
  rintro marks name after rfl nameless plain
  exact anchored (s :: marks) name after rfl (List.forall_mem_cons.2 ⟨mark, nameless⟩) plain

theorem Anchored.shorten {before : List String} (anchored : t.Anchored place segments)
    (shorter : before <+: segments) : t.Anchored place before := by
  obtain ⟨after, rfl⟩ := shorter
  rintro marks name rest rfl nameless plain
  exact anchored marks name (rest ++ after) (by simp) nameless plain

/-- What is absent is missing in a directory that exists, and could stand there. -/
theorem absent_of_followFrom (valid : t.Valid) (anchored : t.Anchored place segments)
    (slashless : ∀ s ∈ segments, Slashless s) {asDirectory : Bool}
    (ok : t.followFrom place .directory segments = .ok (.absent p asDirectory)) :
    p = lead place segments ∧ p ≠ [] ∧ t.node? p = none ∧
      t.node? p.dropLast = some .directory ∧ ∀ s ∈ p, IsEntry s := by
  induction segments generalizing place with
  | nil =>
    rw [followFrom] at ok
    cases ok
  | cons s rest ih =>
    obtain ⟨first, later⟩ := List.forall_mem_cons.1 slashless
    rcases followFrom_cons_cases t place s rest with ⟨mark, next⟩ | ⟨plain, -, node, here, next⟩ |
      ⟨plain, size, none, blank, next⟩ | ⟨-, -, next⟩ | ⟨-, reason, -, next | next⟩ <;> rw [next] at ok
    · exact ih (anchored.tail mark) later ok
    · rw [Path.lead_cons, Path.advance_plain plain]
      cases node with
      | file data =>
        rcases followFrom_file ok with ⟨-, same⟩ | barred
        · cases same
        · cases barred
      | directory => exact ih (anchored_of_directory valid here rest) later ok
    · cases ok
      have dir : t.node? place = some .directory := anchored [] s rest rfl (by simp) plain
      refine ⟨?_, by simp, none, by rwa [List.dropLast_concat], ?_⟩
      · rw [Path.lead_cons, Path.advance_plain plain,
          Path.lead_blank fun b mem => .inl (blank b mem)]
      · exact List.forall_mem_append.2 ⟨valid.isEntry dir, by simpa using ⟨plain, first, size⟩⟩
    all_goals cases ok

/-! ## Open paths -/

/-- Every ordinary segment leads to a directory that exists. -/
def Open (t : FileTree) (place segments : List String) : Prop :=
  ∀ before s after, segments = before ++ s :: after → IsPlain s →
    t.node? (lead place (before ++ [s])) = some .directory

theorem Open.tail (isOpen : t.Open place (s :: rest)) : t.Open (advance place s) rest := by
  rintro before name after rfl plain
  exact isOpen (s :: before) name after rfl plain

theorem followFrom_open (valid : t.Valid) (isOpen : t.Open place segments) (rest : List String) :
    t.followFrom place .directory (segments ++ rest) =
      t.followFrom (lead place segments) .directory rest := by
  induction segments generalizing place with
  | nil => rfl
  | cons s segments ih =>
    have next : t.followFrom place .directory (s :: (segments ++ rest)) =
        t.followFrom (advance place s) .directory (segments ++ rest) := by
      rcases IsPlain.cases s with blank | rfl | plain
      · rw [followFrom_blank blank, Path.advance_blank blank]
      · rw [followFrom_parent, Path.advance_parent]
      · have here := isOpen [] s segments rfl plain
        rw [List.nil_append, Path.lead_cons, Path.lead_nil, Path.advance_plain plain] at here
        rw [Path.advance_plain plain]
        exact followFrom_plain (valid.isEntry here s (by simp)) here
    rw [List.cons_append, next, ih isOpen.tail, Path.lead_cons]

theorem open_of_plain (valid : t.Valid) {names : List String} (plain : ∀ s ∈ names, IsPlain s)
    (here : t.node? (place ++ names) = some .directory) : t.Open place names := by
  rintro before s after rfl -
  have passed : ∀ m ∈ before ++ [s], IsPlain m := by
    intro m mem
    refine plain m ?_
    rcases List.mem_append.1 mem with mem | mem
    · exact List.mem_append_left _ mem
    · exact List.mem_append_right _ (by simp_all)
  rw [Path.lead_plain passed]
  refine valid.directory_of_above ?_ here
  exact ⟨after, by simp⟩

/-- What stands below an open path is found. -/
theorem followFrom_below (valid : t.Valid) (isOpen : t.Open place segments) {names : List String}
    (plain : ∀ s ∈ names, IsPlain s) (some : names ≠ [])
    (here : t.node? (lead place segments ++ names) = .some node) :
    t.followFrom place .directory (segments ++ names) =
      .ok (.found (lead place segments ++ names) node) := by
  rcases List.eq_nil_or_concat' names with rfl | ⟨front, last, rfl⟩
  · exact absurd rfl some
  obtain ⟨front_plain, -⟩ := List.forall_mem_append.1 plain
  rw [← List.append_assoc] at here ⊢
  have dir : t.node? (lead place segments ++ front) = .some .directory :=
    valid.directory_append (by simp) here
  rw [List.append_assoc, followFrom_open valid isOpen,
    followFrom_open valid (open_of_plain valid front_plain dir), Path.lead_plain front_plain,
    followFrom_plain (valid.isEntry here last (by simp)) here, followFrom, List.append_assoc]

/-- A parent mark behind an ordinary segment leaves a directory that exists. -/
def SteadyFrom (t : FileTree) (place segments : List String) : Prop :=
  ∀ before after, segments = before ++ ".." :: after → (∃ s ∈ before, IsPlain s) →
    t.node? (lead place before) = some .directory

/-- Segments are open when they lead to a directory, and do not pass through anything missing on
the way. -/
theorem open_of_steadyFrom (valid : t.Valid) (steady : t.SteadyFrom place segments)
    (here : t.node? (lead place segments) = some .directory) : t.Open place segments := by
  rintro before s after rfl plain
  have split : before ++ s :: after = (before ++ [s]) ++ after := by simp
  rw [split, Path.lead_append] at here
  -- Either the place is on the way to the end, or a parent mark leaves it.
  rcases Path.prefix_lead_or_left List.prefix_rfl after with on | ⟨back, rest, rfl, left⟩
  · exact valid.directory_of_above on here
  · rw [← left, ← Path.lead_append]
    exact steady _ rest (by simp) ⟨s, by simp, plain⟩

/-- Behind an open path that leads to a directory there is a directory for all that follows. -/
theorem Open.anchored (valid : t.Valid) (isOpen : t.Open place segments)
    (here : t.node? (lead place segments) = some .directory) (more : List String) :
    t.Anchored place (segments ++ more) := by
  induction segments generalizing place with
  | nil => exact anchored_of_directory valid here more
  | cons s segments ih =>
    rintro marks name rest split nameless plain
    cases marks with
    | nil =>
      obtain ⟨rfl, -⟩ := List.cons.inj split
      have down := isOpen [] s segments rfl plain
      rw [List.nil_append, Path.lead_cons, Path.lead_nil, Path.advance_plain plain] at down
      exact valid.directory_append (by simp) down
    | cons mark marks =>
      obtain ⟨rfl, split'⟩ := List.cons.inj split
      obtain ⟨-, nameless⟩ := List.forall_mem_cons.1 nameless
      exact ih isOpen.tail here marks name rest split' nameless plain

/-! ## Whole paths -/

/-- The place that a path starts from. -/
def start (t : FileTree) (path : String) : List String :=
  if Path.isAbsolute path then [] else t.workingDir

/-- The place where a path leads by its text. -/
def placeOf (t : FileTree) (path : String) : List String :=
  lead (t.start path) (Path.pieces path)

/-- A text that can be followed at all. -/
def Walkable (path : String) : Prop :=
  '\x00' ∉ path.toList ∧ path ≠ "" ∧ path.utf8ByteSize ≤ maxPath

theorem follow_of_walkable {path : String} (walkable : Walkable path) :
    t.follow path = t.followFrom (t.start path) .directory (Path.pieces path) := by
  obtain ⟨nul, some, size⟩ := walkable
  rw [follow, if_neg (by simpa using nul), if_neg (by simpa using some), if_neg (by omega), start]

theorem follow_of_not_walkable {path : String} (barred : ¬ Walkable path) :
    ∃ reason, t.follow path = .error reason ∧ (path ≠ "" → reason ≠ .noEntry) := by
  unfold follow
  by_cases nul : path.toList.contains '\x00' = true
  · exact ⟨.invalid, if_pos nul, by simp⟩
  by_cases empty : (path == "") = true
  · exact ⟨.noEntry, by rw [if_neg nul, if_pos empty], by simpa using empty⟩
  by_cases size : path.utf8ByteSize > maxPath
  · exact ⟨.nameTooLong, by rw [if_neg nul, if_neg empty, if_pos size], by simp⟩
  · exact absurd ⟨by simpa using nul, by simpa using empty, by omega⟩ barred

theorem walkable_of_follow {path : String} {target : Target} (ok : t.follow path = .ok target) :
    Walkable path := by
  by_contra barred
  obtain ⟨reason, error, -⟩ := follow_of_not_walkable (t := t) barred
  rw [error] at ok
  cases ok


end RoomScript.FileTree
