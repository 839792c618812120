import RoomScript.Listings
import RoomScript.Proofs.Build.Outputs
import RoomScript.Proofs.Disk.Accounting

/-!
# Kept listings

Listings are put on a disk one after another, and those that were there before are removed if that
is wanted.  The last listing of a name is the one that stays, and a listing that is there already is
never marked.

* `Listings.nameOf_eq` is the name of a listing, and `Listings.IsListing` are the names that
  listings can have;
* `Listings.Gained` relates the listings before and after some have been put, with
  `Listings.gained_of_put` for one and `Listings.gained_of_putAll` for several;
* `Listings.Pruned` relates them before and after pruning, with `Listings.pruned_of_prune`.
-/

namespace RoomScript

namespace Path

/-- The base of a path is its last piece. -/
theorem base_of_pieces {p last : String} {front : List String} (split : pieces p = front ++ [last])
    (some : last ≠ "") : base p = last := by
  have slashless : ∀ s ∈ front ++ [last], Slashless s := fun s mem =>
    slashless_of_mem_pieces (split ▸ mem)
  obtain ⟨front_slashless, last_slashless⟩ := List.forall_mem_append.1 slashless
  have own := last_slashless last (List.mem_singleton_self last)
  have chars : ∀ c ∈ last.toList.reverse, (c != '/') = true := by
    intro c mem
    rw [bne_iff_ne]
    rintro rfl
    exact own (List.mem_reverse.1 mem)
  -- Read from its end, the path is the piece and then nothing or a slash.
  have whole : ∃ rest, p.toList.reverse = last.toList.reverse ++ rest ∧
      rest.takeWhile (· != '/') = [] := by
    by_cases alone : front = []
    · subst alone
      have same : p = last := by
        rw [← intercalate_pieces p, split]
        simp
      exact ⟨[], by rw [same, List.append_nil], rfl⟩
    · have same : p = "/".intercalate front ++ "/" ++ last := by
        refine pieces_injective ?_
        rw [pieces_slash, pieces_intercalate alone front_slashless, pieces_of_slashless own, split]
      exact ⟨'/' :: ("/".intercalate front).toList.reverse, by rw [same]; simp, rfl⟩
  obtain ⟨rest, reversed, stops⟩ := whole
  obtain ⟨c, cs, first⟩ := List.exists_cons_of_ne_nil
    (show last.toList.reverse ≠ [] by simpa [String.toList_eq_nil_iff] using some)
  have given : p ≠ "" := by
    rintro rfl
    rw [first] at reversed
    cases reversed
  have kept : dropSlashEnd p = p := by
    have bare : (c == '/') = false := by simpa using chars c (by simp [first])
    rw [dropSlashEnd, reversed, first, List.cons_append, List.dropWhile_cons_of_neg (by simp [bare]),
      ← List.cons_append, ← first, ← reversed, List.reverse_reverse, String.ofList_toList]
  have tail : afterLastSlash p = last := by
    rw [afterLastSlash, reversed, List.takeWhile_append_of_pos chars, stops, List.append_nil,
      List.reverse_reverse, String.ofList_toList]
  rw [base, if_neg (by simpa using given)]
  simp only [kept, tail, beq_iff_eq, given, if_false]

end Path

theorem Disk.mem_names {d : Disk} {name : String} : name ∈ d.names ↔ d.find? name ≠ none := by
  rw [names, sorted, List.mem_mergeSort, find?, ne_eq, Entries.lookup_eq_none_iff, not_not]

namespace Listings

open Disk (isName)

/-! ## Names -/

/-- The listing of a script file is named for the file. -/
theorem nameOf_eq (file : String) : nameOf file = Path.outputName file ++ extension := by
  have last : (Path.outputName file ++ extension).toList.getLast? = some 's' := by
    rw [String.toList_append]
    exact List.getLast?_append_of_ne_nil _ (by decide)
  have plain : Path.IsPlain (Path.outputName file ++ extension) := by
    refine ⟨?_, ?_, ?_⟩ <;> intro same <;> rw [same] at last <;> revert last <;> decide
  have slashless : Path.Slashless extension := by
    show '/' ∉ extension.toList
    decide
  obtain ⟨front, split⟩ := Path.exists_pieces_output_of_plain "" slashless (by decide) plain
  exact Path.base_of_pieces split plain.1

/-- The names that listings can have: those of files directly in a directory that are valid and have
the extension of listings. -/
structure IsListing (name : String) : Prop where
  valid : isName name = true
  direct : '/' ∉ name.toList
  ending : extension.toList <:+ name.toList

theorem IsListing.pieces {name : String} (listing : IsListing name) : Path.pieces name = [name] :=
  Path.pieces_of_slashless listing.direct

theorem isListing_nameOf {file : String} (valid : isName (nameOf file) = true) :
    IsListing (nameOf file) where
  valid := valid
  direct := by
    have own : Path.Slashless (Path.outputName file) :=
      Path.slashless_of_mem_pieces (List.getLast_mem (Path.pieces_ne_nil _))
    rw [nameOf_eq, String.toList_append, List.mem_append, not_or]
    exact ⟨own, by decide⟩
  ending := by
    rw [nameOf_eq, String.toList_append]
    exact List.suffix_append _ _

theorem isStale_iff {l : Listings} {name : String} (valid : isName name = true) :
    l.isStale name = true ↔ IsListing name ∧ name ∉ l.written := by
  have same : l.isStale name = true ↔
      (name ∉ l.written ∧ '/' ∉ name.toList) ∧ extension.toList <:+ name.toList := by
    rw [← String.copy_toSlice (s := name), ← String.Slice.endsWith_string_iff,
      ← String.endsWith_eq_endsWith_toSlice, String.copy_toSlice]
    simp only [isStale, Bool.and_eq_true, Bool.not_eq_true', List.contains_eq_mem,
      decide_eq_false_iff_not]
  rw [same]
  exact ⟨fun ⟨⟨fresh, direct⟩, ending⟩ => ⟨⟨valid, direct, ending⟩, fresh⟩,
    fun ⟨listing, fresh⟩ => ⟨⟨fresh, listing.direct⟩, listing.ending⟩⟩

/-! ## Listings that are put -/

/-- Put listings one after another, given by their names and texts. -/
def putAll (l : Listings) (entries : List (String × String)) : Except Disk.Error Listings :=
  entries.foldlM (fun l entry => (l.put entry.1 entry.2).1) l

/-- What has become of the listings when some have been put: the last text of each name is there,
and a name is marked only where a text was not there already. -/
structure Gained (entries : List (String × String)) (l l' : Listings) : Prop where
  valid : ∀ entry ∈ entries, isName entry.1 = true
  accounted : l'.disk.Accounted
  find? : ∀ name, l'.disk.find? name =
    ((entries.reverse.lookup name).map String.toUTF8).or (l.disk.find? name)
  written : ∀ name, name ∈ l'.written ↔ name ∈ l.written ∨ name ∈ entries.map Prod.fst
  kept : ∀ name ∈ l.disk.unsaved, name ∈ l'.disk.unsaved
  marked : ∀ name ∈ l'.disk.unsaved, name ∈ l.disk.unsaved ∨
    ∃ text, (name, text) ∈ entries ∧ l.disk.find? name ≠ some text.toUTF8
  unmarked : ∀ name, name ∉ l'.disk.unsaved → l'.disk.find? name = l.disk.find? name

namespace Gained

variable {l l' l'' : Listings}

theorem refl (accounted : l.disk.Accounted) : Gained [] l l where
  valid := by simp
  accounted := accounted
  find? _ := rfl
  written := by simp
  kept _ mem := mem
  marked _ mem := .inl mem
  unmarked _ _ := rfl

theorem trans {entries entries' : List (String × String)} (first : Gained entries l l')
    (second : Gained entries' l' l'') : Gained (entries ++ entries') l l'' where
  valid := List.forall_mem_append.2 ⟨first.valid, second.valid⟩
  accounted := second.accounted
  find? name := by
    rw [second.find?, first.find?, List.reverse_append, List.lookup_append, Option.map_or,
      Option.or_assoc]
  written name := by
    rw [second.written, first.written, List.map_append, List.mem_append, or_assoc]
  kept name mem := second.kept name (first.kept name mem)
  marked name mem := by
    rcases second.marked name mem with early | ⟨text, here, other⟩
    · exact (first.marked name early).imp_right fun ⟨text, here, other⟩ =>
        ⟨text, List.mem_append_left _ here, other⟩
    · by_cases early : name ∈ l'.disk.unsaved
      · exact (first.marked name early).imp_right fun ⟨text, here, other⟩ =>
          ⟨text, List.mem_append_left _ here, other⟩
      · rw [first.unmarked name early] at other
        exact .inr ⟨text, List.mem_append_right _ here, other⟩
  unmarked name fresh := by
    rw [second.unmarked name fresh, first.unmarked name fun mem => fresh (second.kept name mem)]

end Gained

section Put

variable {l l' : Listings} (accounted : l.disk.Accounted)
include accounted

theorem gained_of_put {name text : String} (ok : (l.put name text).1 = .ok l') :
    Gained [(name, text)] l l' := by
  have mem_written : ∀ n, n ∈ (if name ∈ l.written then l.written else l.written ++ [name]) ↔
      n ∈ l.written ∨ n ∈ [(name, text)].map Prod.fst := by
    intro n
    exact Disk.mem_mark.trans (by simp)
  simp only [put] at ok
  generalize (if name ∈ l.written then l.written else l.written ++ [name]) = written
    at ok mem_written
  split at ok
  · -- The text is there already.
    rename_i there
    cases ok
    have held : l.disk.find? name = some text.toUTF8 := by
      obtain ⟨old, found, same⟩ := (Option.any_eq_true _ _).1 there
      have equal : old = text.toUTF8 := ByteArray.ext (by simpa using same)
      rw [found, equal]
    refine ⟨?_, accounted, fun n => ?_, mem_written, fun _ mem => mem, fun _ mem => .inl mem,
      fun _ _ => rfl⟩
    · simpa using accounted.isName_of_find? held
    · by_cases same : n = name
      · simp [same, held]
      · have apart : (n == name) = false := by simpa using same
        simp [List.lookup_cons, apart]
  · rename_i other
    split at ok
    · rename_i disk stored
      cases ok
      have accounted' := accounted.write stored
      obtain ⟨valid, -, rfl⟩ := Disk.write_eq_ok_iff.1 stored
      have differs : l.disk.find? name ≠ some text.toUTF8 := by
        intro held
        simp [held] at other
      refine ⟨by simpa using valid, accounted', fun n => ?_, mem_written,
        fun n mem => Disk.mem_mark.2 (.inl mem), fun n mem => ?_, fun n fresh => ?_⟩
      · by_cases same : n = name
        · subst same
          simp [Disk.find?_stored]
        · have apart : (n == name) = false := by simpa using same
          simp [List.lookup_cons, apart, Disk.find?_stored_of_ne same]
      · refine (Disk.mem_mark.1 mem).imp_right fun same => ?_
        subst same
        exact ⟨text, List.mem_singleton_self _, differs⟩
      · exact Disk.find?_stored_of_ne fun same => fresh (Disk.mem_mark.2 (.inr same))
    · cases ok

theorem gained_of_putAll {entries : List (String × String)} (ok : l.putAll entries = .ok l') :
    Gained entries l l' := by
  induction entries generalizing l with
  | nil =>
    cases ok
    exact .refl accounted
  | cons entry entries ih =>
    rw [putAll, List.foldlM_cons] at ok
    cases first : (l.put entry.1 entry.2).1 with
    | error e =>
      rw [first] at ok
      cases ok
    | ok l₁ =>
      rw [first] at ok
      have gained := gained_of_put accounted first
      exact gained.trans (ih gained.accounted ok)

end Put

/-! ## Listings that are pruned -/

/-- What has become of a disk when some names have been removed. -/
structure Cleared (names : List String) (d d' : Disk) : Prop where
  accounted : d'.Accounted
  find? : ∀ name, d'.find? name = if name ∈ names then none else d.find? name
  unsaved : ∀ name, name ∈ d'.unsaved ↔ name ∈ d.unsaved ∨ name ∈ names

theorem cleared_of_delete {names : List String} {d d' : Disk} (accounted : d.Accounted)
    (ok : names.foldlM Disk.delete d = .ok d') : Cleared names d d' := by
  induction names generalizing d with
  | nil =>
    cases ok
    exact ⟨accounted, by simp, by simp⟩
  | cons name names ih =>
    rw [List.foldlM_cons] at ok
    cases deleted : d.delete name with
    | error e =>
      rw [deleted] at ok
      cases ok
    | ok d₁ =>
      rw [deleted] at ok
      obtain ⟨accounted', find?, unsaved⟩ := ih (accounted.delete deleted) ok
      obtain ⟨-, -, rfl⟩ := Disk.delete_eq_ok_iff.1 deleted
      refine ⟨accounted', fun n => ?_, fun n => ?_⟩
      · by_cases same : n = name
        · subst same
          simp [find?, Disk.find?_removed]
        · simp [find?, same, Disk.find?_removed_of_ne same]
      · rw [unsaved, Disk.removed, Disk.mem_mark, List.mem_cons, or_assoc]

/-! ## The listings of a run -/

/-- What becomes of a disk on which a run keeps its listings, and removes older ones if that is
wanted: a name is marked only where a text of it was not there already, or where it is removed. -/
structure Settled (entries : List (String × String)) (prune : Bool) (d d' : Disk) : Prop where
  accounted : d'.Accounted
  valid : ∀ entry ∈ entries, isName entry.1 = true
  current : ∀ name text, entries.reverse.lookup name = some text →
    d'.find? name = some text.toUTF8
  removed : ∀ name, IsListing name → name ∉ entries.map Prod.fst → prune = true →
    d'.find? name = none
  marked : ∀ name ∈ d'.unsaved, (∃ text, (name, text) ∈ entries ∧ d.find? name ≠ some text.toUTF8) ∨
    prune = true ∧ IsListing name ∧ name ∉ entries.map Prod.fst ∧ d.find? name ≠ none
  unmarked : ∀ name, name ∉ d'.unsaved → d'.find? name = d.find? name

section Settling

variable {entries : List (String × String)} {l l' kept : Listings} (new : l.written = [])
  (saved : l.disk.unsaved = []) (gained : Gained entries l l')

include new gained in
/-- The listings that go are those that none of the texts has been put for. -/
theorem mem_stale_of_gained {name : String} : name ∈ l'.stale ↔
    l'.disk.find? name ≠ none ∧ IsListing name ∧ name ∉ entries.map Prod.fst := by
  have written : name ∈ l'.written ↔ name ∈ entries.map Prod.fst := by
    rw [gained.written, new]
    simp
  rw [Listings.stale, List.mem_filter, Disk.mem_names]
  refine and_congr_right fun present => ?_
  obtain ⟨data, found⟩ := Option.ne_none_iff_exists'.1 present
  rw [isStale_iff (gained.accounted.isName_of_find? found), written]

include saved gained

theorem marked_of_gained {name : String} (mem : name ∈ l'.disk.unsaved) :
    ∃ text, (name, text) ∈ entries ∧ l.disk.find? name ≠ some text.toUTF8 := by
  rcases gained.marked name mem with early | late
  · rw [saved] at early
    cases early
  · exact late

theorem settled_of_kept : Settled entries false l.disk l'.disk where
  accounted := gained.accounted
  valid := gained.valid
  current name text last := by
    rw [gained.find?, last]
    rfl
  removed _ _ _ := by rintro ⟨⟩
  marked _ mem := .inl (marked_of_gained saved gained mem)
  unmarked := gained.unmarked

include new

theorem settled_of_cleared {d : Disk} (cleared : Cleared l'.stale l'.disk d) :
    Settled entries true l.disk d where
  accounted := cleared.accounted
  valid := gained.valid
  current name text last := by
    have here : name ∈ entries.map Prod.fst :=
      List.mem_map.2 ⟨_, List.mem_reverse.1 (Entries.mem_of_lookup last), rfl⟩
    have stays : name ∉ l'.stale := fun mem => ((mem_stale_of_gained new gained).1 mem).2.2 here
    rw [cleared.find?, if_neg stays, gained.find?, last]
    rfl
  removed name listing other _ := by
    rw [cleared.find?]
    split_ifs with mem
    · rfl
    · by_contra present
      exact mem ((mem_stale_of_gained new gained).2 ⟨present, listing, other⟩)
  marked name mem := by
    rcases (cleared.unsaved name).1 mem with early | mem
    · exact .inl (marked_of_gained saved gained early)
    · obtain ⟨present, listing, other⟩ := (mem_stale_of_gained new gained).1 mem
      have fresh : name ∉ l'.disk.unsaved := by
        intro early
        obtain ⟨text, here, -⟩ := marked_of_gained saved gained early
        exact other (List.mem_map.2 ⟨_, here, rfl⟩)
      rw [gained.unmarked name fresh] at present
      exact .inr ⟨rfl, listing, other, present⟩
  unmarked name fresh := by
    rw [cleared.unsaved, not_or] at fresh
    rw [cleared.find?, if_neg fresh.2, gained.unmarked name fresh.1]

theorem settled_of_gained {prune : Bool}
    (pruned : (if prune then l'.prune else .ok l') = .ok kept) :
    Settled entries prune l.disk kept.disk := by
  cases prune with
  | false =>
    cases pruned
    exact settled_of_kept saved gained
  | true =>
    rw [if_pos rfl, prune] at pruned
    split at pruned
    · rename_i disk deleted
      cases pruned
      exact settled_of_cleared new saved gained (cleared_of_delete gained.accounted deleted)
    · cases pruned

end Settling

namespace Settled

variable {entries : List (String × String)} {prune : Bool} {d d' : Disk}
  (settled : Settled entries prune d d')
include settled

omit settled in
theorem lookup_ne_none {name : String} (mem : name ∈ entries.map Prod.fst) :
    entries.reverse.lookup name ≠ none := by
  rw [ne_eq, Entries.lookup_eq_none_iff, not_not, List.map_reverse, List.mem_reverse]
  exact mem

/-- Under a name that a listing can have there is the last listing of that name, or what was there
before and has not been removed. -/
theorem find?_of_isListing {name : String} (listing : IsListing name) : d'.find? name =
    match entries.reverse.lookup name with
    | some text => some text.toUTF8
    | none => if prune then none else d.find? name := by
  cases found : entries.reverse.lookup name with
  | some text => exact settled.current name text found
  | none =>
    have other : name ∉ entries.map Prod.fst := fun mem => lookup_ne_none mem found
    cases pruned : prune with
    | true => exact settled.removed name listing other pruned
    | false =>
      refine settled.unmarked name fun mem => ?_
      rcases settled.marked name mem with ⟨text, here, -⟩ | ⟨removing, -⟩
      · exact other (List.mem_map.2 ⟨_, here, rfl⟩)
      · rw [pruned] at removing
        cases removing

/-- What has been removed was there before. -/
theorem find?_ne_none_of_removed {name : String} (mem : name ∈ d'.unsaved)
    (gone : d'.find? name = none) : d.find? name ≠ none := by
  rcases settled.marked name mem with ⟨text, here, -⟩ | ⟨-, -, -, present⟩
  · obtain ⟨last, found⟩ :=
      Option.ne_none_iff_exists'.1 (lookup_ne_none (List.mem_map.2 ⟨_, here, rfl⟩))
    rw [settled.current name last found] at gone
    cases gone
  · exact present

end Settled

end Listings

end RoomScript
