import RoomScript.Proofs.Disk.Files

/-!
# The books of a disk

A disk counts its bytes and its changes on the side.  Whatever is asked of it, also where that fails
or fails halfway, the counts stay right.

* `Disk.serve` is what a request does to a disk, with the disk as it was where storing or removing
  fails;
* `Disk.Accounted` says that the counts are right, and `Accounted.serve` that a request keeps them
  so;
* `accounted_of_requests` says so for every run from a new disk.
-/

namespace RoomScript.Disk

/-! ## Requests -/

/-- What can be asked of a disk. -/
inductive Request where
  | write (name : String) (data : ByteArray)
  | delete (name : String)
  /-- Load files found below a directory, all there are or those found before a fault. -/
  | load (dir : String) (files : List (List String × ByteArray)) (fault : Option FileTree.Fault)
  | persist (c : Conditions) (t : FileTree) (dir : String)

/-- Why a request fails. -/
inductive Refusal where
  | disk (e : Error)
  | loading (e : LoadError)
  | saving (e : SaveError)

/-- What a request does.  Storing or removing leaves the disk as it was when it fails. -/
def serve (d : Disk) : Request → Option Refusal × Disk
  | .write name data =>
    match d.write name data with
    | .ok disk => (none, disk)
    | .error e => (some (.disk e), d)
  | .delete name =>
    match d.delete name with
    | .ok disk => (none, disk)
    | .error e => (some (.disk e), d)
  | .load dir files fault =>
    let l := d.loadFiles dir files fault
    (l.error.map .loading, l.disk)
  | .persist c t dir =>
    let (error, disk, _) := d.persistUnder c t dir
    (error.map .saving, disk)

/-- Loading from a file tree is loading files that were found there. -/
theorem exists_load_eq (d : Disk) (t : FileTree) (dir : String) :
    ∃ files fault, d.load t dir = d.loadFiles dir files fault := by
  unfold load
  cases t.walk dir with
  | error fault => exact ⟨_, _, rfl⟩
  | ok files => exact ⟨_, _, rfl⟩

/-! ## Right counts -/

/-- The counts of a disk are right. -/
structure Accounted (d : Disk) : Prop where
  distinct : (d.files.map (·.1)).Nodup
  named : ∀ name ∈ d.files.map (·.1), isName name = true
  used : d.used = total d.files
  within : d.used ≤ quota
  once : d.unsaved.Nodup
  marked : ∀ name ∈ d.unsaved, isName name = true
  dirty : d.dirty = true ↔ d.unsaved ≠ []

/-- The bytes of all files but one. -/
def others (d : Disk) (name : String) : ℕ :=
  d.used - d.sizeOf name

namespace Accounted

variable {d d' : Disk} {name : String} {data : ByteArray}

theorem empty : Accounted {} where
  distinct := List.nodup_nil
  named := by simp
  used := rfl
  within := Nat.zero_le _
  once := List.nodup_nil
  marked := by simp
  dirty := by simp

theorem isName_of_find? (h : d.Accounted) (found : d.find? name = some data) :
    isName name = true :=
  h.named name (List.mem_map.2 ⟨_, (Entries.lookup_eq_some_iff h.distinct).1 found, rfl⟩)

theorem find?_eq_none (h : d.Accounted) (invalid : ¬ isName name = true) : d.find? name = none := by
  by_contra present
  obtain ⟨content, found⟩ := Option.ne_none_iff_exists'.1 present
  exact invalid (h.isName_of_find? found)

theorem sizeOf_le (h : d.Accounted) (name : String) : d.sizeOf name ≤ d.used := by
  rw [h.used, sizeOf]
  cases found : d.find? name with
  | none => exact Nat.zero_le _
  | some content => exact size_le_total found

/-! ### Storing and removing -/

theorem stored (h : d.Accounted) (valid : isName name = true)
    (fits : d.others name + data.size ≤ quota) : (d.stored name data).Accounted where
  distinct := by
    rw [Disk.stored, map_fst_put]
    exact nodup_mark h.distinct name
  named := by
    rw [Disk.stored, map_fst_put]
    rintro n mem
    rcases mem_mark.1 mem with mem | rfl
    · exact h.named n mem
    · exact valid
  used := by
    have old := h.sizeOf_le name
    have new := @total_put d.files name data
    rw [h.used] at old
    simp only [Disk.stored, h.used]
    unfold sizeOf find? at *
    omega
  within := fits
  once := nodup_mark h.once name
  marked := by
    rintro n mem
    rcases mem_mark.1 mem with mem | rfl
    · exact h.marked n mem
    · exact valid
  dirty := by simp [Disk.stored]

theorem removed (h : d.Accounted) (valid : isName name = true) (present : d.contains name = true) :
    (d.removed name).Accounted where
  distinct := h.distinct.sublist (List.filter_sublist.map _)
  named := by
    rintro n mem
    exact h.named n ((List.filter_sublist.map _).subset mem)
  used := by
    obtain ⟨content, found⟩ := Option.isSome_iff_exists.1 present
    have rest := total_removed h.distinct found
    simp only [Disk.removed, sizeOf, found, Option.map_some, Option.getD_some, h.used]
    omega
  within := (Nat.sub_le _ _).trans h.within
  once := nodup_mark h.once name
  marked := by
    rintro n mem
    rcases mem_mark.1 mem with mem | rfl
    · exact h.marked n mem
    · exact valid
  dirty := by simp [Disk.removed]

theorem write (h : d.Accounted) (ok : d.write name data = .ok d') : d'.Accounted := by
  obtain ⟨valid, fits, rfl⟩ := write_eq_ok_iff.1 ok
  exact h.stored valid fits

theorem delete (h : d.Accounted) (ok : d.delete name = .ok d') : d'.Accounted := by
  obtain ⟨valid, present, rfl⟩ := delete_eq_ok_iff.1 ok
  exact h.removed valid present

/-! ### Loading -/

theorem saved (h : d.Accounted) (name : String) : (d.saved name).Accounted where
  distinct := h.distinct
  named := h.named
  used := h.used
  within := h.within
  once := h.once.filter _
  marked n mem := h.marked n (mem_unmark.1 mem).1
  dirty := by simp [Disk.saved]

/-- One more file is written and marked as saved, or it changes nothing on the disk. -/
theorem loading (dir : String) {l : Loading} (h : l.disk.Accounted)
    (entry : List String × ByteArray) : (l.file dir entry).disk.Accounted := by
  rcases l.file_cases dir entry with ⟨-, same⟩ | ⟨-, -, remarks, same⟩ | ⟨-, -, e, -, same⟩ |
    ⟨-, disk, written, stored⟩
  · rwa [same]
  · rwa [same]
  · rwa [same]
  · rw [stored]
    exact (h.write written).saved _

theorem loadFiles (h : d.Accounted) (dir : String) (files : List (List String × ByteArray))
    (fault : Option FileTree.Fault) : (d.loadFiles dir files fault).disk.Accounted := by
  have run : ∀ (files : List (List String × ByteArray)) {l : Loading}, l.disk.Accounted →
      (files.foldl (Loading.file dir) l).disk.Accounted := by
    intro files
    induction files with
    | nil => exact fun h => h
    | cons entry files ih => exact fun h => ih (loading dir h entry)
  exact run files h

/-! ### Saving -/

theorem fail {s : Saving} (h : s.disk.Accounted) (valid : isName name = true)
    (fault : FileTree.Fault) : (s.fail name fault).disk.Accounted where
  distinct := h.distinct
  named := h.named
  used := h.used
  within := h.within
  once := nodup_mark h.once name
  marked := by
    rintro n mem
    rcases mem_mark.1 mem with mem | rfl
    · exact h.marked n mem
    · exact valid
  dirty := by simp [Saving.fail]

theorem removeOne {s : Saving} (h : s.disk.Accounted) (valid : isName name = true) (host : Host)
    (dir : String) : (s.removeOne host dir name).disk.Accounted := by
  rcases s.removeOne_cases host dir name with ⟨tree, -, same⟩ | ⟨fault, -, -, same⟩ |
    ⟨fault, -, -, failed⟩
  · rwa [same]
  · rwa [same]
  · rw [failed]
    exact h.fail valid fault

theorem writeOne {s : Saving} (h : s.disk.Accounted) {entry : String × ByteArray}
    (valid : isName entry.1 = true) (host : Host) (dir : String) :
    (s.writeOne host dir entry).disk.Accounted := by
  rcases s.writeOne_cases host dir entry with ⟨fault, tree, -, failed⟩ |
    ⟨tree, -, ⟨written, -, same⟩ | ⟨fault, -, failed⟩⟩
  · rw [failed]
    exact fail (s := { s with tree }) h valid fault
  · rwa [same]
  · rw [failed]
    exact fail (s := { s with tree }) h valid fault

/-- A disk on which nothing is marked, as saving starts with it. -/
theorem unmarked (h : d.Accounted) : Accounted { d with unsaved := [], dirty := false } where
  distinct := h.distinct
  named := h.named
  used := h.used
  within := h.within
  once := List.nodup_nil
  marked := by simp
  dirty := by simp

/-- Each of a list of names is dealt with by a step that keeps the counts right. -/
theorem foldl {α : Type} {step : Saving → α → Saving} {items : List α}
    (keeps : ∀ item ∈ items, ∀ {s : Saving}, s.disk.Accounted → (step s item).disk.Accounted)
    {s : Saving} (h : s.disk.Accounted) : (items.foldl step s).disk.Accounted := by
  induction items generalizing s with
  | nil => exact h
  | cons item items ih =>
    obtain ⟨first, later⟩ := List.forall_mem_cons.1 keeps
    exact ih later (first h)

theorem persistUnder (h : d.Accounted) (c : Conditions) (t : FileTree) (dir : String) :
    (d.persistUnder c t dir).2.1.Accounted := by
  have valid : ∀ name ∈ c.order d.unsaved, isName name = true := fun name mem =>
    h.marked name ((c.perm d.unsaved).mem_iff.1 mem)
  rcases d.persistUnder_cases c t dir with ⟨fault, tree, -, next⟩ | ⟨tree, -, next⟩ <;> rw [next]
  · exact h
  · refine foldl (fun entry mem s hs => ?_) (foldl (fun name mem s hs => ?_) h.unmarked)
    · obtain ⟨name, changed, found⟩ := List.mem_filterMap.1 mem
      obtain ⟨content, -, rfl⟩ := Option.map_eq_some_iff.1 found
      exact hs.writeOne (valid name changed) _ _
    · exact hs.removeOne (valid name (List.mem_of_mem_filter mem)) _ _

/-! ### Any request -/

theorem serve (h : d.Accounted) (r : Request) : (d.serve r).2.Accounted := by
  cases r with
  | write name data =>
    simp only [Disk.serve]
    split
    · rename_i disk ok
      exact h.write ok
    · exact h
  | delete name =>
    simp only [Disk.serve]
    split
    · rename_i disk ok
      exact h.delete ok
    · exact h
  | load dir files fault => exact h.loadFiles dir files fault
  | persist c t dir => exact h.persistUnder c t dir

end Accounted

/-! ## Runs -/

/-- What a new disk becomes by requests. -/
def afterAll (requests : List Request) : Disk :=
  requests.foldl (fun d r => (d.serve r).2) {}

theorem accounted_afterAll (requests : List Request) : (afterAll requests).Accounted := by
  have run : ∀ (requests : List Request) {d : Disk}, d.Accounted →
      (requests.foldl (fun d r => (d.serve r).2) d).Accounted := by
    intro requests
    induction requests with
    | nil => exact fun h => h
    | cons r requests ih => exact fun h => ih (h.serve r)
  exact run requests .empty

theorem serve_write_fst {d : Disk} {name : String} {data : ByteArray} :
    (d.serve (.write name data)).1 = none ↔
      isName name = true ∧ d.others name + data.size ≤ quota := by
  have ok := @write_eq_ok_iff d (d.stored name data) name data
  simp only [serve]
  split
  · rename_i disk written
    obtain ⟨valid, fits, -⟩ := write_eq_ok_iff.1 written
    simp [valid, others, fits]
  · rename_i e failed
    rw [failed] at ok
    simpa [others] using ok

theorem serve_delete_fst {d : Disk} {name : String} :
    (d.serve (.delete name)).1 = none ↔ isName name = true ∧ d.contains name = true := by
  have ok := @delete_eq_ok_iff d (d.removed name) name
  simp only [serve]
  split
  · rename_i disk removed
    obtain ⟨valid, present, -⟩ := delete_eq_ok_iff.1 removed
    simp [valid, present]
  · rename_i e failed
    rw [failed] at ok
    simpa using ok

/-- **The counts of a disk are always right.**  After any requests to a new disk, each name stands
once, the number of used bytes is that of all files together and keeps to the quota, the disk is
dirty exactly when a name is marked, and all names are valid.  The next request to store or to
remove fails exactly when the name is not valid, the content does not fit beside the other files, or
there is nothing to remove, and leaves the disk as it was then. -/
theorem accounted_of_requests (requests : List Request) :
    let d := afterAll requests
    (d.files.map (·.1)).Nodup ∧ d.used = (d.files.map (·.2.size)).sum ∧ d.used ≤ quota ∧
      (d.dirty = true ↔ d.unsaved ≠ []) ∧
      (∀ name, d.contains name = true ∨ name ∈ d.unsaved → isName name = true) ∧
      (∀ name data, ((d.serve (.write name data)).1 = none ↔
          isName name = true ∧ d.others name + data.size ≤ quota) ∧
        ((d.serve (.write name data)).1 ≠ none → (d.serve (.write name data)).2 = d)) ∧
      ∀ name, ((d.serve (.delete name)).1 = none ↔ isName name = true ∧ d.contains name = true) ∧
        ((d.serve (.delete name)).1 ≠ none → (d.serve (.delete name)).2 = d) := by
  intro d
  have right : d.Accounted := accounted_afterAll requests
  refine ⟨right.distinct, right.used, right.within, right.dirty, ?_, ?_, ?_⟩
  · rintro name (present | marked)
    · obtain ⟨content, found⟩ := Option.isSome_iff_exists.1 present
      exact right.isName_of_find? found
    · exact right.marked name marked
  · refine fun name data => ⟨serve_write_fst, fun failed => ?_⟩
    simp only [serve] at failed ⊢
    split at failed
    · exact absurd rfl failed
    · rfl
  · refine fun name => ⟨serve_delete_fst, fun failed => ?_⟩
    simp only [serve] at failed ⊢
    split at failed
    · exact absurd rfl failed
    · rfl

end RoomScript.Disk
