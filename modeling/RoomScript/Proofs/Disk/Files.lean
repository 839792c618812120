import RoomScript.Disk.Sync
import RoomScript.Proofs.Entries

/-!
# What a disk holds

A disk is looked at through the content it has for a name.  Storing and removing change the content
of one name, and the size of all files by the sizes of the old and the new content.

* `Disk.find?_stored` and `Disk.find?_removed` are the contents after storing and removing;
* `Disk.total_put` and `Disk.total_removed` are the sizes;
* `Disk.write_eq_ok_iff` and `Disk.delete_eq_ok_iff` say when the operations succeed, and what they
  leave;
* `Loading.file_cases`, `Saving.removeOne_cases` and `Saving.writeOne_cases` say all that can come
  of one file, and `Disk.persistUnder_cases` of a save.
-/

namespace RoomScript.Disk

/-! ## Marks -/

@[simp] theorem mem_mark {names : List String} {name n : String} :
    n ∈ mark names name ↔ n ∈ names ∨ n = name := by
  unfold mark
  split
  · rename_i known
    constructor
    · exact fun h => .inl h
    · rintro (h | rfl)
      · exact h
      · exact known
  · simp

theorem nodup_mark {names : List String} (nodup : names.Nodup) (name : String) :
    (mark names name).Nodup := by
  unfold mark
  split
  · exact nodup
  · rename_i fresh
    exact List.nodup_append.2 ⟨nodup, List.nodup_singleton name, by
      rintro a ha b hb rfl
      exact fresh (List.mem_singleton.1 hb ▸ ha)⟩

@[simp] theorem mark_ne_nil (names : List String) (name : String) : mark names name ≠ [] := by
  have mem : name ∈ mark names name := mem_mark.2 (.inr rfl)
  exact List.ne_nil_of_mem mem

@[simp] theorem mem_unmark {names : List String} {name n : String} :
    n ∈ unmark names name ↔ n ∈ names ∧ n ≠ name := by
  simp [unmark]

/-! ## Contents -/

/-- The bytes of all files together. -/
def total (files : List (String × ByteArray)) : ℕ :=
  (files.map (·.2.size)).sum

section Files

variable {files : List (String × ByteArray)} {name other : String} {data : ByteArray}

theorem map_fst_put : (put files name data).map (·.1) = mark (files.map (·.1)) name := by
  induction files with
  | nil => rfl
  | cons file files ih =>
    obtain ⟨n, content⟩ := file
    by_cases same : n = name
    · subst same
      simp [put, mark]
    · have apart : name ≠ n := Ne.symm same
      simp only [put, if_neg same, List.map_cons, ih, mark, List.mem_cons, apart, false_or]
      split <;> rfl

theorem lookup_put : (put files name data).lookup name = some data := by
  induction files with
  | nil => simp [put]
  | cons file files ih =>
    obtain ⟨n, content⟩ := file
    by_cases same : n = name
    · simp [put, same]
    · have apart : (name == n) = false := by simpa using Ne.symm same
      rw [put, if_neg same, List.lookup_cons, apart]
      exact ih

theorem lookup_put_of_ne (apart : other ≠ name) :
    (put files name data).lookup other = files.lookup other := by
  induction files with
  | nil =>
    have no : (other == name) = false := by simpa using apart
    simp [put, List.lookup_cons, no]
  | cons file files ih =>
    obtain ⟨n, content⟩ := file
    by_cases same : n = name
    · subst same
      have no : (other == n) = false := by simpa using apart
      simp [put, List.lookup_cons, no]
    · rw [put, if_neg same, List.lookup_cons, List.lookup_cons, ih]

/-- The old content of a name makes room for the new one. -/
theorem total_put :
    total (put files name data) + ((files.lookup name).map (·.size)).getD 0 =
      total files + data.size := by
  induction files with
  | nil => simp [put, total]
  | cons file files ih =>
    obtain ⟨n, content⟩ := file
    by_cases same : n = name
    · subst same
      simp only [put, if_pos, total, List.map_cons, List.sum_cons, List.lookup_cons, BEq.rfl,
        Option.map_some, Option.getD_some]
      omega
    · have apart : (name == n) = false := by simpa using Ne.symm same
      simp only [put, if_neg same, total, List.map_cons, List.sum_cons, List.lookup_cons, apart]
        at ih ⊢
      omega

theorem total_removed (distinct : (files.map (·.1)).Nodup) (found : files.lookup name = some data) :
    total (files.filter (·.1 ≠ name)) + data.size = total files := by
  induction files with
  | nil => cases found
  | cons file files ih =>
    obtain ⟨n, content⟩ := file
    obtain ⟨fresh, rest⟩ := List.nodup_cons.1 distinct
    by_cases same : n = name
    · subst same
      have others : files.filter (·.1 ≠ n) = files := by
        rw [List.filter_eq_self]
        rintro entry here
        rw [decide_eq_true_iff]
        rintro rfl
        exact fresh (List.mem_map.2 ⟨entry, here, rfl⟩)
      have content_eq : content = data := by simpa [List.lookup_cons] using found
      subst content_eq
      rw [List.filter_cons_of_neg (by simp), others]
      simp only [total, List.map_cons, List.sum_cons]
      omega
    · have apart : (name == n) = false := by simpa using Ne.symm same
      rw [List.lookup_cons, apart] at found
      have ih := ih rest found
      rw [List.filter_cons_of_pos (by simpa using same)]
      simp only [total, List.map_cons, List.sum_cons] at ih ⊢
      omega

theorem size_le_total (found : files.lookup name = some data) : data.size ≤ total files := by
  obtain ⟨before, after, rfl, -⟩ := List.lookup_eq_some_iff.1 found
  simp only [total, List.map_append, List.map_cons, List.sum_append, List.sum_cons]
  omega

end Files

/-! ## Operations -/

section Operations

variable {d d' : Disk} {name : String} {data : ByteArray}

/-- What storing leaves. -/
def stored (d : Disk) (name : String) (data : ByteArray) : Disk :=
  { files := put d.files name data, unsaved := mark d.unsaved name,
    used := d.used - d.sizeOf name + data.size, dirty := true }

/-- What removing leaves. -/
def removed (d : Disk) (name : String) : Disk :=
  { files := d.files.filter (·.1 ≠ name), unsaved := mark d.unsaved name,
    used := d.used - d.sizeOf name, dirty := true }

theorem write_eq_ok_iff : d.write name data = .ok d' ↔
    isName name = true ∧ d.used - d.sizeOf name + data.size ≤ quota ∧ d' = d.stored name data := by
  unfold write
  by_cases named : isName name = true
  · by_cases fits : d.used - d.sizeOf name + data.size > quota
    · simp [named, if_pos fits, Nat.not_le.2 fits]
    · simp [named, if_neg fits, Nat.not_lt.1 fits, stored, eq_comm]
  · simp [named]

theorem delete_eq_ok_iff : d.delete name = .ok d' ↔
    isName name = true ∧ d.contains name = true ∧ d' = d.removed name := by
  unfold delete contains removed sizeOf
  by_cases named : isName name = true
  · cases found : d.find? name with
    | none => simp [named]
    | some content => simp [named, eq_comm]
  · simp [named]

theorem find?_stored : (d.stored name data).find? name = some data :=
  lookup_put

theorem find?_stored_of_ne {other : String} (apart : other ≠ name) :
    (d.stored name data).find? other = d.find? other :=
  lookup_put_of_ne apart

theorem find?_removed : (d.removed name).find? name = none :=
  Entries.lookup_removed

theorem find?_removed_of_ne {other : String} (apart : other ≠ name) :
    (d.removed name).find? other = d.find? other :=
  Entries.lookup_removed_of_ne apart

end Operations

/-! ## One file -/

/-- What loading one file comes to: nothing after an error, a file that is passed over, one that
does not fit, or one that is stored and counts as saved. -/
theorem Loading.file_cases (l : Loading) (dir : String) (entry : List String × ByteArray) :
    (l.error.isSome ∧ l.file dir entry = l) ∨
    (l.error = none ∧ isName ("/".intercalate entry.1) = false ∧
      ∃ remarks, l.file dir entry = { l with remarks }) ∨
    (l.error = none ∧ isName ("/".intercalate entry.1) = true ∧
      ∃ e, l.disk.write ("/".intercalate entry.1) entry.2 = .error e ∧
      l.file dir entry = { l with error := some (.storing e) }) ∨
    (l.error = none ∧ ∃ disk, l.disk.write ("/".intercalate entry.1) entry.2 = .ok disk ∧
      l.file dir entry = { l with disk := disk.saved ("/".intercalate entry.1) }) := by
  unfold Loading.file
  cases failed : l.error with
  | some e => exact .inl ⟨rfl, rfl⟩
  | none =>
    dsimp only
    by_cases valid : isName ("/".intercalate entry.1) = true
    · rw [if_neg (not_not_intro valid)]
      cases written : l.disk.write ("/".intercalate entry.1) entry.2 with
      | error e => exact .inr (.inr (.inl ⟨rfl, valid, e, rfl, rfl⟩))
      | ok disk => exact .inr (.inr (.inr ⟨rfl, disk, rfl, by rw [← failed]⟩))
    · rw [if_pos valid]
      exact .inr (.inl ⟨rfl, by simpa using valid, _, rfl⟩)

namespace Saving

variable (s : Saving) (host : Host) (dir : String)

/-- What removing the saved copy of a file comes to. -/
theorem removeOne_cases (name : String) :
    (∃ tree, host.remove s.tree (Path.join [dir, name]) = .ok tree ∧
      s.removeOne host dir name = { s with tree }) ∨
    (∃ fault, host.remove s.tree (Path.join [dir, name]) = .error fault ∧
      fault.reason = .noEntry ∧ s.removeOne host dir name = s) ∨
    (∃ fault, host.remove s.tree (Path.join [dir, name]) = .error fault ∧
      fault.reason ≠ .noEntry ∧ s.removeOne host dir name = s.fail name fault) := by
  unfold removeOne
  cases host.remove s.tree (Path.join [dir, name]) with
  | ok tree => exact .inl ⟨tree, rfl, rfl⟩
  | error fault =>
    by_cases missing : fault.reason = .noEntry
    · exact .inr (.inl ⟨fault, rfl, missing, if_pos missing⟩)
    · exact .inr (.inr ⟨fault, rfl, missing, if_neg missing⟩)

/-- What saving the content of a file comes to. -/
theorem writeOne_cases (entry : String × ByteArray) :
    (∃ fault tree, host.makeDirs s.tree (Path.dir (Path.join [dir, entry.1])) = (some fault, tree) ∧
      s.writeOne host dir entry = { s with tree }.fail entry.1 fault) ∨
    (∃ tree, host.makeDirs s.tree (Path.dir (Path.join [dir, entry.1])) = (none, tree) ∧
      ((∃ written, host.write tree (Path.join [dir, entry.1]) entry.2 = .ok written ∧
          s.writeOne host dir entry = { s with tree := written }) ∨
        ∃ fault, host.write tree (Path.join [dir, entry.1]) entry.2 = .error fault ∧
          s.writeOne host dir entry = { s with tree }.fail entry.1 fault)) := by
  unfold writeOne
  rcases made : host.makeDirs s.tree (Path.dir (Path.join [dir, entry.1])) with ⟨_ | fault, tree⟩
  · refine .inr ⟨tree, rfl, ?_⟩
    cases written : host.write tree (Path.join [dir, entry.1]) entry.2 with
    | ok after => exact .inl ⟨after, rfl, by simp only [made, written]⟩
    | error fault => exact .inr ⟨fault, rfl, by simp only [made, written]⟩
  · exact .inl ⟨fault, tree, rfl, by simp only [made]⟩

end Saving

/-- What saving comes to in a directory that is there: the deleted names are dealt with first. -/
def savedAll (d : Disk) (c : Conditions) (tree : FileTree) (dir : String) : Saving :=
  ((c.order d.unsaved).filterMap fun name => (d.find? name).map (name, ·)).foldl
    (fun s entry => s.writeOne (c.host entry.1) dir entry)
    (((c.order d.unsaved).filter (! d.contains ·)).foldl
      (fun s name => s.removeOne (c.host name) dir name)
      { disk := { d with unsaved := [], dirty := false }, tree })

/-- What saving comes to. -/
theorem persistUnder_cases (d : Disk) (c : Conditions) (t : FileTree) (dir : String) :
    (∃ fault tree, c.directory.makeDirs t dir = (some fault, tree) ∧
      d.persistUnder c t dir = (some (.creating dir fault), d, tree)) ∨
    ∃ tree, c.directory.makeDirs t dir = (none, tree) ∧
      d.persistUnder c t dir = ((d.savedAll c tree dir).fault.map .saving,
        (d.savedAll c tree dir).disk, (d.savedAll c tree dir).tree) := by
  unfold persistUnder
  rcases c.directory.makeDirs t dir with ⟨_ | fault, tree⟩
  · exact .inr ⟨tree, rfl, rfl⟩
  · exact .inl ⟨fault, tree, rfl, rfl⟩

end RoomScript.Disk
