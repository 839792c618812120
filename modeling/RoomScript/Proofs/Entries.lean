import Mathlib.Tactic

/-!
# Lists of keys and values

The value of a key in a list is that of the first entry with the key.

* `Entries.lookup_eq_some_iff` says so of a list in which every key stands once;
* `Entries.lookup_removed` and `Entries.lookup_replaced` are the values after all entries of one key
  are removed or replaced.
-/

namespace RoomScript.Entries

variable {α β : Type} {entries : List (α × β)} {key other : α} {value : β}

theorem map_fst_replaced [DecidableEq α] :
    (entries.map fun e => if e.1 = key then (key, value) else e).map (·.1) =
      entries.map (·.1) := by
  rw [List.map_map]
  refine List.map_congr_left fun entry _ => ?_
  by_cases same : entry.1 = key
  · simp [same]
  · simp [same]

variable [BEq α] [LawfulBEq α]

theorem lookup_eq_none_iff : entries.lookup key = none ↔ key ∉ entries.map (·.1) := by
  rw [List.lookup_eq_none_iff]
  constructor
  · rintro apart mem
    obtain ⟨entry, here, rfl⟩ := List.mem_map.1 mem
    simpa using apart entry here
  · rintro absent entry here
    rw [bne_iff_ne]
    rintro rfl
    exact absent (List.mem_map.2 ⟨entry, here, rfl⟩)

theorem mem_of_lookup (found : entries.lookup key = some value) : (key, value) ∈ entries := by
  obtain ⟨before, after, rfl, -⟩ := List.lookup_eq_some_iff.1 found
  simp

/-- A key that stands once in a list is looked up as what it stands with. -/
theorem lookup_eq_some_iff (distinct : (entries.map (·.1)).Nodup) :
    entries.lookup key = some value ↔ (key, value) ∈ entries := by
  refine ⟨mem_of_lookup, fun mem => List.lookup_eq_some_iff.2 ?_⟩
  obtain ⟨before, after, rfl⟩ := List.append_of_mem mem
  refine ⟨before, after, rfl, fun entry here => ?_⟩
  rw [List.map_append, List.map_cons, List.nodup_append] at distinct
  rw [bne_iff_ne]
  exact fun same => distinct.2.2 entry.1 (List.mem_map.2 ⟨entry, here, rfl⟩) key
    List.mem_cons_self same.symm

section Changes

variable [DecidableEq α]

theorem lookup_removed : (entries.filter (·.1 ≠ key)).lookup key = none := by
  rw [lookup_eq_none_iff]
  simp

theorem lookup_removed_of_ne (apart : other ≠ key) :
    (entries.filter (·.1 ≠ key)).lookup other = entries.lookup other := by
  induction entries with
  | nil => rfl
  | cons entry entries ih =>
    obtain ⟨k, v⟩ := entry
    by_cases same : k = key
    · subst same
      have no : (other == k) = false := by simpa using apart
      rw [List.filter_cons_of_neg (by simp), ih, List.lookup_cons, no]
    · rw [List.filter_cons_of_pos (by simpa using same), List.lookup_cons, List.lookup_cons, ih]

theorem lookup_replaced (present : (entries.lookup key).isSome) :
    (entries.map fun e => if e.1 = key then (key, value) else e).lookup key = some value := by
  induction entries with
  | nil => cases present
  | cons entry entries ih =>
    obtain ⟨k, v⟩ := entry
    by_cases same : k = key
    · simp [same]
    · have no : (key == k) = false := by simpa using Ne.symm same
      rw [List.lookup_cons, no] at present
      rw [List.map_cons, if_neg same, List.lookup_cons, no]
      exact ih present

theorem lookup_replaced_of_ne (apart : other ≠ key) :
    (entries.map fun e => if e.1 = key then (key, value) else e).lookup other =
      entries.lookup other := by
  have no : (other == key) = false := by simpa using apart
  induction entries with
  | nil => rfl
  | cons entry entries ih =>
    obtain ⟨k, v⟩ := entry
    by_cases same : k = key
    · subst same
      rw [List.map_cons, if_pos rfl, List.lookup_cons, List.lookup_cons, no, ih]
    · rw [List.map_cons, if_neg same, List.lookup_cons, List.lookup_cons, ih]

end Changes

end RoomScript.Entries
