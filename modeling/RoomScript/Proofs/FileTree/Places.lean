import RoomScript.FileTree
import RoomScript.Proofs.Entries
import RoomScript.Proofs.Path

/-!
# What stands where

A file tree is looked at through what stands at a place.  Setting and erasing change one place.

* `FileTree.node?_set` and `FileTree.node?_erase` are the places after the two operations;
* `FileTree.Valid` are the trees in which everything stands in a directory, and
  `Valid.set` and `Valid.erase` keep them so;
* `FileTree.Keeps` says which places an operation may change.
-/

namespace RoomScript.FileTree

open RoomScript.Path (IsPlain Slashless)

variable {t t' : FileTree} {place other : List String} {node : FileNode}

/-! ## One place -/

@[simp] theorem node?_nil : t.node? [] = some .directory := rfl

theorem node?_of_ne_nil (below : place ≠ []) : t.node? place = t.nodes.lookup place := by
  rw [node?, if_neg (by simpa using below)]

@[simp] theorem workingDir_set : (t.set place node).workingDir = t.workingDir := by
  unfold set
  split <;> rfl

@[simp] theorem workingDir_erase : (t.erase place).workingDir = t.workingDir := rfl

theorem lookup_set : (t.set place node).nodes.lookup place = some node := by
  unfold set
  split
  · rename_i present
    exact Entries.lookup_replaced present
  · rename_i absent
    simp only [Bool.not_eq_true, Option.isSome_eq_false_iff, Option.isNone_iff_eq_none] at absent
    simp [List.lookup_append, absent]

theorem lookup_set_of_ne (apart : other ≠ place) :
    (t.set place node).nodes.lookup other = t.nodes.lookup other := by
  unfold set
  split
  · exact Entries.lookup_replaced_of_ne apart
  · have no : (other == place) = false := by simpa using apart
    simp [List.lookup_append, List.lookup_cons, no]

theorem node?_set (below : place ≠ []) : (t.set place node).node? place = some node := by
  rw [node?_of_ne_nil below, lookup_set]

theorem node?_set_of_ne (apart : other ≠ place) :
    (t.set place node).node? other = t.node? other := by
  unfold node?
  rw [lookup_set_of_ne apart]

theorem node?_erase (below : place ≠ []) : (t.erase place).node? place = none := by
  rw [node?_of_ne_nil below]
  exact Entries.lookup_removed

theorem node?_erase_of_ne (apart : other ≠ place) :
    (t.erase place).node? other = t.node? other := by
  have same : (t.erase place).nodes.lookup other = t.nodes.lookup other :=
    Entries.lookup_removed_of_ne apart
  unfold node?
  rw [same]

theorem mem_nodes_set {e : List String × FileNode} (mem : e ∈ (t.set place node).nodes) :
    e.1 = place ∨ e ∈ t.nodes := by
  unfold set at mem
  split at mem
  · obtain ⟨old, here, rfl⟩ := List.mem_map.1 mem
    by_cases same : old.1 = place
    · exact .inl (by rw [if_pos same])
    · exact .inr (by rwa [if_neg same])
  · rcases List.mem_append.1 mem with here | new
    · exact .inr here
    · exact .inl (by rw [List.mem_singleton.1 new])

/-- A place still stands once when a node is put there. -/
theorem nodup_set (distinct : (t.nodes.map (·.1)).Nodup) :
    ((t.set place node).nodes.map (·.1)).Nodup := by
  unfold set
  split
  · rw [Entries.map_fst_replaced]
    exact distinct
  · rename_i absent
    simp only [Bool.not_eq_true, Option.isSome_eq_false_iff, Option.isNone_iff_eq_none] at absent
    rw [List.map_append, List.nodup_append]
    refine ⟨distinct, List.nodup_singleton _, ?_⟩
    rintro key old new last rfl
    obtain rfl := List.mem_singleton.1 last
    exact Entries.lookup_eq_none_iff.1 absent old

/-- The content of the file at a place. -/
def fileAt? (t : FileTree) (place : List String) : Option ByteArray :=
  match t.node? place with
  | some (.file data) => some data
  | _ => none

theorem fileAt?_eq_some_iff {data : ByteArray} :
    t.fileAt? place = some data ↔ t.node? place = some (.file data) := by
  unfold fileAt?
  rcases t.node? place with _ | (content | _) <;> simp

theorem fileAt?_congr (same : t'.node? place = t.node? place) :
    t'.fileAt? place = t.fileAt? place := by
  unfold fileAt?
  rw [same]

/-! ## Trees in which everything stands in a directory -/

/-- A segment that a node can have. -/
def IsEntry (s : String) : Prop :=
  IsPlain s ∧ Slashless s ∧ s.utf8ByteSize ≤ maxSegment

instance : DecidablePred IsEntry := fun s =>
  inferInstanceAs (Decidable (IsPlain s ∧ ¬ '/' ∈ s.toList ∧ s.utf8ByteSize ≤ maxSegment))

/-- Every node stands once, under ordinary segments and in a directory. -/
structure Valid (t : FileTree) : Prop where
  distinct : (t.nodes.map (·.1)).Nodup
  below : ∀ e ∈ t.nodes, e.1 ≠ []
  entries : ∀ e ∈ t.nodes, ∀ s ∈ e.1, IsEntry s
  parents : ∀ e ∈ t.nodes, t.node? e.1.dropLast = some .directory

theorem mem_of_node? (below : place ≠ []) (here : t.node? place = some node) :
    (place, node) ∈ t.nodes := by
  rw [node?_of_ne_nil below] at here
  exact Entries.mem_of_lookup here

namespace Valid

theorem node?_eq_some_iff (valid : t.Valid) (below : place ≠ []) :
    t.node? place = some node ↔ (place, node) ∈ t.nodes := by
  rw [node?_of_ne_nil below]
  exact Entries.lookup_eq_some_iff valid.distinct

theorem isEntry (valid : t.Valid) (here : t.node? place = some node) : ∀ s ∈ place, IsEntry s := by
  intro s mem
  exact valid.entries _ (mem_of_node? (List.ne_nil_of_mem mem) here) s mem

theorem parent (valid : t.Valid) (here : t.node? place = some node) :
    place ≠ [] → t.node? place.dropLast = some .directory := by
  intro below
  exact valid.parents _ (mem_of_node? below here)

/-- What stands on the way to a node is a directory. -/
theorem directory_append (valid : t.Valid) {rest : List String} (below : rest ≠ [])
    (here : t.node? (place ++ rest) = some node) : t.node? place = some .directory := by
  induction rest using List.reverseRecOn generalizing node with
  | nil => exact absurd rfl below
  | append_singleton rest s ih =>
    have above := valid.parent here (by simp)
    rw [← List.append_assoc, List.dropLast_concat] at above
    by_cases done : rest = []
    · subst done
      rwa [List.append_nil] at above
    · exact ih done above

theorem directory_of_above (valid : t.Valid) (below : place <+: other)
    (here : t.node? other = some .directory) : t.node? place = some .directory := by
  obtain ⟨rest, rfl⟩ := below
  by_cases done : rest = []
  · subst done
    rwa [List.append_nil] at here
  · exact valid.directory_append done here

theorem dropLast (valid : t.Valid) (here : t.node? place = some node) :
    t.node? place.dropLast = some .directory := by
  by_cases below : place = []
  · subst below
    rfl
  · exact valid.parent here below

/-- A node is put into a directory, in the place of nothing or of a file. -/
theorem set (valid : t.Valid) (entry : ∀ s ∈ place, IsEntry s) (below : place ≠ [])
    (parent : t.node? place.dropLast = some .directory)
    (free : t.node? place = some .directory → node = .directory) : (t.set place node).Valid := by
  -- A directory stays one, as it is only ever replaced by a directory.
  have kept : ∀ p, t.node? p = some .directory → (t.set place node).node? p = some .directory := by
    intro p here
    by_cases same : p = place
    · subst same
      rw [node?_set below, free here]
    · rw [node?_set_of_ne same, here]
  refine ⟨nodup_set valid.distinct, fun e mem => ?_, fun e mem => ?_, fun e mem => ?_⟩
  · rcases mem_nodes_set mem with same | old
    · rwa [same]
    · exact valid.below e old
  · rcases mem_nodes_set mem with same | old
    · rwa [same]
    · exact valid.entries e old
  · rcases mem_nodes_set mem with same | old
    · rw [same]
      exact kept _ parent
    · exact kept _ (valid.parents e old)

/-- A node goes that nothing stands in. -/
theorem erase (valid : t.Valid) (bare : ∀ e ∈ t.nodes, e.1.dropLast ≠ place) :
    (t.erase place).Valid where
  distinct := valid.distinct.sublist (List.filter_sublist.map _)
  below e mem := valid.below e (List.mem_of_mem_filter mem)
  entries e mem := valid.entries e (List.mem_of_mem_filter mem)
  parents e mem := by
    have old := List.mem_of_mem_filter mem
    rw [node?_erase_of_ne (bare e old)]
    exact valid.parents e old

end Valid

/-! ## What an operation keeps -/

/-- Between two trees the files are the same and all directories are kept, apart from some
places. -/
structure Keeps (changed : List String → Prop) (t t' : FileTree) : Prop where
  workingDir : t'.workingDir = t.workingDir
  directory : ∀ place, ¬ changed place → t.node? place = some .directory →
    t'.node? place = some .directory
  file : ∀ place, ¬ changed place → t'.fileAt? place = t.fileAt? place

namespace Keeps

variable {changed more : List String → Prop} {t'' : FileTree}

theorem refl (changed : List String → Prop) (t : FileTree) : Keeps changed t t :=
  ⟨rfl, fun _ _ here => here, fun _ _ => rfl⟩

theorem trans (first : Keeps changed t t') (second : Keeps changed t' t'') :
    Keeps changed t t'' where
  workingDir := second.workingDir.trans first.workingDir
  directory place kept here := second.directory place kept (first.directory place kept here)
  file place kept := (second.file place kept).trans (first.file place kept)

theorem mono (keeps : Keeps changed t t') (wider : ∀ place, changed place → more place) :
    Keeps more t t' where
  workingDir := keeps.workingDir
  directory place kept := keeps.directory place fun h => kept (wider place h)
  file place kept := keeps.file place fun h => kept (wider place h)

theorem set (t : FileTree) (place : List String) (node : FileNode) :
    Keeps (· = place) t (t.set place node) where
  workingDir := workingDir_set
  directory p apart here := by rw [node?_set_of_ne apart, here]
  file p apart := fileAt?_congr (node?_set_of_ne apart)

theorem erase (t : FileTree) (place : List String) : Keeps (· = place) t (t.erase place) where
  workingDir := rfl
  directory p apart here := by rw [node?_erase_of_ne apart, here]
  file p apart := fileAt?_congr (node?_erase_of_ne apart)

end Keeps

end RoomScript.FileTree
