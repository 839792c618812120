import RoomScript.Proofs.Assembly.Passes
import RoomScript.Proofs.Bundle.Unpacking
import RoomScript.Proofs.ScriptFile

/-!
# Scripts are numbered wherever they come from

Operands and listings name a procedure by its kind and its number.  Assembling, unpacking a bundle
and cutting a raw chunk have nothing in common, but each of them gives scripts in which the number
of a procedure is its position within its kind.

* `Script.Addressed` says what it means that procedures are found by their positions;
* `Script.addressed_of_indices` reduces it to the list of the numbers of every kind;
* `Script.addressed_of_produced` says so for the three ways in which scripts are made.
-/

namespace RoomScript

namespace Script

/-- Procedures are found by their positions: the number of a procedure is its position among those
of its kind, this number leads to it, and no other number leads anywhere. -/
structure Addressed (s : Script) : Prop where
  index : ∀ (kind : Kind) (i : ℕ) (h : i < (s.ofKind kind).length), (s.ofKind kind)[i].index = i
  found : ∀ (kind : Kind) (i : ℕ) (h : i < (s.ofKind kind).length),
    s.find? kind i = some (s.ofKind kind)[i]
  absent : ∀ (kind : Kind) (j : ℤ), (∀ i : ℕ, i < (s.ofKind kind).length → j ≠ i) →
    s.find? kind j = none

/-- It is enough that the numbers of every kind count up from zero. -/
theorem addressed_of_indices {s : Script} (indices : ∀ kind, (s.ofKind kind).map (·.index) =
    (List.range (s.ofKind kind).length).map fun i : ℕ => (i : ℤ)) : s.Addressed := by
  have index : ∀ (kind : Kind) (i : ℕ) (h : i < (s.ofKind kind).length),
      (s.ofKind kind)[i].index = i := by
    intro kind i h
    have here := congrArg (·[i]?) (indices kind)
    simpa [h] using here
  refine ⟨index, fun kind i h => ?_, fun kind j other => ?_⟩
  · obtain ⟨mem, same⟩ := mem_ofKind.1 (List.getElem_mem h)
    have single := filter_of_indices (q := (s.ofKind kind)[i])
      (by rw [indices]; exact nodup_range_cast _) mem
    rw [same, index kind i h] at single
    rw [find?, ← List.head?_filter, single, List.head?_cons]
  · rw [find?, List.find?_eq_none]
    intro p mem hit
    obtain ⟨rfl, number⟩ := of_decide_eq_true hit
    obtain ⟨i, h, here⟩ := List.mem_iff_getElem.1 (mem_ofKind.2 ⟨mem, rfl⟩)
    refine other i h ?_
    rw [← number, ← here, index p.kind i h]

theorem Indexed.addressed {s : Script} (indexed : s.Indexed) : s.Addressed :=
  addressed_of_indices indexed.indices

end Script

/-! ## Raw chunks -/

namespace ScriptFile

/-- The procedures of a raw chunk count up from zero, whatever kind they are read as. -/
theorem addressed_ofProcedures (version : Version) (kind : Kind) (procedures : List (List UInt8)) :
    (ofProcedures version kind procedures).Addressed := by
  rw [ofProcedures_eq]
  refine Script.addressed_of_indices fun other => ?_
  by_cases same : other = kind
  · rw [same, ofKind_numbered, numbered, List.length_mapIdx]
    refine List.ext_getElem (by simp) fun i _ _ => ?_
    simp
  · have none : Script.ofKind ⟨version, numbered kind procedures⟩ other = [] := by
      refine List.filter_eq_nil_iff.2 fun p mem => ?_
      obtain ⟨i, _, rfl⟩ := List.mem_mapIdx.1 mem
      simpa using Ne.symm same
    rw [none]
    rfl

theorem kind_of_mem_ofProcedures {version : Version} {kind : Kind} {procedures : List (List UInt8)}
    {p : Procedure} (mem : p ∈ (ofProcedures version kind procedures).procedures) :
    p.kind = kind := by
  rw [ofProcedures_eq] at mem
  obtain ⟨i, _, rfl⟩ := List.mem_mapIdx.1 mem
  rfl

end ScriptFile

/-! ## Bundles -/

namespace Bundle

/-- What is unpacked is numbered, whatever order, members and sizes the manifest gives, and whatever
it is read with. -/
theorem indexed_of_decode {c : Codec} {data : ByteArray} {s : Script} {m : Manifest}
    (decoded : decode data c = .ok (s, m)) : s.Indexed := by
  unfold decode at decoded
  split at decoded
  · cases decoded
  · split at decoded
    · cases decoded
    · split at decoded
      · cases decoded
      · split at decoded
        · cases decoded
        · rename_i unpacked
          cases decoded
          exact (script_eq_ok_iff.1 unpacked).2.2.1

end Bundle

namespace ScriptFile

/-- What is read from the bytes of a script file is found by position, and it has kinds with a name
or is a raw chunk of the given kind. -/
theorem addressed_ofBytes {path : String} {selected : Version} {kind : Kind} {data : ByteArray}
    {s : Script} (read : (ofBytes path selected kind data).1 = .ok s) :
    (∀ p ∈ s.procedures, p.kind ∈ Kind.named ∨ p.kind = kind) ∧ s.Addressed := by
  unfold ofBytes at read
  split at read
  · split at read
    · cases read
    · rename_i decoded
      have indexed := Bundle.indexed_of_decode decoded
      dsimp only at read
      split at read <;> cases read
      exact ⟨fun p mem => .inl (indexed.named p mem), indexed.addressed⟩
  · split at read
    · cases read
    · cases read
      exact ⟨fun p mem => .inr (kind_of_mem_ofProcedures mem), addressed_ofProcedures ..⟩

end ScriptFile

/-! ## All of them -/

/-- **Every script is numbered, wherever it comes from.**  A source that is assembled without
diagnostics, with any library and any definitions beforehand, an archive of any content that is
unpacked as a bundle, and a file of any content that is read as a script file: each of them gives a
script whose procedures have the kinds init, main and event and are found by their positions.  A raw
chunk is numbered like this for every kind, and its procedures have the kind that it is read as. -/
theorem Script.addressed_of_produced :
    (∀ (lib : Library) (path : String) (defines : List (String × String)) (s : Script),
      (Assembly.assembleFile lib path defines).result = .ok s →
        (∀ p ∈ s.procedures, p.kind ∈ [.init, .main, .event]) ∧ s.Addressed) ∧
    (∀ (data : ByteArray) (s : Script) (m : Bundle.Manifest), Bundle.decode data = .ok (s, m) →
      (∀ p ∈ s.procedures, p.kind ∈ [.init, .main, .event]) ∧ s.Addressed) ∧
    ∀ (t : FileTree) (path : String) (selected : Version) (kind : Kind) (s : Script),
      (ScriptFile.load t path selected kind).1 = .ok s →
        (kind ∈ [.init, .main, .event] → ∀ p ∈ s.procedures, p.kind ∈ [.init, .main, .event]) ∧
          s.Addressed := by
  refine ⟨fun lib path defines s made => ?_, fun data s m decoded => ?_,
    fun t path selected kind s loaded => ?_⟩
  · have indexed := (Assembly.indexed_of_result made).1
    exact ⟨indexed.named, indexed.addressed⟩
  · have indexed := Bundle.indexed_of_decode decoded
    exact ⟨indexed.named, indexed.addressed⟩
  · unfold ScriptFile.load at loaded
    split at loaded
    · cases loaded
    · obtain ⟨kinds, addressed⟩ := ScriptFile.addressed_ofBytes loaded
      refine ⟨fun named p mem => ?_, addressed⟩
      rcases kinds p mem with own | given
      · exact own
      · rw [given]
        exact named

end RoomScript
