import RoomScript.Proofs.Archive
import RoomScript.Proofs.Chunk
import RoomScript.ScriptFile

/-!
# Raw chunks are read as what they are

The bytes of a joined chunk never look like an archive, so that a script file with them gives back
the procedures that were joined.

* `Chunk.words_of_join` says that a chunk begins with the offsets of its procedures;
* `Bundle.isBundle_of_join` compares the first two offsets with the signature of archives;
* `ScriptFile.load_of_join` says what is read from a file with a chunk.
-/

namespace RoomScript

/-! ## The table in front of a chunk -/

namespace Chunk

/-- A chunk begins with the offsets of its procedures, which are put behind the table. -/
theorem words_of_join {procedures : List (List UInt8)} {chunk : List UInt8}
    (joined : join procedures = .ok chunk) :
    words chunk = starts (2 * procedures.length) procedures ++ words procedures.flatten := by
  unfold join at joined
  split at joined
  · cases joined
  · split at joined
    · rename_i table written
      cases joined
      obtain ⟨fit, rfl⟩ := tableFrom_eq_ok_iff.1 written
      exact words_flatMap_wordBytes_append fit _
    · cases joined

end Chunk

/-! ## The signature of archives -/

namespace Bundle

/-- Whether bytes look like an archive shows in the first four of them. -/
theorem isBundle_take (data : List UInt8) : isBundle (data.take 4) = isBundle data := by
  rw [Bool.eq_iff_iff, isBundle, isBundle, List.isPrefixOf_iff_prefix, List.isPrefixOf_iff_prefix,
    List.prefix_take_iff]
  simp

/-- A chunk does not look like an archive: its second procedure would begin inside of its table. -/
theorem isBundle_of_join {procedures : List (List UInt8)} {chunk : List UInt8}
    (joined : Chunk.join procedures = .ok chunk) : isBundle chunk = false := by
  rw [Bool.eq_false_iff]
  intro signed
  obtain ⟨rest, rfl⟩ := List.isPrefixOf_iff_prefix.1 signed
  have words : 0x4B50 :: 0x0403 :: Chunk.words rest =
      Chunk.starts (2 * procedures.length) procedures ++ Chunk.words procedures.flatten :=
    Chunk.words_of_join joined
  -- The first word says how many procedures there are.
  match procedures with
  | [] => cases joined
  | [_] => cases words
  | first :: second :: others =>
    obtain ⟨size, words⟩ := List.cons.inj words
    obtain ⟨offset, -⟩ := List.cons.inj words
    omega

end Bundle

/-! ## Reading a raw chunk -/

namespace ScriptFile

/-- Byte strings as the procedures of one kind, counted from zero and without names of their own. -/
def numbered (kind : Kind) (procedures : List (List UInt8)) : List Procedure :=
  procedures.mapIdx fun i data => ⟨kind, i, Procedure.defaultName kind i, data⟩

theorem ofKind_numbered (version : Version) (kind : Kind) (procedures : List (List UInt8)) :
    Script.ofKind ⟨version, numbered kind procedures⟩ kind = numbered kind procedures := by
  refine List.filter_eq_self.2 fun p mem => ?_
  obtain ⟨i, _, rfl⟩ := List.mem_mapIdx.1 mem
  exact decide_eq_true rfl

theorem ofProcedures_eq (version : Version) (kind : Kind) (procedures : List (List UInt8)) :
    ofProcedures version kind procedures = ⟨version, numbered kind procedures⟩ := by
  induction procedures using List.reverseRecOn with
  | nil => rfl
  | append_singleton procedures data ih =>
    have step : ofProcedures version kind (procedures ++ [data]) =
        (ofProcedures version kind procedures).add kind (Procedure.defaultName kind
          ((ofProcedures version kind procedures).ofKind kind).length) data :=
      List.foldl_concat ..
    rw [step, ih, ofKind_numbered, Script.add, Script.following, ofKind_numbered]
    simp [numbered, List.mapIdx_append]

/-- **Raw chunks are never mistaken for bundles.**  The chunk of a list of byte strings does not
look like an archive, and a file that holds it is read, as procedures of any kind, as a script of
the selected version whose procedures are exactly these byte strings in their order. -/
theorem load_of_join (procedures : List (List UInt8)) (chunk : List UInt8)
    (joined : Chunk.join procedures = .ok chunk) :
    Bundle.isBundle chunk = false ∧
      ∀ (t : FileTree) (path : String) (selected : Version) (kind : Kind),
        t.read path = .ok chunk.toByteArray →
          load t path selected kind =
            (.ok { version := selected, procedures := procedures.mapIdx fun i data =>
                { kind, index := i, name := Procedure.defaultName kind i, data } },
              [chunkRemark path kind procedures.length]) := by
  have raw := Bundle.isBundle_of_join joined
  refine ⟨raw, fun t path selected kind read => ?_⟩
  have start : (chunk.toByteArray.extract 0 4).toList = chunk.take 4 := by
    rw [Archive.toList_eq, ByteArray.data_extract, Array.toList_extract, List.toList_data_toByteArray,
      List.extract_eq_take_drop, List.drop_zero]
  rw [load, read]
  simp only [ofBytes, start, Bundle.isBundle_take, raw, Archive.toList_toByteArray,
    Chunk.split_of_join joined, ofProcedures_eq, numbered, Bool.false_eq_true, if_false]

/-- A tree with the chunk of two procedures. -/
def chunkTree : FileTree :=
  { nodes := [(["room.scd"], .file (List.toByteArray [4, 0, 5, 0, 1, 2, 3]))] }

theorem load_of_join_room :
    Chunk.join [[1], [2, 3]] = .ok [4, 0, 5, 0, 1, 2, 3] ∧
      load chunkTree "room.scd" .bio2 .event =
        (.ok { version := .bio2,
               procedures := [⟨.event, 0, "event_00", [1]⟩, ⟨.event, 1, "event_01", [2, 3]⟩] },
          ["read 2 event procedures from raw chunk room.scd"]) := by
  have joined : Chunk.join [[1], [2, 3]] = .ok [4, 0, 5, 0, 1, 2, 3] := by decide
  have read : chunkTree.read "room.scd" = .ok (List.toByteArray [4, 0, 5, 0, 1, 2, 3]) := rfl
  refine ⟨joined, ?_⟩
  rw [(load_of_join _ _ joined).2 chunkTree "room.scd" .bio2 .event read]
  rfl

end ScriptFile

end RoomScript
