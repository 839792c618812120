import RoomScript.Bundle
import RoomScript.Proofs.Archive
import RoomScript.Proofs.RoundTrip

/-!
# Names in a bundle

A bundle names the version, the kinds and the members of a script, and what can be read from a
bundle depends on these names being told apart again.

* `Version.parse_name_eq_ok_iff` and `Kind.parse_name_eq_ok_iff` say which names are read back;
* `memberName_injective` and `manifestName_ne` keep the members apart;
* `Codec.Lists` relates the entries of a directory to members, and `readMember_of_lists` says that
  a member is found which has its name for itself;
* `fits_members` says which bundles are archives of a size that can be read.
-/

namespace RoomScript

theorem RawText.ofString_inj {s t : String} : RawText.ofString s = RawText.ofString t ↔ s = t := by
  constructor
  · intro same
    rw [← RawText.text_ofString s, same, RawText.text_ofString]
  · rintro rfl
    rfl

/-! ## Versions -/

namespace Version

/-- The versions with a name of their own. -/
def named : List Version :=
  [bio1, bio2, bio3]

/-- The name that is written for another version is a text in lower case, and no name. -/
theorem lower_trim_name {v : Version} (unnamed : v ∉ named) :
    ∃ cs, (Text.lower (Text.trim v.name)).toList = 'v' :: 'e' :: cs := by
  have name : v.name = "version(" ++ Text.decimal 0 v.number ++ ")" := by
    simp only [named, List.mem_cons, List.not_mem_nil, or_false, not_or] at unnamed
    obtain ⟨first, second, third⟩ := unnamed
    rw [Version.name, if_neg first, if_neg second, if_neg third]
  have chars : v.name.toList =
      'v' :: 'e' :: ("rsion(".toList ++ (Text.decimal 0 v.number).toList) ++ [')'] := by
    rw [name]
    simp
  have trimmed : Text.trimList v.name.toList = v.name.toList := by
    have front : v.name.toList.dropWhile Text.isBlank = v.name.toList := by
      rw [chars]
      rfl
    have back : v.name.toList.reverse.dropWhile Text.isBlank = v.name.toList.reverse := by
      rw [chars, List.reverse_append]
      rfl
    rw [Text.trimList, Text.dropBlankEnd, front, back, List.reverse_reverse]
  refine ⟨("rsion(".toList ++ (Text.decimal 0 v.number).toList ++ [')']).map Text.lowerChar, ?_⟩
  rw [Text.lower, Text.trim, String.toList_ofList, String.toList_ofList, trimmed, chars]
  rfl

/-- A version is read from its name exactly if it has one. -/
theorem parse_name_eq_ok_iff {v w : Version} :
    parse (RawText.ofString v.name) = .ok w ↔ v ∈ named ∧ w = v := by
  have own : ∀ v ∈ named, parse (RawText.ofString v.name) = .ok v := by
    decide +kernel
  by_cases mem : v ∈ named
  · rw [own v mem, Except.ok.injEq]
    exact ⟨fun same => ⟨mem, same.symm⟩, fun same => same.2.symm⟩
  · refine iff_of_false ?_ fun both => mem both.1
    obtain ⟨cs, chars⟩ := lower_trim_name mem
    intro read
    unfold parse at read
    rw [RawText.text_ofString] at read
    generalize Text.lower (Text.trim v.name) = lowered at read chars
    split at read
    case h_10 => cases read
    all_goals cases chars

end Version

/-! ## Kinds -/

namespace Kind

theorem name_injective {kind other : Kind} (here : kind ∈ named) (there : other ∈ named)
    (same : kind.name = other.name) : kind = other := by
  have apart : ∀ kind ∈ named, ∀ other ∈ named, kind.name = other.name → kind = other := by decide
  exact apart kind here other there same

/-- The name that is written for another kind is no name. -/
theorem name_ne {kind other : Kind} (unnamed : kind ∉ named) (there : other ∈ named) :
    other.name ≠ kind.name := by
  have name : kind.name = "kind(" ++ Text.decimal 0 kind.code ++ ")" := by
    simp only [named, List.mem_cons, List.not_mem_nil, or_false, not_or] at unnamed
    obtain ⟨first, second, third⟩ := unnamed
    rw [Kind.name, if_neg first, if_neg second, if_neg third]
  have plain : ∀ other ∈ named, '(' ∉ other.name.toList := by decide
  intro same
  refine plain other there ?_
  rw [same, name]
  simp

theorem mem_named_of_parse {text : RawText} {kind : Kind} (read : parse text = .ok kind) :
    kind ∈ named := by
  unfold parse at read
  split at read
  · rename_i k found
    cases read
    exact List.mem_of_find?_eq_some found
  · cases read

/-- A kind is read from its name exactly if it has one. -/
theorem parse_name_eq_ok_iff {kind other : Kind} :
    parse (RawText.ofString kind.name) = .ok other ↔ kind ∈ named ∧ other = kind := by
  have own : ∀ kind ∈ named, parse (RawText.ofString kind.name) = .ok kind := by
    decide +kernel
  by_cases mem : kind ∈ named
  · rw [own kind mem, Except.ok.injEq]
    exact ⟨fun same => ⟨mem, same.symm⟩, fun same => same.2.symm⟩
  · refine iff_of_false ?_ fun both => mem both.1
    have none :
        named.find? (fun k => RawText.ofString k.name == RawText.ofString kind.name) = none := by
      rw [List.find?_eq_none]
      intro k here
      rw [beq_iff_eq, RawText.ofString_inj]
      exact name_ne mem here
    rw [parse, none]
    exact nofun

end Kind

/-! ## Members -/

namespace Bundle

/-- The members of procedures with different positions have different names. -/
theorem memberName_injective {p q : Procedure} (named : p.kind ∈ Kind.named)
    (named' : q.kind ∈ Kind.named) (nonneg : 0 ≤ p.index) (nonneg' : 0 ≤ q.index)
    (same : memberName p = memberName q) : p.kind = q.kind ∧ p.index = q.index := by
  have plain : ∀ kind ∈ Kind.named, '/' ∉ kind.name.toList := by decide
  have chars : ∀ p : Procedure, (memberName p).toList =
      p.kind.name.toList ++ '/' :: ((Text.decimal 2 p.index).toList ++ ".bin".toList) := by
    intro p
    rw [memberName]
    simp
  have digits : '/' ∉ (Text.decimal 2 p.index).toList ++ ".bin".toList := by
    obtain ⟨zeros, written⟩ := Text.toList_decimal_eq_append 2 nonneg
    have digit : ∀ d < 10, '/' ≠ Nat.digitChar d := by decide
    rw [written]
    intro mem
    rcases List.mem_append.1 mem with mem | mem
    · rcases List.mem_append.1 mem with mem | mem
      · cases List.eq_of_mem_replicate mem
      · obtain ⟨d, small, here⟩ := Text.exists_digit_of_mem (by decide) mem
        exact digit d small here
    · exact absurd mem (by decide)
  have parts := congrArg String.toList same
  rw [chars, chars, List.append_cons_inj_of_notMem (plain p.kind named) digits] at parts
  obtain ⟨kinds, -, indices⟩ := parts
  constructor
  · exact Kind.name_injective named named' (String.toList_inj.1 kinds)
  · exact Text.decimal_injective nonneg nonneg'
      (String.toList_inj.1 (List.append_cancel_right indices))

theorem manifestName_ne (p : Procedure) : manifestName ≠ memberName p := by
  have plain : '/' ∉ manifestName.toList := by decide
  intro same
  refine plain ?_
  rw [same, memberName]
  simp

/-- Entries stand for members, one by one: each has the name of its member, and is read with its
content. -/
def Codec.Lists (c : Codec) (data : ByteArray) (entries : List Archive.Entry)
    (members : List (String × ByteArray)) : Prop :=
  List.Forall₂ (fun e m => e.name = RawText.ofString m.1 ∧ c.content data e = .ok m.2)
    entries members

/-- A member is read if no other content stands under its name. -/
theorem readMember_of_lists {c : Codec} {data : ByteArray} {entries : List Archive.Entry}
    {members : List (String × ByteArray)} (stored : c.Lists data entries members)
    {name : String} {content : ByteArray} (mem : (name, content) ∈ members)
    (alone : ∀ m ∈ members, m.1 = name → m.2 = content) :
    c.readMember data entries name = .ok content := by
  obtain ⟨listed, known⟩ := exists_of_forall₂ stored
  obtain ⟨e, here, named, -⟩ := known _ mem
  -- The entry that is found need not be that of the member, but it has the same name.
  cases found : entries.reverse.find? (·.name == RawText.ofString name) with
  | none =>
    have absent := List.find?_eq_none.1 found e (List.mem_reverse.2 here)
    exact absurd (beq_iff_eq.2 named) absent
  | some other =>
    obtain ⟨⟨name', content'⟩, there, named', read⟩ :=
      listed other (List.mem_reverse.1 (List.mem_of_find?_eq_some found))
    have hit := List.find?_some (p := fun e : Archive.Entry => e.name == RawText.ofString name) found
    have same : name' = name := by
      rw [← RawText.ofString_inj, ← named']
      exact eq_of_beq hit
    have content : content' = content := alone _ there same
    rw [Codec.readMember, found]
    simp only [read, content]

/-! ## Sizes -/

/-- The name of a member is not that of a directory. -/
theorem getLast?_memberName (p : Procedure) :
    (memberName p).toUTF8.toList.getLast? ≠ some '/'.toUInt8 := by
  have last : ".bin".toUTF8.data.toList.getLast? = some 'n'.toUInt8 := by decide +kernel
  have bytes : (memberName p).toUTF8.toList =
      (p.kind.name ++ "/" ++ Text.decimal 2 p.index).toUTF8.data.toList ++
        ".bin".toUTF8.data.toList := by
    rw [Archive.toList_eq, memberName]
    simp only [String.toUTF8, String.toByteArray_append, ByteArray.toList_data_append]
  rw [bytes, List.getLast?_append, last, Option.some_or]
  decide

theorem fits_members {s : Script} {source : String} {created : Timestamp}
    (count : s.procedures.length < 2 ^ 16 - 2)
    (size : (encode s source created).size < 2 ^ 32 - 1)
    (names : ∀ p ∈ s.procedures, (memberName p).utf8ByteSize < 2 ^ 16) :
    Archive.Fits (members s source created) where
  count := by
    rw [members, List.length_cons, List.length_map]
    omega
  size := size
  names := by
    have small : manifestName.utf8ByteSize < 2 ^ 16 := by decide +kernel
    refine List.forall_mem_cons.2 ⟨small, fun m mem => ?_⟩
    obtain ⟨p, here, rfl⟩ := List.mem_map.1 mem
    exact names p here
  files := by
    have file : manifestName.toUTF8.toList.getLast? ≠ some '/'.toUInt8 := by decide +kernel
    refine List.forall_mem_cons.2 ⟨file, fun m mem => ?_⟩
    obtain ⟨p, -, rfl⟩ := List.mem_map.1 mem
    exact getLast?_memberName p

end Bundle

end RoomScript
