import RoomScript.Proofs.Bundle.Manifest
import RoomScript.Proofs.Bundle.Unpacking

/-!
# Packing and unpacking

A script comes back from its bundle, with its procedures in order, exactly if it has a version and
kinds with names and its procedures can be numbered without gaps.  This holds whatever the bundle is
written and read with, as long as archives and manifests give back what they were given.

* `ordered` puts the procedures of a script in the order of their entries;
* `indexed_ordered_iff` says which scripts are numbered once they are in order;
* `Codec.GivesBack` is what is needed of a codec, `decode_encode_eq_ok_iff` says what comes back,
  and `bundle_returns` when something does;
* `givesBack_of_fits` says that stored members and JSON give back all bundles of a size that can be
  read.
-/

namespace RoomScript

namespace Script

/-- Procedures come by kind, and by index within a kind. -/
def positionLE (p q : Procedure) : Bool :=
  p.kind.code < q.kind.code || (p.kind.code == q.kind.code && p.index ≤ q.index)

/-- A script with its procedures in order. -/
def ordered (s : Script) : Script :=
  { s with procedures := s.procedures.mergeSort positionLE }

theorem positionLE_iff {p q : Procedure} : positionLE p q = true ↔
    p.kind.code < q.kind.code ∨ (p.kind = q.kind ∧ p.index ≤ q.index) := by
  have same : p.kind.code = q.kind.code ↔ p.kind = q.kind := by
    obtain ⟨⟨code⟩, index, name, data⟩ := p
    obtain ⟨⟨code'⟩, index', name', data'⟩ := q
    simp
  simp [positionLE, same]

theorem perm_ordered (s : Script) : s.ordered.procedures.Perm s.procedures :=
  List.mergeSort_perm _ _

theorem pairwise_ordered (s : Script) :
    s.ordered.procedures.Pairwise fun p q => positionLE p q = true := by
  refine List.pairwise_mergeSort ?_ ?_ s.procedures
  · intro p q r first second
    rw [positionLE_iff] at first second ⊢
    rcases first with first | ⟨kind, index⟩
    · rcases second with second | ⟨kind', -⟩
      · exact .inl (lt_trans first second)
      · exact .inl (kind' ▸ first)
    · rcases second with second | ⟨kind', index'⟩
      · exact .inl (kind ▸ second)
      · exact .inr ⟨kind.trans kind', le_trans index index'⟩
  · intro p q
    simp only [positionLE, Bool.or_eq_true, Bool.and_eq_true, decide_eq_true_eq, beq_iff_eq]
    omega

/-- In order, a script is numbered if the procedures of each kind have the numbers from zero on, in
whatever order they stand. -/
theorem indexed_ordered_iff (s : Script) :
    s.ordered.Indexed ↔ (∀ p ∈ s.procedures, p.kind ∈ Kind.named) ∧
      ∀ kind, ((s.ofKind kind).map (·.index)).Perm
        ((List.range (s.ofKind kind).length).map fun i : ℕ => (i : ℤ)) := by
  have perm : ∀ kind, (s.ordered.ofKind kind).Perm (s.ofKind kind) := fun kind =>
    s.perm_ordered.filter _
  constructor
  · intro indexed
    refine ⟨fun p mem => indexed.named p (s.perm_ordered.mem_iff.2 mem), fun kind => ?_⟩
    have indices := indexed.indices kind
    rw [(perm kind).length_eq] at indices
    rw [← indices]
    exact ((perm kind).map _).symm
  · rintro ⟨named, numbers⟩
    refine ⟨fun p mem => named p (s.perm_ordered.mem_iff.1 mem), fun kind => ?_⟩
    -- Both lists are in increasing order.
    refine List.Perm.eq_of_pairwise (fun a b _ _ => @le_antisymm ℤ _ a b) ?_ ?_ ?_
    · rw [List.pairwise_map]
      refine (s.pairwise_ordered.filter _).imp_of_mem ?_
      intro p q here there first
      rw [positionLE_iff, (mem_ofKind.1 here).2, (mem_ofKind.1 there).2] at first
      rcases first with first | ⟨-, index⟩
      · exact absurd first (lt_irrefl _)
      · exact index
    · rw [List.pairwise_map]
      exact List.pairwise_lt_range.imp fun less => by omega
    · rw [(perm kind).length_eq]
      exact ((perm kind).map _).trans (numbers kind)

/-- In a numbered script the numbers of a kind increase. -/
theorem Indexed.pairwise_index {s : Script} (indexed : s.Indexed) :
    s.procedures.Pairwise fun p q => p.kind = q.kind → p.index < q.index := by
  rw [List.pairwise_iff_forall_sublist]
  intro p q both kind
  obtain ⟨front, back, split, here, there⟩ := List.cons_sublist_iff.1 both
  obtain ⟨before, between, rfl⟩ := List.append_of_mem here
  obtain ⟨between', after, rfl⟩ := List.append_of_mem (List.singleton_sublist.1 there)
  have first : p.index = (before.filter (·.kind = p.kind)).length :=
    indexed.index_eq_length (by simpa using split)
  have second : q.index =
      ((before ++ p :: (between ++ between')).filter (·.kind = q.kind)).length :=
    indexed.index_eq_length (by simpa using split)
  rw [List.filter_append, List.filter_cons_of_pos (by simpa using kind), List.length_append,
    List.length_cons, ← kind] at second
  omega

/-- In a numbered script a procedure is known from its kind and index. -/
theorem Indexed.eq_of_position {s : Script} (indexed : s.Indexed) {p q : Procedure}
    (here : p ∈ s.procedures) (there : q ∈ s.procedures) (kind : p.kind = q.kind)
    (index : p.index = q.index) : p = q := by
  have nodup : ((s.ofKind q.kind).map (·.index)).Nodup := by
    rw [indexed.indices]
    exact nodup_range_cast _
  have mem : p ∈ s.procedures.filter fun r => r.kind = q.kind ∧ r.index = q.index := by
    simp [here, kind, index]
  rw [filter_of_indices nodup there] at mem
  exact List.mem_singleton.1 mem

/-- Whether a script is numbered depends on the positions of its procedures. -/
theorem Indexed.of_positions {s t : Script} (indexed : s.Indexed)
    (same : t.procedures.map (fun p => (p.kind, p.index)) =
      s.procedures.map fun p => (p.kind, p.index)) : t.Indexed := by
  have indices : ∀ (s : Script) kind, (s.ofKind kind).map (·.index) =
      ((s.procedures.map fun p => (p.kind, p.index)).filter (·.1 = kind)).map (·.2) := by
    intro s kind
    rw [List.filter_map, List.map_map]
    rfl
  constructor
  · intro p mem
    have place : (p.kind, p.index) ∈ s.procedures.map fun p => (p.kind, p.index) := by
      rw [← same]
      exact List.mem_map_of_mem mem
    obtain ⟨q, mem', position⟩ := List.mem_map.1 place
    rw [← (Prod.mk.inj position).1]
    exact indexed.named q mem'
  · intro kind
    have equal : (t.ofKind kind).map (·.index) = (s.ofKind kind).map (·.index) := by
      rw [indices, indices, same]
    have count := congrArg List.length equal
    rw [List.length_map, List.length_map] at count
    rw [equal, count]
    exact indexed.indices kind

end Script

namespace Bundle

/-- A codec gives back what it is given: the directory of an archive lists the members in their
order, each of them is read with its content, and the manifest is read as it was written. -/
structure Codec.GivesBack (c : Codec) (members : List (String × ByteArray)) (m : Manifest) :
    Prop where
  stored : ∃ entries, c.directory (c.pack members) = .ok entries ∧
    c.Lists (c.pack members) entries members
  written : c.parse? (c.text m) = some m

/-- The entry of a procedure, with its kind. -/
def placed (p : Procedure) : Kind × Entry :=
  (p.kind,
    { kind := p.kind.name, index := p.index, name := p.name, file := memberName p,
      size := p.data.length })

variable {s : Script} {source : String} {created : Timestamp} {c : Codec}

/-- The entries of a manifest are those of the procedures in order. -/
theorem orderedEntries_manifest {entries : List (Kind × Entry)} :
    orderedEntries (manifest s source created) = .ok entries ↔
      (∀ p ∈ s.procedures, p.kind ∈ Kind.named) ∧ entries = s.ordered.procedures.map placed := by
  have sorted : s.ordered.procedures.map placed = (s.procedures.map placed).mergeSort entryLE :=
    List.map_mergeSort fun _ _ _ _ => rfl
  have parsed : ∀ {parsed : List (Kind × Entry)},
      List.Forall₂ (fun e x => Kind.parse e.kind = .ok x.1 ∧ x.2 = e)
          (manifest s source created).entries parsed ↔
        (∀ p ∈ s.procedures, p.kind ∈ Kind.named) ∧ parsed = s.procedures.map placed := by
    intro parsed
    have each : ∀ (p : Procedure) (x : Kind × Entry),
        Kind.parse (placed p).2.kind = .ok x.1 ∧ x.2 = (placed p).2 ↔
          p.kind ∈ Kind.named ∧ placed p = x := by
      rintro p ⟨kind, e⟩
      rw [placed, Kind.parse_name_eq_ok_iff, Prod.mk.injEq, and_assoc, eq_comm (a := kind),
        eq_comm (a := e)]
    have entries : (manifest s source created).entries =
        s.procedures.map fun p => (placed p).2 := rfl
    rw [entries, List.forall₂_map_left_iff]
    simp only [each, List.forall₂_and_left]
    rw [← List.forall₂_map_left_iff (f := placed) (R := Eq), List.forall₂_eq_eq_eq, eq_comm]
  rw [orderedEntries_eq_ok_iff]
  constructor
  · rintro ⟨_, read, rfl⟩
    obtain ⟨named, rfl⟩ := parsed.1 read
    exact ⟨named, sorted.symm⟩
  · rintro ⟨named, rfl⟩
    exact ⟨_, parsed.2 ⟨named, rfl⟩, sorted⟩

section Stored

variable {data : ByteArray} {entries : List Archive.Entry}
  (stored : c.Lists data entries (members s source created c))

include stored

theorem readMember_manifest :
    c.readMember data entries manifestName = .ok (c.text (manifest s source created)) := by
  refine readMember_of_lists stored List.mem_cons_self (List.forall_mem_cons.2 ⟨fun _ => rfl, ?_⟩)
  intro m mem same
  obtain ⟨p, -, rfl⟩ := List.mem_map.1 mem
  exact absurd same.symm (manifestName_ne p)

/-- In a script that is numbered when it is in order, every procedure has a member for itself. -/
theorem readMember_memberName (indexed : s.ordered.Indexed) {p : Procedure}
    (mem : p ∈ s.procedures) :
    c.readMember data entries (memberName p) = .ok p.data.toByteArray := by
  have within : ∀ {q}, q ∈ s.procedures → q ∈ s.ordered.procedures := s.perm_ordered.mem_iff.2
  refine readMember_of_lists stored
    (List.mem_cons_of_mem _ (List.mem_map.2 ⟨p, mem, rfl⟩)) (List.forall_mem_cons.2 ⟨?_, ?_⟩)
  · exact fun same => absurd same (manifestName_ne p)
  · intro m mem' same
    obtain ⟨q, there, rfl⟩ := List.mem_map.1 mem'
    have here := within mem
    have there := within there
    obtain ⟨kind, index⟩ := memberName_injective (indexed.named q there) (indexed.named p here)
      (indexed.nonneg q there) (indexed.nonneg p here) same
    rw [indexed.eq_of_position there here kind index]

/-- The procedures that the entries of a numbered script stand for are those of the script. -/
theorem describes_placed_iff (indexed : s.ordered.Indexed) {p q : Procedure}
    (mem : p ∈ s.procedures) : Describes (c.readMember data entries) (placed p) q ↔ p = q := by
  have read := readMember_memberName stored indexed mem
  constructor
  · obtain ⟨kind, index, name, data'⟩ := q
    rintro ⟨rfl, rfl, rfl, body, content, -, rfl⟩
    have same : body = p.data.toByteArray := Except.ok.inj (content.symm.trans read)
    rw [same, Archive.toList_toByteArray]
    rfl
  · rintro rfl
    refine ⟨rfl, rfl, rfl, p.data.toByteArray, read, ?_, (Archive.toList_toByteArray _).symm⟩
    rw [List.size_toByteArray]
    rfl

theorem forall₂_describes_iff (indexed : s.ordered.Indexed) {ps : List Procedure} :
    List.Forall₂ (Describes (c.readMember data entries)) (s.ordered.procedures.map placed) ps ↔
      ps = s.ordered.procedures := by
  have each : ∀ p ∈ s.ordered.procedures, ∀ q,
      Describes (c.readMember data entries) (placed p) q ↔ p = q := fun p mem q =>
    describes_placed_iff stored indexed (s.perm_ordered.mem_iff.1 mem)
  rw [List.forall₂_map_left_iff]
  constructor
  · intro describe
    have same := map_eq_of_forall₂ (f := id) (g := id) describe fun p mem q described =>
      ((each p mem q).1 described).symm
    simpa using same
  · rintro rfl
    exact List.forall₂_same.2 fun p mem => (each p mem p).2 rfl

/-- What is unpacked is the script in order, if this is numbered. -/
theorem script_manifest_eq_ok_iff {t : Script} :
    script (c.readMember data entries) (manifest s source created) = .ok t ↔
      s.version ∈ Version.named ∧ s.ordered.Indexed ∧ t = s.ordered := by
  have engine : (manifest s source created).engine = RawText.ofString s.version.name := rfl
  rw [script_eq_ok_iff, engine, Version.parse_name_eq_ok_iff]
  constructor
  · rintro ⟨-, ⟨version, same⟩, indexed, entries', order, describe⟩
    obtain ⟨-, rfl⟩ := orderedEntries_manifest.1 order
    -- What is unpacked is numbered, and has the positions of the script.
    have positions : s.ordered.procedures.map (fun p => (p.kind, p.index)) =
        t.procedures.map fun p => (p.kind, p.index) := by
      refine (map_eq_of_forall₂ (List.forall₂_map_left_iff.1 describe) ?_).symm
      rintro p - q ⟨kind, index, -⟩
      rw [kind, index]
      rfl
    have indexed := indexed.of_positions positions
    have procedures := (forall₂_describes_iff stored indexed).1 describe
    obtain ⟨version', procedures'⟩ := t
    cases same
    cases procedures
    exact ⟨version, indexed, rfl⟩
  · rintro ⟨version, indexed, rfl⟩
    have named := (s.indexed_ordered_iff.1 indexed).1
    exact ⟨rfl, ⟨version, rfl⟩, indexed, _, orderedEntries_manifest.2 ⟨named, rfl⟩,
      (forall₂_describes_iff stored indexed).2 rfl⟩

end Stored

/-- What comes back from the bundle of a script. -/
theorem decode_encode_eq_ok_iff {found : Script × Manifest}
    (given : c.GivesBack (members s source created c) (manifest s source created)) :
    decode (encode s source created c) c = .ok found ↔
      s.version ∈ Version.named ∧ s.ordered.Indexed ∧
        found = (s.ordered, manifest s source created) := by
  obtain ⟨⟨entries, directory, stored⟩, written⟩ := given
  obtain ⟨t, m⟩ := found
  rw [encode]
  generalize c.pack (members s source created c) = data at directory stored ⊢
  have unpack := script_manifest_eq_ok_iff stored (t := t)
  have envelope := readMember_manifest stored
  rw [Prod.mk.injEq, ← and_assoc, ← and_assoc, and_assoc (a := s.version ∈ Version.named), ← unpack]
  unfold decode
  rw [directory]
  dsimp only
  rw [envelope]
  dsimp only
  rw [written]
  dsimp only
  cases script (c.readMember data entries) (manifest s source created) with
  | error e => simp
  | ok t' => simp [eq_comm (a := m)]

/-- A bundle is given back whose members fit into an archive of stored members, with a time of a
calendar and a clock and indices of 64 bits. -/
theorem givesBack_of_fits (fits : Archive.Fits (members s source created)) (valid : created.Valid)
    (indices : ∀ p ∈ s.procedures, -2 ^ 63 ≤ p.index ∧ p.index < 2 ^ 63) :
    Codec.GivesBack {} (members s source created) (manifest s source created) := by
  refine ⟨Archive.givesBack_of_fits fits,
    parse?_text (fits_manifest valid indices fun p mem => ?_)⟩
  have stored : (memberName p, p.data.toByteArray) ∈ members s source created :=
    List.mem_cons_of_mem _ (List.mem_map_of_mem mem)
  have size := Archive.size_le_size_write stored
  have small := fits.size
  rw [List.size_toByteArray] at size
  omega

/-- **A bundle gives a script back.**  A bundle is written and read with any codec that gives back
its members and its manifest.  It can be read exactly if the version and all kinds of the script
have names and the numbers of each kind are those from zero on, in any order.  What is read then has
the version and the procedures of the script, by kind and by number, and the manifest names the
source. -/
theorem bundle_returns
    (given : c.GivesBack (members s source created c) (manifest s source created)) :
    ((∃ found, decode (encode s source created c) c = .ok found) ↔
        s.version ∈ [.bio1, .bio2, .bio3] ∧
          (∀ p ∈ s.procedures, p.kind ∈ [.init, .main, .event]) ∧
          ∀ kind, ((s.ofKind kind).map (·.index)).Perm
            ((List.range (s.ofKind kind).length).map fun i : ℕ => (i : ℤ))) ∧
      ∀ found m, decode (encode s source created c) c = .ok (found, m) →
        found.version = s.version ∧ found.procedures.Perm s.procedures ∧
          found.procedures.Pairwise (fun p q =>
            p.kind.code < q.kind.code ∨ (p.kind = q.kind ∧ p.index < q.index)) ∧
          m.source = source := by
  have back : ∀ found, decode (encode s source created c) c = .ok found ↔
      s.version ∈ Version.named ∧ s.ordered.Indexed ∧
        found = (s.ordered, manifest s source created) := fun _ => decode_encode_eq_ok_iff given
  constructor
  · rw [exists_congr back]
    constructor
    · rintro ⟨_, version, indexed, rfl⟩
      exact ⟨version, s.indexed_ordered_iff.1 indexed⟩
    · rintro ⟨version, numbers⟩
      exact ⟨_, version, s.indexed_ordered_iff.2 numbers, rfl⟩
  · intro found m read
    obtain ⟨-, indexed, same⟩ := (back _).1 read
    cases same
    refine ⟨rfl, s.perm_ordered, ?_, rfl⟩
    refine s.pairwise_ordered.imp₂ ?_ indexed.pairwise_index
    intro p q first less
    rcases Script.positionLE_iff.1 first with before | ⟨kind, -⟩
    · exact .inl before
    · exact .inr ⟨kind, less kind⟩

/-- A script with its procedures out of order. -/
def shuffled : Script :=
  { version := .bio2
    procedures :=
      [⟨.main, 1, "door", [1, 0]⟩, ⟨.init, 0, "init", [0]⟩, ⟨.main, 0, "main", [0x18, 1]⟩] }

theorem bundle_returns_shuffled :
    Codec.GivesBack {} (members shuffled "room.s" {}) (manifest shuffled "room.s" {}) ∧
      ∃ found m, decode (encode shuffled "room.s" {}) = .ok (found, m) ∧ found.procedures =
        [⟨.init, 0, "init", [0]⟩, ⟨.main, 0, "main", [0x18, 1]⟩, ⟨.main, 1, "door", [1, 0]⟩] ∧
        m.source = "room.s" := by
  have fits : Archive.Fits (members shuffled "room.s" {}) :=
    fits_members (by decide) (by decide +kernel) (by decide +kernel)
  have given : Codec.GivesBack {} (members shuffled "room.s" {}) (manifest shuffled "room.s" {}) :=
    givesBack_of_fits fits (by constructor <;> decide) (by decide)
  have numbers : ∀ kind, ((shuffled.ofKind kind).map (·.index)).Perm
      ((List.range (shuffled.ofKind kind).length).map fun i : ℕ => (i : ℤ)) := by
    intro kind
    by_cases main : kind = .main
    · rw [main]
      decide
    by_cases init : kind = .init
    · rw [init]
      decide
    · have none : shuffled.ofKind kind = [] := by
        simp [Script.ofKind, shuffled, Ne.symm main, Ne.symm init]
      rw [none]
      exact .nil
  obtain ⟨readable, returned⟩ := bundle_returns given
  obtain ⟨⟨found, m⟩, read⟩ := readable.2 ⟨by decide, by decide, numbers⟩
  obtain ⟨-, perm, increasing, source⟩ := returned found m read
  refine ⟨given, found, m, read, ?_, source⟩
  refine List.Perm.eq_of_pairwise ?_ increasing ?_ (perm.trans ?_)
  · intro p q _ _ first second
    rcases first with first | ⟨kind, first⟩
    · rcases second with second | ⟨kind, -⟩
      · omega
      · rw [kind] at first
        exact absurd first (lt_irrefl _)
    · rcases second with second | ⟨-, second⟩
      · rw [kind] at second
        exact absurd second (lt_irrefl _)
      · omega
  · decide
  · decide

end Bundle

end RoomScript
