import RoomScript.Proofs.Bundle.Members

/-!
# Scripts from manifests

A manifest is unpacked entry by entry, in the order of the script, and every entry has to be the
next one of its kind.  So what is unpacked is numbered without gaps, and every manifest of a script
that is numbered like this can be unpacked.

* `Describes` relates an entry to the procedure that is made of it;
* `addEntry_eq_ok_iff` is one step, and `foldlM_addEntry_eq_ok_iff` all of them;
* `script_eq_ok_iff` says what a manifest is unpacked to.
-/

namespace RoomScript

namespace Script

/-- In a numbered script, the number of a procedure is the number of those before it of its kind. -/
theorem Indexed.index_eq_length {s : Script} {before after : List Procedure} {p : Procedure}
    (indexed : s.Indexed) (here : s.procedures = before ++ p :: after) :
    p.index = (before.filter (·.kind = p.kind)).length := by
  have place : (s.ofKind p.kind)[(before.filter (·.kind = p.kind)).length]? = some p := by
    rw [ofKind, here, List.filter_append, List.filter_cons_of_pos (by simp),
      List.getElem?_append_right (Nat.le_refl _), Nat.sub_self]
    rfl
  exact indexed.index_eq place

/-- A numbered script goes on with the next procedure of a kind. -/
theorem Indexed.append {s : Script} (indexed : s.Indexed) {p : Procedure}
    (named : p.kind ∈ Kind.named) (next : p.index = (s.ofKind p.kind).length) :
    Indexed { s with procedures := s.procedures ++ [p] } := by
  have added := indexed.add named p.name p.data
  rwa [Script.add, following, ← next] at added

end Script

namespace Bundle

/-- The procedure that an entry of a manifest stands for: its bytes are those of the member, which
has the size that the entry says. -/
def Describes (read : RawText → Except Error ByteArray) (x : Kind × Entry) (p : Procedure) : Prop :=
  p.kind = x.1 ∧ p.index = x.2.index ∧ p.name = x.2.name ∧
    ∃ body, read x.2.file = .ok body ∧ (body.size : ℤ) = x.2.size ∧ p.data = body.toList

variable {read : RawText → Except Error ByteArray}

/-- One entry: the procedure it stands for comes next. -/
theorem addEntry_eq_ok_iff {s t : Script} {x : Kind × Entry} :
    addEntry read s x = .ok t ↔ ∃ p, Describes read x p ∧ p.index = (s.ofKind p.kind).length ∧
      t = { s with procedures := s.procedures ++ [p] } := by
  obtain ⟨kind, e⟩ := x
  simp only [addEntry, Describes]
  constructor
  · intro added
    cases content : read e.file with
    | error err => simp [content] at added
    | ok body =>
      simp only [content] at added
      by_cases size : (body.size : ℤ) = e.size
      · rw [if_neg (not_not.2 size)] at added
        by_cases next : e.index = (s.ofKind kind).length
        · rw [if_neg (not_not.2 next)] at added
          cases added
          exact ⟨s.following kind e.name body.toList,
            ⟨rfl, next.symm, rfl, body, rfl, size, rfl⟩, rfl, rfl⟩
        · rw [if_pos next] at added
          cases added
      · rw [if_pos size] at added
        cases added
  · rintro ⟨⟨kind', index, name, data⟩, ⟨rfl, rfl, rfl, body, content, size, rfl⟩, next, rfl⟩
    simp only at next
    simp [content, size, next, Script.add, Script.following]

/-- All entries: the procedures they stand for come one after the other, and are numbered without
gaps. -/
theorem foldlM_addEntry_eq_ok_iff {s t : Script} (indexed : s.Indexed)
    {entries : List (Kind × Entry)} (named : ∀ x ∈ entries, x.1 ∈ Kind.named) :
    entries.foldlM (addEntry read) s = .ok t ↔ t.Indexed ∧ ∃ added,
      List.Forall₂ (Describes read) entries added ∧
        t = { s with procedures := s.procedures ++ added } := by
  induction entries generalizing s with
  | nil =>
    constructor
    · rintro ⟨⟩
      exact ⟨indexed, [], .nil, by simp⟩
    · rintro ⟨-, added, none, rfl⟩
      cases none
      simp [pure, Except.pure]
  | cons x entries ih =>
    obtain ⟨first, later⟩ := List.forall_mem_cons.1 named
    rw [List.foldlM_cons]
    constructor
    · intro run
      cases step : addEntry read s x with
      | error err => 
        rw [step] at run
        cases run
      | ok s' =>
        rw [step] at run
        obtain ⟨p, describes, next, rfl⟩ := addEntry_eq_ok_iff.1 step
        have kind : p.kind ∈ Kind.named := describes.1 ▸ first
        obtain ⟨whole, added, describe, rfl⟩ := (ih (indexed.append kind next) later).1 run
        exact ⟨whole, p :: added, .cons describes describe, by simp⟩
    · rintro ⟨whole, added, describe, rfl⟩
      cases describe with
      | @cons _ p _ added describes describe =>
        have next : p.index = (s.ofKind p.kind).length := whole.index_eq_length rfl
        have kind : p.kind ∈ Kind.named := describes.1 ▸ first
        have step := addEntry_eq_ok_iff.2 ⟨p, describes, next, rfl⟩
        rw [step]
        refine (ih (indexed.append kind next) later).2 ⟨whole, added, describe, by simp⟩

/-! ## Manifests -/

theorem mapM_parse_eq_ok_iff {entries : List Entry} {parsed : List (Kind × Entry)} :
    (entries.mapM fun e => (Kind.parse e.kind).map (·, e)) = .ok parsed ↔
      List.Forall₂ (fun e x => Kind.parse e.kind = .ok x.1 ∧ x.2 = e) entries parsed := by
  induction entries generalizing parsed with
  | nil =>
    rw [List.forall₂_nil_left_iff, List.mapM_nil]
    exact ⟨fun h => (Except.ok.inj h).symm, fun h => h ▸ rfl⟩
  | cons e entries ih =>
    rw [List.mapM_cons, List.forall₂_cons_left_iff]
    constructor
    · intro read
      cases first : Kind.parse e.kind with
      | error err =>
        rw [first] at read
        cases read
      | ok kind =>
        cases later : entries.mapM fun e => (Kind.parse e.kind).map (·, e) with
        | error err =>
          rw [first, later] at read
          cases read
        | ok parsed' =>
          rw [first, later] at read
          cases read
          exact ⟨(kind, e), parsed', ⟨rfl, rfl⟩, ih.1 later, rfl⟩
    · rintro ⟨⟨kind, e'⟩, parsed', ⟨first, rfl⟩, later, rfl⟩
      rw [first, ih.2 later]
      rfl

theorem orderedEntries_eq_ok_iff {m : Manifest} {entries : List (Kind × Entry)} :
    orderedEntries m = .ok entries ↔ ∃ parsed,
      List.Forall₂ (fun e x => Kind.parse e.kind = .ok x.1 ∧ x.2 = e) m.entries parsed ∧
        entries = parsed.mergeSort entryLE := by
  unfold orderedEntries
  constructor
  · intro ordered
    split at ordered
    · cases ordered
    · rename_i parsed read
      exact ⟨parsed, mapM_parse_eq_ok_iff.1 read, (Except.ok.inj ordered).symm⟩
  · rintro ⟨parsed, read, rfl⟩
    rw [mapM_parse_eq_ok_iff.2 read]

theorem mem_named_of_orderedEntries {m : Manifest} {entries : List (Kind × Entry)}
    (ordered : orderedEntries m = .ok entries) : ∀ x ∈ entries, x.1 ∈ Kind.named := by
  obtain ⟨parsed, read, rfl⟩ := orderedEntries_eq_ok_iff.1 ordered
  intro x mem
  obtain ⟨e, -, kind, -⟩ := (exists_of_forall₂ read).2 x (List.mem_mergeSort.1 mem)
  exact Kind.mem_named_of_parse kind

/-- A manifest is unpacked to the numbered script that has a procedure for each entry, in order. -/
theorem script_eq_ok_iff {m : Manifest} {s : Script} :
    script read m = .ok s ↔ m.format = formatVersion ∧ Version.parse m.engine = .ok s.version ∧
      s.Indexed ∧ ∃ entries, orderedEntries m = .ok entries ∧
        List.Forall₂ (Describes read) entries s.procedures := by
  unfold script
  by_cases format : m.format = formatVersion
  · rw [if_neg (not_not.2 format)]
    cases engine : Version.parse m.engine with
    | error e => simp
    | ok version =>
      cases ordered : orderedEntries m with
      | error e => simp
      | ok entries =>
        have named := mem_named_of_orderedEntries ordered
        simp only [foldlM_addEntry_eq_ok_iff (.empty version) named, List.nil_append]
        constructor
        · rintro ⟨indexed, added, describe, rfl⟩
          exact ⟨format, rfl, indexed, entries, rfl, describe⟩
        · rintro ⟨-, version', indexed, entries', entries'', describe⟩
          cases version'
          cases entries''
          exact ⟨indexed, s.procedures, describe, rfl⟩
  · rw [if_pos format]
    exact iff_of_false nofun fun all => format all.1

end Bundle

end RoomScript
