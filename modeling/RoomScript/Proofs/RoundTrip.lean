import RoomScript.Proofs.Disk.Files
import RoomScript.Proofs.Listing.Sections
import RoomScript.RoundTrip

/-!
# Listing and assembling again

A script that is numbered in order comes back from its listing with the same bytes, whatever these
are.  And where every procedure has come back, the script has been numbered without gaps: the check
passes no script by mistake.

* `Script.Returns` relates a script to what comes back;
* `Listed` is a listing with its lines, and `Listed.faultless` and `Listed.scriptOf` say what the
  assembler makes of them;
* `listing_returns` is the way there and back, `returns_of_check` what a passed check means.
-/

namespace RoomScript

/-! ## Scripts that come back -/

namespace Script

/-- Every procedure comes back exactly once, with its bytes, and nothing else does. -/
structure Returns (s back : Script) : Prop where
  once : ∀ p ∈ s.procedures, ∃ q,
    back.procedures.filter (fun q => q.kind = p.kind ∧ q.index = p.index) = [q] ∧ q.data = p.data
  only : ∀ q ∈ back.procedures, ∃ p ∈ s.procedures, p.kind = q.kind ∧ p.index = q.index

/-- The procedures of every kind are numbered from zero on in their order, and have a kind with a
name. -/
structure Indexed (s : Script) : Prop where
  named : ∀ p ∈ s.procedures, p.kind ∈ Kind.named
  indices : ∀ kind, (s.ofKind kind).map (·.index) =
    (List.range (s.ofKind kind).length).map fun i : ℕ => (i : ℤ)

theorem mem_ofKind {s : Script} {kind : Kind} {p : Procedure} :
    p ∈ s.ofKind kind ↔ p ∈ s.procedures ∧ p.kind = kind := by
  simp [ofKind]

theorem Indexed.empty (version : Version) : Indexed { version } :=
  ⟨by simp, by simp [ofKind]⟩

/-- Appending a procedure as the next one of its kind keeps the numbers in order. -/
theorem Indexed.add {s : Script} (indexed : s.Indexed) {kind : Kind} (named : kind ∈ Kind.named)
    (name : String) (data : List UInt8) : (s.add kind name data).Indexed := by
  constructor
  · intro p hp
    rcases List.mem_append.1 hp with hp | hp
    · exact indexed.named p hp
    · rw [List.mem_singleton.1 hp]
      exact named
  · intro other
    have before := indexed.indices other
    rw [ofKind] at before
    by_cases same : kind = other
    · subst same
      simp [ofKind, Script.add, following, before, List.range_succ]
    · simp [ofKind, Script.add, following, before, same]

theorem nodup_range_cast (n : ℕ) : ((List.range n).map fun i : ℕ => (i : ℤ)).Nodup :=
  List.nodup_range.map fun _ _ h => Int.ofNat_inj.1 h

theorem filter_eq_singleton {p : Procedure} {ps : List Procedure}
    (nodup : (ps.map (·.index)).Nodup) (mem : p ∈ ps) :
    ps.filter (·.index = p.index) = [p] := by
  induction ps with
  | nil => cases mem
  | cons q ps ih =>
    rw [List.map_cons, List.nodup_cons] at nodup
    obtain ⟨fresh, rest⟩ := nodup
    rcases List.mem_cons.1 mem with rfl | mem
    · rw [List.filter_cons_of_pos (by simp), List.filter_eq_nil_iff.2]
      intro q hq
      rw [decide_eq_true_iff]
      exact fun same => fresh (List.mem_map.2 ⟨q, hq, same⟩)
    · rw [List.filter_cons_of_neg, ih rest mem]
      rw [decide_eq_true_iff]
      exact fun same => fresh (List.mem_map.2 ⟨p, mem, same.symm⟩)

/-- In a numbered script a procedure is known from its kind and index. -/
theorem filter_of_indices {back : Script} {q : Procedure}
    (nodup : ((back.ofKind q.kind).map (·.index)).Nodup) (mem : q ∈ back.procedures) :
    back.procedures.filter (fun r => r.kind = q.kind ∧ r.index = q.index) = [q] := by
  have single := filter_eq_singleton nodup (mem_ofKind.2 ⟨mem, rfl⟩)
  rw [ofKind, List.filter_filter] at single
  simpa [Bool.and_comm] using single

/-- Scripts with the same positions and bytes in every kind. -/
theorem returns_of_ofKind {s back : Script} (indexed : s.Indexed)
    (same : ∀ kind, (back.ofKind kind).map (fun p => (p.index, p.data)) =
      (s.ofKind kind).map fun p => (p.index, p.data)) : s.Returns back := by
  have nodup : ∀ kind, ((back.ofKind kind).map (·.index)).Nodup := by
    intro kind
    have indices := congrArg (List.map Prod.fst) (same kind)
    simp only [List.map_map, Function.comp_def] at indices
    rw [indices, indexed.indices]
    exact nodup_range_cast _
  constructor
  · intro p hp
    have mem : (p.index, p.data) ∈ (back.ofKind p.kind).map fun q => (q.index, q.data) := by
      rw [same]
      exact List.mem_map.2 ⟨p, mem_ofKind.2 ⟨hp, rfl⟩, rfl⟩
    obtain ⟨q, hq, pair⟩ := List.mem_map.1 mem
    obtain ⟨hq, kind⟩ := mem_ofKind.1 hq
    obtain ⟨index, data⟩ := Prod.mk.inj pair
    rw [← kind, ← index]
    exact ⟨q, filter_of_indices (nodup q.kind) hq, data⟩
  · intro q hq
    have mem : (q.index, q.data) ∈ (s.ofKind q.kind).map fun p => (p.index, p.data) := by
      rw [← same]
      exact List.mem_map.2 ⟨q, mem_ofKind.2 ⟨hq, rfl⟩, rfl⟩
    obtain ⟨p, hp, pair⟩ := List.mem_map.1 mem
    obtain ⟨hp, kind⟩ := mem_ofKind.1 hp
    exact ⟨p, hp, kind, (Prod.mk.inj pair).1⟩

end Script

/-! ## Listings and their lines -/

open Assembly Listing

section Related

variable {α β γ : Type} {R : α → β → Prop} {as : List α} {bs : List β}

theorem exists_of_forall₂ (h : List.Forall₂ R as bs) :
    (∀ a ∈ as, ∃ b ∈ bs, R a b) ∧ ∀ b ∈ bs, ∃ a ∈ as, R a b := by
  induction h with
  | nil => simp
  | cons related _ ih =>
    constructor
    · refine List.forall_mem_cons.2 ⟨⟨_, List.mem_cons_self, related⟩, fun a ha => ?_⟩
      obtain ⟨b, hb, related⟩ := ih.1 a ha
      exact ⟨b, List.mem_cons_of_mem _ hb, related⟩
    · refine List.forall_mem_cons.2 ⟨⟨_, List.mem_cons_self, related⟩, fun b hb => ?_⟩
      obtain ⟨a, ha, related⟩ := ih.2 b hb
      exact ⟨a, List.mem_cons_of_mem _ ha, related⟩

theorem map_eq_of_forall₂ (h : List.Forall₂ R as bs) {f : α → γ} {g : β → γ}
    (same : ∀ a ∈ as, ∀ b, R a b → g b = f a) : bs.map g = as.map f := by
  induction h with
  | nil => rfl
  | cons related _ ih =>
    obtain ⟨first, later⟩ := List.forall_mem_cons.1 same
    rw [List.map_cons, List.map_cons, first _ related, ih later]

end Related

/-- The lines of a listing. -/
structure Listed (s : Script) where
  version : Line
  sections : List Section
  role : version.role = .version
  silent : ∀ procedures, (version.encode procedures).2 = [] ↔ s.version = .bio2
  lists : List.Forall₂ Lists (listed s) (Section.tagged sections)

theorem exists_listed (options : Options) (s : Script) :
    ∃ l : Listed s, Reads (script options s).toList
      (l.version :: l.sections.flatMap Section.lines) := by
  obtain ⟨version, sections, reads, role, silent, lists⟩ := reads_script options s
  exact ⟨⟨version, sections, role, silent, lists⟩, reads⟩

theorem mem_listed {s : Script} {p : Procedure} :
    p ∈ listed s ↔ p ∈ s.procedures ∧ p.kind ∈ Kind.named := by
  simp only [listed, List.mem_flatMap, Script.mem_ofKind]
  constructor
  · rintro ⟨kind, named, mem, rfl⟩
    exact ⟨mem, named⟩
  · exact fun ⟨mem, named⟩ => ⟨p.kind, named, mem, rfl⟩

theorem filter_listed (s : Script) {kind : Kind} (named : kind ∈ Kind.named) :
    (listed s).filter (·.kind = kind) = s.ofKind kind := by
  have one : ∀ other, (s.ofKind other).filter (·.kind = kind) =
      if other = kind then s.ofKind kind else [] := by
    intro other
    rw [Script.ofKind, List.filter_filter]
    split
    · rename_i same
      simp [Script.ofKind, same]
    · rename_i different
      rw [List.filter_eq_nil_iff]
      intro p _
      simp only [Bool.and_eq_true, decide_eq_true_eq]
      rintro ⟨rfl, rfl⟩
      exact different rfl
  rw [listed, List.filter_flatMap]
  simp only [one]
  have split : Kind.init ≠ Kind.main ∧ Kind.init ≠ Kind.event ∧ Kind.main ≠ Kind.event := by decide
  simp only [Kind.named, List.mem_cons, List.not_mem_nil, or_false] at named
  rcases named with rfl | rfl | rfl <;> simp [Kind.named, split, split.1.symm, split.2.1.symm,
    split.2.2.symm]

namespace Listed

variable {s : Script} (l : Listed s)

def lines : List Line :=
  l.version :: l.sections.flatMap Section.lines

/-- The names of the main procedures. -/
def procedures : List String :=
  (Declarations.ofLines l.lines).ofKind .main

theorem mem_tagged {part : Section} (mem : part ∈ l.sections) {r : Routine}
    (hr : r ∈ part.routines) : ∃ p ∈ listed s, Lists p (part.kind, r) := by
  refine (exists_of_forall₂ l.lists).2 _ (List.mem_flatMap.2 ⟨part, mem, ?_⟩)
  exact List.mem_map.2 ⟨r, hr, rfl⟩

/-- What the assembler makes of the lines, one kind at a time. -/
theorem ofKind_scriptOf (kind : Kind) :
    ((scriptOf l.lines).ofKind kind).map (fun p => (p.index, p.data)) =
      ((Section.tagged l.sections).filter (·.1 = kind)).zipIdx.map fun x =>
        ((x.2 : ℤ), x.1.2.bytes l.procedures) :=
  ofKind_scriptOf_sections l.role l.sections kind

theorem filter_lists (kind : Kind) :
    List.Forall₂ Lists ((listed s).filter (·.kind = kind))
      ((Section.tagged l.sections).filter (·.1 = kind)) := by
  refine List.rel_filter ?_ l.lists
  intro p x lists
  simp [lists.kind]

/-- As many procedures of a kind come back as were listed, numbered from zero on. -/
theorem indices_scriptOf (kind : Kind) :
    ((scriptOf l.lines).ofKind kind).map (·.index) =
      (List.range ((listed s).filter (·.kind = kind)).length).map fun i : ℕ => (i : ℤ) := by
  have indices := congrArg (List.map Prod.fst) (l.ofKind_scriptOf kind)
  simp only [List.map_map, Function.comp_def] at indices
  rw [indices, (l.filter_lists kind).length_eq, List.range_eq_range', ← List.zipIdx_map_snd,
    List.map_map]
  rfl

/-- The names that the lines declare, where every procedure has an index. -/
theorem names_ofLines (nonneg : ∀ p ∈ listed s, 0 ≤ p.index) :
    (Declarations.ofLines l.lines).names.toList =
      (listed s).map fun p => (p.kind, Procedure.defaultName p.kind p.index) := by
  have named : ∀ part ∈ l.sections, ∀ r ∈ part.routines,
      r.head.procedureName? = some (r.head.procedureName?.getD "") := by
    intro part mem r hr
    obtain ⟨p, hp, lists⟩ := l.mem_tagged mem hr
    rw [lists.name (nonneg p hp)]
    rfl
  refine (Declarations.names_sections l.role named).trans (map_eq_of_forall₂ l.lists ?_)
  intro p hp x lists
  rw [lists.kind, lists.name (nonneg p hp)]
  rfl

/-- What it means that nothing is reported on a listing. -/
theorem of_faultless (faultless : Faultless l.lines) :
    s.version = .bio2 ∧ (∀ p ∈ listed s, 0 ≤ p.index) ∧
      ((listed s).map fun p => (p.kind, p.index)).Nodup := by
  -- The name for a negative index is no single word, and its line is reported.
  have nonneg : ∀ p ∈ listed s, 0 ≤ p.index := by
    intro p hp
    obtain ⟨⟨kind, r⟩, mem, lists⟩ := (exists_of_forall₂ l.lists).1 p hp
    obtain ⟨part, hs, hr⟩ := List.mem_flatMap.1 mem
    obtain ⟨r', hr, same⟩ := List.mem_map.1 hr
    cases same
    refine (lists.head _).1 (faultless.encoded _ (List.mem_cons_of_mem _ ?_))
    refine List.mem_flatMap.2 ⟨part, hs, List.mem_cons_of_mem _ ?_⟩
    exact List.mem_flatMap.2 ⟨r, hr, List.mem_cons_self⟩
  refine ⟨(l.silent _).1 (faultless.encoded _ List.mem_cons_self), nonneg, ?_⟩
  have nodup := (Declarations.diagnostics_eq_empty_iff l.lines).1 faultless.declared
  rw [l.names_ofLines nonneg] at nodup
  have names : ((listed s).map fun p => (p.kind, Procedure.defaultName p.kind p.index)) =
      ((listed s).map fun p => (p.kind, p.index)).map fun x =>
        (x.1, Procedure.defaultName x.1 x.2) := by
    rw [List.map_map]
    rfl
  rw [names] at nodup
  exact nodup.of_map

end Listed

/-! ## Names of numbered scripts -/

namespace Procedure

/-- The procedures whose default name has no number. -/
def aliases : List (String × Kind × ℤ) :=
  [("main", .main, 0), ("aot", .main, 1), ("init", .init, 0)]

theorem defaultName_cases (kind : Kind) (index : ℤ) :
    (defaultName kind index, kind, index) ∈ aliases ∨
      defaultName kind index = kind.name ++ "_" ++ Text.hex 2 index := by
  unfold defaultName
  split
  · rename_i h
    rw [h.1, h.2]
    exact .inl (by decide)
  split
  · rename_i h
    rw [h.1, h.2]
    exact .inl (by decide)
  split
  · rename_i h
    rw [h.1, h.2]
    exact .inl (by decide)
  · exact .inr rfl

/-- Procedures of one kind have different default names. -/
theorem defaultName_injective {kind : Kind} {i j : ℤ} (hi : 0 ≤ i) (hj : 0 ≤ j)
    (same : defaultName kind i = defaultName kind j) : i = j := by
  have once : ∀ a ∈ aliases, ∀ b ∈ aliases, a.1 = b.1 → a.2.2 = b.2.2 := by decide
  have short : ∀ a ∈ aliases, '_' ∉ a.1.toList := by decide
  have numbered : ∀ n : ℤ, '_' ∈ (kind.name ++ "_" ++ Text.hex 2 n).toList := by simp
  rcases defaultName_cases kind i with known | written <;>
    rcases defaultName_cases kind j with known' | written'
  · exact once _ known _ known' same
  · have absent := short _ known
    rw [same, written'] at absent
    exact absurd (numbered j) absent
  · have absent := short _ known'
    rw [← same, written] at absent
    exact absurd (numbered i) absent
  · rw [written, written', String.append_right_inj] at same
    exact Text.hex_injective hi hj same

end Procedure

namespace Script.Indexed

variable {s : Script} (indexed : s.Indexed)

include indexed

theorem nonneg : ∀ p ∈ s.procedures, 0 ≤ p.index := by
  intro p hp
  have mem : p.index ∈ (s.ofKind p.kind).map (·.index) :=
    List.mem_map.2 ⟨p, mem_ofKind.2 ⟨hp, rfl⟩, rfl⟩
  rw [indexed.indices] at mem
  obtain ⟨i, -, index⟩ := List.mem_map.1 mem
  omega

/-- No name is repeated in a listing. -/
theorem nodup_names :
    ((listed s).map fun p => (p.kind, Procedure.defaultName p.kind p.index)).Nodup := by
  rw [listed, List.map_flatMap, List.nodup_flatMap]
  constructor
  · intro kind _
    have indices : ((s.ofKind kind).map (·.index)).Nodup := by
      rw [indexed.indices]
      exact nodup_range_cast _
    refine (List.Nodup.of_map _ indices).map_on fun p hp q hq same => ?_
    obtain ⟨hp', kind'⟩ := mem_ofKind.1 hp
    obtain ⟨hq', kind''⟩ := mem_ofKind.1 hq
    obtain ⟨kinds, names⟩ := Prod.mk.inj same
    rw [kinds] at names
    have index := Procedure.defaultName_injective (indexed.nonneg p hp') (indexed.nonneg q hq') names
    exact List.inj_on_of_nodup_map indices hp hq index
  · have distinct : Kind.named.Nodup := by decide
    refine distinct.imp fun {a b} different => ?_
    intro x hx hx'
    obtain ⟨p, hp, rfl⟩ := List.mem_map.1 hx
    obtain ⟨q, hq, same⟩ := List.mem_map.1 hx'
    refine different ?_
    rw [← (mem_ofKind.1 hp).2, ← (mem_ofKind.1 hq).2]
    exact (Prod.mk.inj same).1.symm

theorem filter_listed (kind : Kind) : (listed s).filter (·.kind = kind) = s.ofKind kind := by
  by_cases named : kind ∈ Kind.named
  · exact RoomScript.filter_listed s named
  · rw [Script.ofKind, List.filter_eq_nil_iff.2, List.filter_eq_nil_iff.2]
    · intro p hp
      rw [decide_eq_true_iff]
      rintro rfl
      exact named (indexed.named p hp)
    · intro p hp
      rw [decide_eq_true_iff]
      rintro rfl
      exact named (mem_listed.1 hp).2

theorem index_eq {kind : Kind} {i : ℕ} {p : Procedure} (h : (s.ofKind kind)[i]? = some p) :
    p.index = i := by
  have index : ((s.ofKind kind).map (·.index))[i]? = some p.index := by
    rw [List.getElem?_map, h]
    rfl
  rw [indexed.indices, List.getElem?_map, Option.map_eq_some_iff] at index
  obtain ⟨j, found, index⟩ := index
  obtain ⟨_, same⟩ := List.getElem?_eq_some_iff.1 found
  rw [List.getElem_range] at same
  omega

theorem zipIdx_ofKind (kind : Kind) :
    (s.ofKind kind).zipIdx.map (fun x => ((x.2 : ℤ), x.1.data)) =
      (s.ofKind kind).map fun p => (p.index, p.data) := by
  refine List.ext_getElem? fun i => ?_
  rw [List.getElem?_map, List.getElem?_zipIdx, List.getElem?_map]
  cases found : (s.ofKind kind)[i]? with
  | none => rfl
  | some p => simp [indexed.index_eq found]

end Script.Indexed

namespace Listed

variable {s : Script} (l : Listed s) (indexed : s.Indexed)

include indexed

theorem consistent : Consistent l.procedures := by
  have nonneg : ∀ p ∈ listed s, 0 ≤ p.index := fun p hp => indexed.nonneg p (mem_listed.1 hp).1
  have names : l.procedures =
      (s.ofKind .main).map fun p => Procedure.defaultName p.kind p.index := by
    rw [procedures, Declarations.ofKind, Array.toList_filter, l.names_ofLines nonneg,
      List.filter_map, List.map_map, ← indexed.filter_listed]
    rfl
  intro i name found
  rw [names, List.getElem?_map, Option.map_eq_some_iff] at found
  obtain ⟨p, here, rfl⟩ := found
  have kind := (Script.mem_ofKind.1 (List.mem_of_getElem? here)).2
  rw [kind, indexed.index_eq here]

/-- Nothing is reported on the listing of a numbered script. -/
theorem faultless (bio2 : s.version = .bio2) : Faultless l.lines := by
  have nonneg : ∀ p ∈ listed s, 0 ≤ p.index := fun p hp => indexed.nonneg p (mem_listed.1 hp).1
  constructor
  · rw [Declarations.diagnostics_eq_empty_iff, l.names_ofLines nonneg]
    exact indexed.nodup_names
  · refine List.forall_mem_cons.2 ⟨(l.silent _).2 bio2, fun line mem => ?_⟩
    obtain ⟨part, hpart, mem⟩ := List.mem_flatMap.1 mem
    rcases List.mem_cons.1 mem with rfl | mem
    · rw [Line.encode, part.headRole]
      simp [part.headOperands]
    · obtain ⟨r, hr, mem⟩ := List.mem_flatMap.1 mem
      obtain ⟨p, hp, lists⟩ := l.mem_tagged hpart hr
      rcases List.mem_cons.1 mem with rfl | mem
      · exact (lists.head _).2 (nonneg p hp)
      · exact (lists.body (l.consistent indexed)).1 line mem

/-- The procedures of a numbered script come back. -/
theorem returns : s.Returns (scriptOf l.lines) := by
  refine Script.returns_of_ofKind indexed fun kind => ?_
  have lists := l.filter_lists kind
  rw [indexed.filter_listed] at lists
  have bytes : ((Section.tagged l.sections).filter (·.1 = kind)).map
      (fun x => x.2.bytes l.procedures) = (s.ofKind kind).map (·.data) :=
    map_eq_of_forall₂ lists fun p _ x listing => (listing.body (l.consistent indexed)).2
  have zipped := congrArg (fun data => data.zipIdx.map fun x => ((x.2 : ℤ), x.1)) bytes
  simp only [List.zipIdx_map, List.map_map, Function.comp_def, Prod.map] at zipped
  rw [l.ofKind_scriptOf, ← indexed.zipIdx_ofKind]
  exact zipped

end Listed

/-! ## Storing and assembling -/

/-- What has been stored is read again. -/
theorem Disk.read_of_write {d disk : Disk} {name : String} {data : ByteArray}
    (written : d.write name data = .ok disk) : disk.library.read name = .ok data := by
  obtain ⟨valid, -, rfl⟩ := write_eq_ok_iff.1 written
  simp only [library, read, valid, not_true_eq_false, if_false, find?_stored]

/-- A listing that has been stored is assembled from its lines. -/
theorem exists_assembled {options : Options} {s : Script} {d disk : Disk} {name : String}
    (stored : d.write name (script options s).toUTF8 = .ok disk) :
    ∃ l : Listed s, (assembleFile disk.library name []).script = scriptOf l.lines ∧
      ((assembleFile disk.library name []).diagnostics = [] ↔ Faultless l.lines) := by
  obtain ⟨l, reads⟩ := exists_listed options s
  exact ⟨l, assembleFile_of_reads (Disk.read_of_write stored) reads⟩

theorem Assembly.Outcome.result_eq_ok_iff {o : Outcome} {back : Script} :
    o.result = .ok back ↔ o.diagnostics = [] ∧ o.script = back := by
  unfold result
  cases o.diagnostics <;> simp

/-- A numbered script comes back from its listing under any name of a disk that holds it. -/
theorem exists_returns {s : Script} (bio2 : s.version = .bio2) (indexed : s.Indexed)
    (options : Options) {name : String} (isName : Disk.isName name = true)
    (fits : (script options s).utf8ByteSize ≤ Disk.quota) :
    ∃ disk back, Disk.write {} name (script options s).toUTF8 = .ok disk ∧
      (assembleFile disk.library name []).result = .ok back ∧ s.Returns back := by
  have room : ¬({} : Disk).used - Disk.sizeOf {} name + (script options s).toUTF8.size >
      Disk.quota := by
    have used : ({} : Disk).used = 0 := rfl
    have size : (script options s).toUTF8.size = (script options s).utf8ByteSize := rfl
    omega
  obtain ⟨disk, stored⟩ : ∃ disk, Disk.write {} name (script options s).toUTF8 = .ok disk := by
    unfold Disk.write
    rw [if_neg (by simpa using isName)]
    simp only [if_neg room]
    exact ⟨_, rfl⟩
  obtain ⟨l, assembled, faults⟩ := exists_assembled stored
  refine ⟨disk, scriptOf l.lines, stored, ?_, l.returns indexed⟩
  exact Outcome.result_eq_ok_iff.2 ⟨faults.2 (l.faultless indexed bio2), assembled⟩

/-! ## Checks -/

namespace RoundTrip

theorem firstDifferenceFrom_eq_none_iff {offset : ℕ} {a b : List UInt8} :
    firstDifferenceFrom offset a b = none ↔ a = b := by
  induction a generalizing offset b with
  | nil => cases b <;> simp [firstDifferenceFrom]
  | cons x a ih =>
    cases b with
    | nil => simp [firstDifferenceFrom]
    | cons y b =>
      by_cases same : x = y
      · simp [firstDifferenceFrom, same, ih]
      · simp [firstDifferenceFrom, same]

/-- A procedure is found with its bytes exactly when it does not differ. -/
theorem mismatch?_eq_none_iff {back : Script} {p : Procedure} :
    mismatch? back p = none ↔ ∃ q, back.find? p.kind p.index = some q ∧ q.data = p.data := by
  unfold mismatch?
  cases back.find? p.kind p.index with
  | none => simp
  | some q =>
    simp only [Option.map_eq_none_iff, firstDifference?, firstDifferenceFrom_eq_none_iff,
      Option.some.injEq, exists_eq_left']
    exact eq_comm

theorem source_check (s : Script) : (check s).source = script {} s := by
  unfold check
  simp only
  split
  · rfl
  · split <;> rfl

theorem check_of_ok {s back : Script} {disk : Disk}
    (stored : Disk.write {} sourceName (script {} s).toUTF8 = .ok disk)
    (assembled : (assembleFile disk.library sourceName []).result = .ok back) :
    (check s).failure = none ∧ (check s).mismatches = s.procedures.filterMap (mismatch? back) := by
  simp only [check, stored, assembled, and_self]

/-- A check without a failure has stored and assembled the listing. -/
theorem exists_of_failure_eq_none {s : Script} (passed : (check s).failure = none) :
    ∃ disk back, Disk.write {} sourceName (script {} s).toUTF8 = .ok disk ∧
      (assembleFile disk.library sourceName []).result = .ok back := by
  unfold check at passed
  simp only at passed
  split at passed
  · cases passed
  · rename_i disk stored
    split at passed
    · cases passed
    · rename_i back assembled
      exact ⟨disk, back, stored, assembled⟩

/-- The check of a numbered script passes. -/
theorem check_of_indexed {s : Script} (bio2 : s.version = .bio2) (indexed : s.Indexed)
    (fits : (script {} s).utf8ByteSize ≤ Disk.quota) :
    (check s).failure = none ∧ (check s).mismatches = [] := by
  have isName : Disk.isName sourceName = true := by decide +kernel
  obtain ⟨disk, back, stored, assembled, returns⟩ := exists_returns bio2 indexed {} isName fits
  obtain ⟨passed, mismatches⟩ := check_of_ok stored assembled
  refine ⟨passed, ?_⟩
  rw [mismatches, List.filterMap_eq_nil_iff]
  intro p hp
  obtain ⟨q, single, data⟩ := returns.once p hp
  refine mismatch?_eq_none_iff.2 ⟨q, ?_, data⟩
  rw [Script.find?, ← List.head?_filter, single]
  rfl

/-- **Listings are assembled to the bytes they show.**  A script for the second engine version whose
procedures are numbered in order comes back from its listing, whatever its bytes are and whatever
the listing shows, and the check of the script passes. -/
theorem listing_returns {s : Script} (bio2 : s.version = .bio2) (indexed : s.Indexed) :
    (∀ (options : Options) (name : String), Disk.isName name = true →
      (script options s).utf8ByteSize ≤ Disk.quota →
      ∃ disk back, Disk.write {} name (script options s).toUTF8 = .ok disk ∧
        (assembleFile disk.library name []).diagnostics = [] ∧
        (assembleFile disk.library name []).result = .ok back ∧ s.Returns back) ∧
      ((script {} s).utf8ByteSize ≤ Disk.quota →
        (check s).failure = none ∧ (check s).mismatches = []) := by
  refine ⟨fun options name isName fits => ?_, check_of_indexed bio2 indexed⟩
  obtain ⟨disk, back, stored, assembled, returns⟩ :=
    exists_returns bio2 indexed options isName fits
  exact ⟨disk, back, stored, (Outcome.result_eq_ok_iff.1 assembled).1, assembled, returns⟩

/-- A named flag, a call, an opcode that is not known, and an instruction that is cut off. -/
def sample : Script :=
  ((({ version := .bio2 } : Script).add .init "init" [0x21, 1, 27, 0]).add .main "main"
    [0x18, 1, 0xFE]).add .main "aot" [0x2C, 0, 5, 0x9F]

theorem sample_indexed : sample.Indexed :=
  (((Script.Indexed.empty .bio2).add (by decide) _ _).add (by decide) _ _).add (by decide) _ _

theorem listing_returns_sample :
    (∃ disk back, Disk.write {} "rooms/r100.s" (script ⟨true, false⟩ sample).toUTF8 = .ok disk ∧
      (assembleFile disk.library "rooms/r100.s" []).diagnostics = [] ∧
      (assembleFile disk.library "rooms/r100.s" []).result = .ok back ∧ sample.Returns back) ∧
      (check sample).failure = none ∧ (check sample).mismatches = [] :=
  ⟨(listing_returns rfl sample_indexed).1 ⟨true, false⟩ "rooms/r100.s" (by decide +kernel)
    (by decide +kernel), (listing_returns rfl sample_indexed).2 (by decide +kernel)⟩

/-! ## What a passed check means -/

section Passed

variable {s : Script} (l : Listed s)

/-- What came back is of a named kind, and its index is below the number of that kind. -/
theorem of_mem_scriptOf {q : Procedure} (mem : q ∈ (scriptOf l.lines).procedures) :
    q.kind ∈ Kind.named ∧
      q.index ∈ (List.range (s.ofKind q.kind).length).map fun i : ℕ => (i : ℤ) := by
  have index : q.index ∈ ((scriptOf l.lines).ofKind q.kind).map (·.index) :=
    List.mem_map.2 ⟨q, Script.mem_ofKind.2 ⟨mem, rfl⟩, rfl⟩
  rw [l.indices_scriptOf] at index
  have named : q.kind ∈ Kind.named := by
    obtain ⟨i, small, -⟩ := List.mem_map.1 index
    have some : (listed s).filter (·.kind = q.kind) ≠ [] := by
      intro none
      rw [none] at small
      cases small
    obtain ⟨p, hp⟩ := List.exists_mem_of_ne_nil _ some
    obtain ⟨hp, kind⟩ := List.mem_filter.1 hp
    rw [← of_decide_eq_true kind]
    exact (mem_listed.1 hp).2
  rw [filter_listed s named] at index
  exact ⟨named, index⟩

variable (faultless : Faultless l.lines)
  (found : ∀ p ∈ s.procedures, ∃ q,
    (scriptOf l.lines).find? p.kind p.index = some q ∧ q.data = p.data)

include found

theorem exists_mem_scriptOf {p : Procedure} (hp : p ∈ s.procedures) :
    ∃ q ∈ (scriptOf l.lines).procedures, q.kind = p.kind ∧ q.index = p.index ∧ q.data = p.data := by
  obtain ⟨q, here, data⟩ := found p hp
  obtain ⟨kind, index⟩ : q.kind = p.kind ∧ q.index = p.index := by simpa using List.find?_some here
  exact ⟨q, List.mem_of_find?_eq_some here, kind, index, data⟩

theorem named_of_found : ∀ p ∈ s.procedures, p.kind ∈ Kind.named := by
  intro p hp
  obtain ⟨q, hq, kind, -⟩ := exists_mem_scriptOf l found hp
  rw [← kind]
  exact (of_mem_scriptOf l hq).1

include faultless

/-- Different indices below their own number are all the indices there are. -/
theorem perm_indices (kind : Kind) :
    ((s.ofKind kind).map (·.index)).Perm
      ((List.range (s.ofKind kind).length).map fun i : ℕ => (i : ℤ)) := by
  -- Procedures with the same kind and index would have the same name, and that is reported.
  have nodup : ((s.ofKind kind).map (·.index)).Nodup := by
    obtain ⟨-, -, pairs⟩ := l.of_faultless faultless
    have filtered := pairs.sublist
      ((List.filter_sublist (p := fun p : Procedure => p.kind = kind)).map _)
    by_cases named : kind ∈ Kind.named
    · have constant : ((s.ofKind kind).map fun p => (p.kind, p.index)) =
          ((s.ofKind kind).map (·.index)).map fun i => (kind, i) := by
        rw [List.map_map]
        refine List.map_congr_left fun p hp => ?_
        rw [(Script.mem_ofKind.1 hp).2]
        rfl
      rw [filter_listed s named, constant] at filtered
      exact filtered.of_map
    · have none : s.ofKind kind = [] := by
        refine List.eq_nil_iff_forall_not_mem.2 fun p hp => named ?_
        obtain ⟨mem, same⟩ := Script.mem_ofKind.1 hp
        rw [← same]
        exact named_of_found l found p mem
      rw [none]
      exact List.nodup_nil
  have subset : (s.ofKind kind).map (·.index) ⊆
      (List.range (s.ofKind kind).length).map fun i : ℕ => (i : ℤ) := by
    intro i hi
    obtain ⟨p, hp, rfl⟩ := List.mem_map.1 hi
    obtain ⟨mem, same⟩ := Script.mem_ofKind.1 hp
    obtain ⟨q, hq, kind', index, -⟩ := exists_mem_scriptOf l found mem
    rw [← index, ← same, ← kind']
    exact (of_mem_scriptOf l hq).2
  exact (List.subperm_of_subset nodup subset).perm_of_length_le (by simp)

theorem returns_of_found : s.Returns (scriptOf l.lines) := by
  constructor
  · intro p hp
    obtain ⟨q, hq, kind, index, data⟩ := exists_mem_scriptOf l found hp
    rw [← kind, ← index]
    refine ⟨q, Script.filter_of_indices ?_ hq, data⟩
    rw [l.indices_scriptOf]
    exact Script.nodup_range_cast _
  · intro q hq
    have index := (of_mem_scriptOf l hq).2
    rw [← (perm_indices l faultless found q.kind).mem_iff] at index
    obtain ⟨p, hp, index⟩ := List.mem_map.1 index
    obtain ⟨hp, kind⟩ := Script.mem_ofKind.1 hp
    exact ⟨p, hp, kind, index⟩

end Passed

/-- **No script passes by mistake.**  Where the check of a script has no failure and finds no
difference, the script is for the second engine version, its procedures have named kinds and are
numbered without gaps in each of them, and they all come back from the listing, with nothing
else. -/
theorem returns_of_check {s : Script} (passed : (check s).failure = none)
    (ok : (check s).ok = true) :
    s.version = .bio2 ∧ (∀ p ∈ s.procedures, p.kind ∈ Kind.named) ∧
      (∀ kind, ((s.ofKind kind).map (·.index)).Perm
        ((List.range (s.ofKind kind).length).map fun i : ℕ => (i : ℤ))) ∧
      ∃ disk back, Disk.write {} sourceName (check s).source.toUTF8 = .ok disk ∧
        (assembleFile disk.library sourceName []).result = .ok back ∧ s.Returns back := by
  obtain ⟨disk, back, stored, assembled⟩ := exists_of_failure_eq_none passed
  obtain ⟨l, lines, faults⟩ := exists_assembled stored
  obtain ⟨silent, rfl⟩ := Outcome.result_eq_ok_iff.1 assembled
  have faultless := faults.1 silent
  have found : ∀ p ∈ s.procedures, ∃ q,
      (scriptOf l.lines).find? p.kind p.index = some q ∧ q.data = p.data := by
    rw [Report.ok, List.isEmpty_iff, (check_of_ok stored assembled).2,
      List.filterMap_eq_nil_iff, lines] at ok
    exact fun p hp => mismatch?_eq_none_iff.1 (ok p hp)
  refine ⟨(l.of_faultless faultless).1, named_of_found l found, perm_indices l faultless found,
    disk, _, by rw [source_check]; exact stored, assembled, ?_⟩
  rw [lines]
  exact returns_of_found l faultless found

theorem returns_of_check_sample :
    (check sample).failure = none ∧ (check sample).ok = true ∧
      ∃ disk back, Disk.write {} sourceName (check sample).source.toUTF8 = .ok disk ∧
        (assembleFile disk.library sourceName []).result = .ok back ∧ sample.Returns back := by
  obtain ⟨passed, mismatches⟩ := check_of_indexed rfl sample_indexed (by decide +kernel)
  have ok : (check sample).ok = true := by rw [Report.ok, mismatches]; rfl
  exact ⟨passed, ok, (returns_of_check passed ok).2.2.2⟩

end RoundTrip

end RoomScript
