import RoomScript.Proofs.RoundTrip

/-!
# The two passes of the assembler

The first pass counts the procedures of each kind to give them their indices, the second collects
their statements and numbers what it has collected.  Both open the same procedures at the same
lines, whatever the lines are, so an index given by the first pass is the index of that procedure
in the script.

* `InStep` relates the passes after the same lines, and `InStep.line` is one more line;
* `keys_scriptOf` says that the procedures of the script are the declared ones, in their order;
* `indexed_scriptOf` says that they are numbered from zero on within each kind;
* `passes_agree` puts these together.
-/

namespace RoomScript

/-! ## Repetitions -/

section Repeats

variable {α β : Type} [DecidableEq β]

/-- The elements of a list whose key is the key of an earlier one. -/
def repeats (key : α → β) (xs : List α) : List α :=
  (xs.zipIdx.filter fun x => key x.1 ∈ (xs.take x.2).map key).map (·.1)

theorem repeats_append_singleton (key : α → β) (xs : List α) (x : α) :
    repeats key (xs ++ [x]) = repeats key xs ++ if key x ∈ xs.map key then [x] else [] := by
  have earlier : xs.zipIdx.filter (fun y => decide (key y.1 ∈ ((xs ++ [x]).take y.2).map key)) =
      xs.zipIdx.filter fun y => decide (key y.1 ∈ (xs.take y.2).map key) := by
    refine List.filter_congr fun y hy => ?_
    have bound : y.2 ≤ xs.length := by
      obtain ⟨-, small, -⟩ := List.mem_zipIdx hy
      omega
    rw [List.take_append_of_le_length bound]
  unfold repeats
  rw [List.zipIdx_append, List.filter_append, List.map_append, earlier]
  simp only [List.zipIdx_singleton, Nat.zero_add]
  split
  · rename_i known
    rw [List.filter_cons_of_pos (by simpa using known)]
    rfl
  · rename_i fresh
    rw [List.filter_cons_of_neg (by simpa using fresh)]
    rfl

/-- The keys of the repetitions are the repetitions among the keys. -/
theorem map_repeats (key : α → β) (xs : List α) :
    (repeats key xs).map key = repeats id (xs.map key) := by
  induction xs using List.reverseRecOn with
  | nil => rfl
  | append_singleton xs x ih =>
    rw [repeats_append_singleton, List.map_append, ih, List.map_append, List.map_singleton,
      repeats_append_singleton, List.map_id, id]
    split <;> rfl

end Repeats

/-- What a procedure is known by. -/
def Procedure.key (p : Procedure) : Kind × String :=
  (p.kind, p.name)

/-- The procedures that repeat the name of an earlier one of their kind. -/
def Script.repeated (s : Script) : List Procedure :=
  repeats Procedure.key s.procedures

namespace Assembly

/-! ## Names -/

/-- The kind and name of a procedure that comes after others.  Without a name of its own it is
called by its position among those of its kind. -/
def keyAfter (before : List (Kind × String)) (kind : Kind) (name? : Option String) :
    Kind × String :=
  (kind, name?.getD (Procedure.defaultName kind (before.countP (·.1 == kind))))

/-- The kinds and names of blocks in their order. -/
def Block.keys (blocks : List Block) : List (Kind × String) :=
  blocks.foldl (fun before b => before ++ [keyAfter before b.kind b.name?]) []

@[simp] theorem Block.keys_append_singleton (blocks : List Block) (b : Block) :
    keys (blocks ++ [b]) = keys blocks ++ [keyAfter (keys blocks) b.kind b.name?] := by
  simp [keys, List.foldl_append]

/-- The statements of a block have no part in its name. -/
theorem Block.keys_map {f : Block → Block} (kind : ∀ b, (f b).kind = b.kind)
    (name : ∀ b, (f b).name? = b.name?) (blocks : List Block) :
    keys (blocks.map f) = keys blocks := by
  simp only [keys, List.foldl_map, kind, name]

theorem Declarations.names_declare (d : Declarations) (name? : Option String) (place : Token) :
    (d.declare name? place).names.toList =
      d.names.toList ++ [keyAfter d.names.toList d.kind name?] := by
  simp [declare, keyAfter, count, ← Array.countP_toList]

theorem Block.keys_addTo (procedures : List String) (s : Script) (b : Block) :
    (b.addTo procedures s).procedures.map Procedure.key =
      s.procedures.map Procedure.key ++
        [keyAfter (s.procedures.map Procedure.key) b.kind b.name?] := by
  have count : (s.procedures.map Procedure.key).countP (·.1 == b.kind) =
      (s.ofKind b.kind).length := by
    rw [List.countP_map, List.countP_eq_length_filter]
    rfl
  simp [addTo, Script.add, Script.following, keyAfter, count, Procedure.key]

/-- The procedures that blocks are added as have the kinds and names of the blocks. -/
theorem Block.keys_foldl_addTo (procedures : List String) (blocks : List Block) :
    (blocks.foldl (addTo procedures) { version := .bio2 }).procedures.map Procedure.key =
      keys blocks := by
  refine (List.foldl_hom (fun s : Script => s.procedures.map Procedure.key) ?_).symm
  intro s b
  exact (keys_addTo procedures s b).symm

/-! ## Both passes over the same lines -/

/-- The passes after the same lines: they are in the same section, either both or none of them has
a procedure open, and they have seen the same procedures. -/
structure InStep (d : Declarations) (b : Blocks) : Prop where
  kind : d.kind = b.kind
  isOpen : d.isOpen = b.isOpen
  names : d.names.toList = Block.keys b.collected.reverse

namespace InStep

variable {d : Declarations} {b : Blocks}

theorem start (inStep : InStep d b) (name? : Option String) (place : Token) :
    InStep (d.declare name? place) (b.start name?) where
  kind := inStep.kind
  isOpen := rfl
  names := by
    rw [Declarations.names_declare, inStep.names, inStep.kind]
    simp [Blocks.start]

/-- A statement changes nothing but the lines of the last procedure. -/
theorem addStatement (inStep : InStep d b) (l : Line) : InStep d (b.addStatement l) := by
  unfold Blocks.addStatement
  split
  · exact inStep
  · rename_i block before collected
    refine ⟨inStep.kind, inStep.isOpen, ?_⟩
    rw [inStep.names, collected, List.reverse_cons, List.reverse_cons]
    simp

theorem line (inStep : InStep d b) (l : Line) : InStep (d.line l) (b.line l) := by
  unfold Declarations.line Blocks.line
  cases l.role with
  | stray | version => exact inStep
  | switch kind => exact ⟨rfl, rfl, inStep.names⟩
  | procedure => exact inStep.start _ _
  | bytes | unknownDirective | instruction =>
    simp only [inStep.isOpen]
    split
    · exact inStep.addStatement l
    · exact (inStep.start none l.head).addStatement l

theorem ofLines (lines : List Line) :
    InStep (Declarations.ofLines lines) (lines.foldl Blocks.line {}) := by
  have run : ∀ (lines : List Line) {d : Declarations} {b : Blocks}, InStep d b →
      InStep (lines.foldl Declarations.line d) (lines.foldl Blocks.line b) := by
    intro lines
    induction lines with
    | nil => exact fun inStep => inStep
    | cons l lines ih => exact fun inStep => ih (inStep.line l)
  exact run lines ⟨rfl, rfl, rfl⟩

end InStep

/-- The procedures of the script are those that were declared, in their order. -/
theorem keys_scriptOf (lines : List Line) :
    (scriptOf lines).procedures.map Procedure.key = (Declarations.ofLines lines).names.toList := by
  rw [scriptOf, Block.keys_foldl_addTo, (InStep.ofLines lines).names, Block.ofLines,
    ← List.map_reverse]
  exact Block.keys_map (f := Blocks.stored) (fun _ => rfl) (fun _ => rfl) _

/-! ## Indices -/

theorem Line.mem_named_of_role {l : Line} {kind : Kind} (role : l.role = .switch kind) :
    kind ∈ Kind.named := by
  unfold Line.role at role
  split at role
  case h_8 => split at role <;> cases role
  all_goals cases role <;> decide

/-- All procedures that have been collected, and the next one, are of named kinds. -/
structure Blocks.Named (b : Blocks) : Prop where
  next : b.kind ∈ Kind.named
  collected : ∀ block ∈ b.collected, block.kind ∈ Kind.named

namespace Blocks.Named

variable {b : Blocks}

theorem start (named : b.Named) (name? : Option String) : (b.start name?).Named :=
  ⟨named.next, List.forall_mem_cons.2 ⟨named.next, named.collected⟩⟩

theorem addStatement (named : b.Named) (l : Line) : (b.addStatement l).Named := by
  unfold Blocks.addStatement
  split
  · exact named
  · rename_i block before collected
    have kinds := named.collected
    rw [collected] at kinds
    exact ⟨named.next, List.forall_mem_cons.2 (List.forall_mem_cons.1 kinds)⟩

theorem line (named : b.Named) (l : Line) : (b.line l).Named := by
  unfold Blocks.line
  cases role : l.role with
  | stray | version => exact named
  | switch kind => exact ⟨l.mem_named_of_role role, named.collected⟩
  | procedure => exact named.start _
  | bytes | unknownDirective | instruction =>
    simp only
    split
    · exact named.addStatement l
    · exact (named.start none).addStatement l

end Blocks.Named

/-- Every procedure belongs to a section of a named kind. -/
theorem Block.mem_named_of_mem_ofLines {lines : List Line} {block : Block}
    (mem : block ∈ ofLines lines) : block.kind ∈ Kind.named := by
  have run : ∀ (lines : List Line) {b : Blocks}, b.Named → (lines.foldl Blocks.line b).Named := by
    intro lines
    induction lines with
    | nil => exact fun named => named
    | cons l lines ih => exact fun named => ih (named.line l)
  have named := (run lines (b := {}) ⟨by decide, by simp⟩).collected
  rw [ofLines, List.mem_reverse] at mem
  obtain ⟨stored, here, rfl⟩ := List.mem_map.1 mem
  exact named stored here

/-- An assembled script is numbered from zero on within each kind. -/
theorem indexed_scriptOf (lines : List Line) : (scriptOf lines).Indexed := by
  have run : ∀ (procedures : List String) (blocks : List Block) {s : Script}, s.Indexed →
      (∀ b ∈ blocks, b.kind ∈ Kind.named) → (blocks.foldl (Block.addTo procedures) s).Indexed := by
    intro procedures blocks
    induction blocks with
    | nil => exact fun indexed _ => indexed
    | cons b blocks ih =>
      intro s indexed named
      obtain ⟨first, later⟩ := List.forall_mem_cons.1 named
      exact ih (indexed.add first _ _) later
  exact run _ _ (Script.Indexed.empty .bio2) fun b hb => Block.mem_named_of_mem_ofLines hb

/-- What is assembled without diagnostics is numbered and has a version with a name. -/
theorem indexed_of_result {tokens : List Token} {before : List Diagnostic} {remarks : List String}
    {s : Script} (made : (assemble tokens before remarks).result = .ok s) :
    s.Indexed ∧ s.version = .bio2 := by
  have keeps : ∀ (blocks : List Block) (procedures : List String) (s : Script),
      (blocks.foldl (Block.addTo procedures) s).version = s.version := by
    intro blocks procedures
    induction blocks with
    | nil => exact fun s => rfl
    | cons b blocks ih => exact fun s => ih (b.addTo procedures s)
  unfold Outcome.result at made
  split at made
  · cases made
    exact ⟨indexed_scriptOf (Line.ofText tokens), keeps _ _ _⟩
  · cases made

/-- The declared names of a kind are the names of its procedures. -/
theorem ofKind_ofLines (lines : List Line) (kind : Kind) :
    (Declarations.ofLines lines).ofKind kind = ((scriptOf lines).ofKind kind).map (·.name) := by
  rw [Declarations.ofKind, Array.toList_filter, ← keys_scriptOf, List.filter_map, List.map_map]
  rfl

end Assembly

/-- In a numbered script the position of a name among those of its kind is the least index that a
procedure of that kind and name has. -/
theorem Script.Indexed.idxOf?_eq_some_iff {s : Script} (indexed : s.Indexed) {kind : Kind}
    {name : String} {i : ℕ} :
    ((s.ofKind kind).map (·.name)).idxOf? name = some i ↔
      IsLeast {j | ∃ p ∈ s.procedures, p.kind = kind ∧ p.name = name ∧ p.index = j} (i : ℤ) := by
  -- The procedure with an index stands at that position.
  have position : ∀ {p : Procedure} {j : ℕ}, p ∈ s.procedures → p.kind = kind → p.index = j →
      (s.ofKind kind)[j]? = some p := by
    intro p j hp hk index
    obtain ⟨n, here⟩ := List.mem_iff_getElem?.1 (mem_ofKind.2 ⟨hp, hk⟩)
    have same := indexed.index_eq here
    have : n = j := by omega
    exact this ▸ here
  rw [List.idxOf?_eq_some_iff]
  simp only [List.length_map, List.getElem_map]
  constructor
  · rintro ⟨bound, called, first⟩
    have here : (s.ofKind kind)[i]? = some (s.ofKind kind)[i] := List.getElem?_eq_getElem bound
    obtain ⟨mem, same⟩ := mem_ofKind.1 (List.mem_of_getElem? here)
    refine ⟨⟨_, mem, same, called, indexed.index_eq here⟩, ?_⟩
    rintro j ⟨p, hp, hk, hn, rfl⟩
    by_contra less
    have nonneg := indexed.nonneg p hp
    have small : p.index.toNat < i := by omega
    have there := position hp hk (Int.toNat_of_nonneg nonneg).symm
    refine first p.index.toNat small ?_
    rw [(List.getElem?_eq_some_iff.1 there).2, hn]
  · rintro ⟨⟨p, hp, hk, hn, index⟩, least⟩
    obtain ⟨bound, here⟩ := List.getElem?_eq_some_iff.1 (position hp hk index)
    refine ⟨bound, by rw [here, hn], fun j small called => ?_⟩
    have inside : j < (s.ofKind kind).length := by omega
    have there : (s.ofKind kind)[j]? = some (s.ofKind kind)[j] := List.getElem?_eq_getElem inside
    obtain ⟨mem, same⟩ := mem_ofKind.1 (List.mem_of_getElem? there)
    have := least ⟨_, mem, same, called, indexed.index_eq there⟩
    omega

namespace Assembly

/-! ## Reports -/

namespace Declarations

/-- What has been reported is that some names were repeated. -/
def Reported (d : Declarations) : Prop :=
  d.diagnostics.toList.map (·.cause) =
    (repeats id d.names.toList).map fun key => .duplicateProcedure key.2

theorem Reported.declare {d : Declarations} (reported : d.Reported) (name? : Option String)
    (place : Token) : (d.declare name? place).Reported := by
  unfold Reported at *
  rw [names_declare, repeats_append_singleton, List.map_append, ← reported, List.map_id]
  have entry : (d.kind, name?.getD (Procedure.defaultName d.kind d.count)) =
      keyAfter d.names.toList d.kind name? := by
    simp [keyAfter, count, ← Array.countP_toList]
  simp only [Declarations.declare, entry]
  by_cases known : keyAfter d.names.toList d.kind name? ∈ d.names.toList
  · have contained : d.names.contains (keyAfter d.names.toList d.kind name?) = true := by
      simpa using known
    rw [if_pos contained, id, if_pos known, Array.toList_push, List.map_append]
    simp [Token.diagnostic, ← entry]
  · have absent : ¬d.names.contains (keyAfter d.names.toList d.kind name?) = true := by
      simpa using known
    rw [if_neg absent, id, if_neg known]
    simp

theorem Reported.line {d : Declarations} (reported : d.Reported) (l : Line) :
    (d.line l).Reported := by
  unfold Declarations.line
  cases l.role with
  | stray | version | switch kind => exact reported
  | procedure => exact reported.declare _ _
  | bytes | unknownDirective | instruction =>
    simp only
    split
    · exact reported
    · exact reported.declare _ _

theorem reported_ofLines (lines : List Line) : (ofLines lines).Reported := by
  have run : ∀ (lines : List Line) {d : Declarations}, d.Reported →
      (lines.foldl line d).Reported := by
    intro lines
    induction lines with
    | nil => exact fun reported => reported
    | cons l lines ih => exact fun reported => ih (reported.line l)
  exact run lines rfl

end Declarations

/-- **The passes agree on every text.**  The first pass knows a name exactly when the script has a
procedure of that kind and name, by the least index of such a procedure; and what the first pass
reports are the procedures of the script that repeat the name of an earlier one of their kind, each
of them once. -/
theorem passes_agree (tokens : List Token) :
    let declarations := Declarations.ofLines (Line.ofText tokens)
    let script := (assemble tokens).script
    (∀ (kind : Kind) (name : String) (i : ℕ), declarations.index? kind name = some i ↔
      IsLeast {j | ∃ p ∈ script.procedures, p.kind = kind ∧ p.name = name ∧ p.index = j}
        (i : ℤ)) ∧
    declarations.diagnostics.toList.map (·.cause) =
      script.repeated.map fun p => .duplicateProcedure p.name := by
  intro declarations script
  have made : script = scriptOf (Line.ofText tokens) := rfl
  constructor
  · intro kind name i
    rw [Declarations.index?, ofKind_ofLines, made]
    exact (indexed_scriptOf _).idxOf?_eq_some_iff
  · have reported := Declarations.reported_ofLines (Line.ofText tokens)
    rw [Declarations.Reported, ← keys_scriptOf, ← map_repeats, List.map_map] at reported
    exact reported

end Assembly

end RoomScript
