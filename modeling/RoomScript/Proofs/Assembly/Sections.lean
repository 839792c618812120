import Mathlib.Tactic
import RoomScript.Proofs.Assembly.Reading

/-!
# Texts in sections

A text in sections switches to a kind, begins each procedure with a line of its own, and has
nothing but statements after such a line.  Both passes of the assembler see the same procedures in
it, in the order of the text.

* `Declarations.diagnostics_eq_empty_iff` says that declarations are free of reports exactly when
  no name is repeated;
* `Declarations.names_sections` and `Block.ofLines_sections` are the two passes;
* `ofKind_scriptOf_sections` gives the procedures of a kind, numbered from zero on.
-/

namespace RoomScript.Assembly

/-! ## Reports of repeated names -/

namespace Declarations

/-- Something has been reported exactly when a name has been repeated. -/
def Sound (d : Declarations) : Prop :=
  d.diagnostics = #[] ↔ d.names.toList.Nodup

theorem Sound.declare {d : Declarations} (sound : d.Sound) (name? : Option String)
    (place : Token) : (d.declare name? place).Sound := by
  unfold Sound Declarations.declare at *
  simp only
  generalize (d.kind, name?.getD (Procedure.defaultName d.kind d.count)) = entry
  rw [Array.toList_push, List.nodup_append_comm, List.singleton_append, List.nodup_cons, ← sound]
  by_cases known : d.names.contains entry = true
  · rw [if_pos known]
    have mem : entry ∈ d.names.toList := by simpa using known
    simp [mem]
  · rw [if_neg known]
    have absent : entry ∉ d.names.toList := by simpa using known
    simp [absent]

theorem Sound.line {d : Declarations} (sound : d.Sound) (l : Line) : (d.line l).Sound := by
  unfold Declarations.line
  cases l.role with
  | stray | version | switch kind => exact sound
  | procedure => exact sound.declare _ _
  | bytes | unknownDirective | instruction =>
    simp only
    split
    · exact sound
    · exact sound.declare _ _

/-- Lines that declare procedures are free of reports exactly when no name is repeated. -/
theorem diagnostics_eq_empty_iff (lines : List Line) :
    (ofLines lines).diagnostics = #[] ↔ (ofLines lines).names.toList.Nodup := by
  have run : ∀ (lines : List Line) {d : Declarations}, d.Sound → (lines.foldl line d).Sound := by
    intro lines
    induction lines with
    | nil => exact fun sound => sound
    | cons l lines ih => exact fun sound => ih (sound.line l)
  refine run lines ?_
  simp [Sound]

end Declarations

/-! ## Sections -/

/-- A line that adds bytes to a procedure. -/
def Line.IsStatement (l : Line) : Prop :=
  l.role = .bytes ∨ l.role = .instruction

/-- A procedure as it is written: the line it begins with, and its statements. -/
structure Routine where
  head : Line
  body : List Line
  headRole : head.role = .procedure
  bodyRole : ∀ l ∈ body, l.IsStatement

namespace Routine

def lines (r : Routine) : List Line :=
  r.head :: r.body

/-- The bytes of the statements. -/
def bytes (procedures : List String) (r : Routine) : List UInt8 :=
  r.body.flatMap fun l => (l.encode procedures).1

end Routine

/-- Procedures of one kind as they are written. -/
structure Section where
  head : Line
  kind : Kind
  routines : List Routine
  headRole : head.role = .switch kind
  headOperands : head.operands = []

namespace Section

def lines (s : Section) : List Line :=
  s.head :: s.routines.flatMap Routine.lines

/-- The procedures of sections with their kinds. -/
def tagged (sections : List Section) : List (Kind × Routine) :=
  sections.flatMap fun s => s.routines.map fun r => (s.kind, r)

end Section

/-! ## The first pass -/

namespace Declarations

theorem line_statement {d : Declarations} (opened : d.isOpen = true) {l : Line}
    (statement : l.IsStatement) : d.line l = d := by
  unfold line
  rcases statement with role | role <;> rw [role] <;> exact if_pos opened

theorem foldl_body {d : Declarations} (opened : d.isOpen = true) {body : List Line}
    (statements : ∀ l ∈ body, l.IsStatement) : body.foldl line d = d := by
  induction body with
  | nil => rfl
  | cons l body ih =>
    obtain ⟨first, later⟩ := List.forall_mem_cons.1 statements
    rw [List.foldl_cons, line_statement opened first, ih later]

theorem foldl_routine (d : Declarations) (r : Routine) :
    r.lines.foldl line d = d.declare r.head.procedureName? r.head.head := by
  have head : d.line r.head = d.declare r.head.procedureName? r.head.head := by
    unfold line
    rw [r.headRole]
  rw [Routine.lines, List.foldl_cons, head, foldl_body rfl r.bodyRole]

variable {name : Routine → String}

theorem foldl_routines (d : Declarations) {routines : List Routine}
    (named : ∀ r ∈ routines, r.head.procedureName? = some (name r)) :
    ((routines.flatMap Routine.lines).foldl line d).kind = d.kind ∧
      ((routines.flatMap Routine.lines).foldl line d).names.toList =
        d.names.toList ++ routines.map fun r => (d.kind, name r) := by
  induction routines generalizing d with
  | nil => simp
  | cons r routines ih =>
    obtain ⟨first, later⟩ := List.forall_mem_cons.1 named
    rw [List.flatMap_cons, List.foldl_append, foldl_routine, first]
    obtain ⟨kind, names⟩ := ih (d.declare (some (name r)) r.head.head) later
    refine ⟨kind, names.trans ?_⟩
    simp [declare]

theorem foldl_sections (d : Declarations) {sections : List Section}
    (named : ∀ s ∈ sections, ∀ r ∈ s.routines, r.head.procedureName? = some (name r)) :
    ((sections.flatMap Section.lines).foldl line d).names.toList =
      d.names.toList ++ (Section.tagged sections).map fun x => (x.1, name x.2) := by
  induction sections generalizing d with
  | nil => simp [Section.tagged]
  | cons s sections ih =>
    obtain ⟨first, later⟩ := List.forall_mem_cons.1 named
    have head : d.line s.head = { d with kind := s.kind, isOpen := false } := by
      unfold line
      rw [s.headRole]
    obtain ⟨-, names⟩ := foldl_routines { d with kind := s.kind, isOpen := false } first
    rw [List.flatMap_cons, List.foldl_append, Section.lines, List.foldl_cons, head, ih _ later,
      names]
    simp [Section.tagged, Function.comp_def]

/-- The names declared by sections, where every procedure has one. -/
theorem names_sections {version : Line} (role : version.role = .version)
    {sections : List Section}
    (named : ∀ s ∈ sections, ∀ r ∈ s.routines, r.head.procedureName? = some (name r)) :
    (ofLines (version :: sections.flatMap Section.lines)).names.toList =
      (Section.tagged sections).map fun x => (x.1, name x.2) := by
  have first : line {} version = {} := by
    unfold line
    rw [role]
  rw [ofLines, List.foldl_cons, first, foldl_sections {} named]
  rfl

end Declarations

/-! ## The second pass -/

/-- The block of a procedure as it is written. -/
def Routine.block (kind : Kind) (r : Routine) : Block :=
  ⟨kind, r.head.procedureName?, r.body⟩

namespace Blocks

theorem foldl_body {kind : Kind} {block : Block} {before : List Block} {body : List Line}
    (statements : ∀ l ∈ body, l.IsStatement) :
    body.foldl line ⟨kind, true, block :: before⟩ =
      ⟨kind, true, { block with lines := body.reverse ++ block.lines } :: before⟩ := by
  induction body generalizing block with
  | nil => rfl
  | cons l body ih =>
    obtain ⟨first, later⟩ := List.forall_mem_cons.1 statements
    have step : line ⟨kind, true, block :: before⟩ l =
        ⟨kind, true, { block with lines := l :: block.lines } :: before⟩ := by
      unfold line
      rcases first with role | role <;> rw [role] <;> rfl
    rw [List.foldl_cons, step, ih later]
    simp

/-- A block with its last line first, as it is collected. -/
def stored (b : Block) : Block :=
  { b with lines := b.lines.reverse }

theorem foldl_routine (b : Blocks) (r : Routine) :
    r.lines.foldl line b = ⟨b.kind, true, stored (r.block b.kind) :: b.collected⟩ := by
  have head : b.line r.head =
      ⟨b.kind, true, ⟨b.kind, r.head.procedureName?, []⟩ :: b.collected⟩ := by
    unfold line
    rw [r.headRole]
    rfl
  rw [Routine.lines, List.foldl_cons, head, foldl_body r.bodyRole, List.append_nil]
  rfl

theorem foldl_routines (b : Blocks) (routines : List Routine) :
    ((routines.flatMap Routine.lines).foldl line b).kind = b.kind ∧
      ((routines.flatMap Routine.lines).foldl line b).collected =
        (routines.map fun r => stored (r.block b.kind)).reverse ++ b.collected := by
  induction routines generalizing b with
  | nil => simp
  | cons r routines ih =>
    rw [List.flatMap_cons, List.foldl_append, foldl_routine]
    obtain ⟨kind, collected⟩ := ih ⟨b.kind, true, stored (r.block b.kind) :: b.collected⟩
    refine ⟨kind, collected.trans ?_⟩
    simp

theorem foldl_sections (b : Blocks) (sections : List Section) :
    ((sections.flatMap Section.lines).foldl line b).collected =
      ((Section.tagged sections).map fun x => stored (x.2.block x.1)).reverse ++ b.collected := by
  induction sections generalizing b with
  | nil => simp [Section.tagged]
  | cons s sections ih =>
    have head : b.line s.head = { b with kind := s.kind, isOpen := false } := by
      unfold line
      rw [s.headRole]
    obtain ⟨-, collected⟩ := foldl_routines { b with kind := s.kind, isOpen := false } s.routines
    rw [List.flatMap_cons, List.foldl_append, Section.lines, List.foldl_cons, head, ih, collected]
    simp [Section.tagged, Function.comp_def]

end Blocks

/-- The blocks of sections are their procedures. -/
theorem Block.ofLines_sections {version : Line} (role : version.role = .version)
    (sections : List Section) :
    ofLines (version :: sections.flatMap Section.lines) =
      (Section.tagged sections).map fun x => x.2.block x.1 := by
  have first : Blocks.line {} version = {} := by
    unfold Blocks.line
    rw [role]
  rw [ofLines, List.foldl_cons, first, Blocks.foldl_sections]
  simp [Blocks.stored, Function.comp_def]

/-! ## The script -/

theorem ofKind_addTo (procedures : List String) (b : Block) (s : Script) (kind : Kind) :
    ((b.addTo procedures s).ofKind kind).map (fun p => (p.index, p.data)) =
      (s.ofKind kind).map (fun p => (p.index, p.data)) ++
        if b.kind = kind then
          [(((s.ofKind kind).length : ℤ), b.lines.flatMap fun l => (l.encode procedures).1)]
        else [] := by
  unfold Block.addTo Script.add Script.ofKind Script.following
  by_cases same : b.kind = kind
  · subst same
    simp [Script.ofKind]
  · simp [same]

/-- Blocks become the procedures of their kind, numbered after those that are there. -/
theorem ofKind_foldl_addTo (procedures : List String) (blocks : List Block) (s : Script)
    (kind : Kind) :
    ((blocks.foldl (Block.addTo procedures) s).ofKind kind).map (fun p => (p.index, p.data)) =
      (s.ofKind kind).map (fun p => (p.index, p.data)) ++
        ((blocks.filter (·.kind = kind)).zipIdx (s.ofKind kind).length).map fun x =>
          ((x.2 : ℤ), x.1.lines.flatMap fun l => (l.encode procedures).1) := by
  induction blocks generalizing s with
  | nil => simp
  | cons b blocks ih =>
    have added := ofKind_addTo procedures b s kind
    have length := congrArg List.length added
    rw [List.foldl_cons, ih, added]
    by_cases same : b.kind = kind
    · simp only [same, if_true, List.length_map, List.length_append, List.length_singleton]
        at length
      simp [same, length]
    · simp only [same, if_false, List.length_map, List.append_nil] at length
      simp [same, length]

/-- The script of sections has the procedures of a kind numbered from zero on. -/
theorem ofKind_scriptOf_sections {version : Line} (role : version.role = .version)
    (sections : List Section) (kind : Kind) :
    ((scriptOf (version :: sections.flatMap Section.lines)).ofKind kind).map
        (fun p => (p.index, p.data)) =
      (((Section.tagged sections).filter (·.1 = kind)).zipIdx.map fun x =>
        ((x.2 : ℤ), x.1.2.bytes
          ((Declarations.ofLines (version :: sections.flatMap Section.lines)).ofKind .main))) := by
  have filtered : ((Section.tagged sections).map fun x => x.2.block x.1).filter (·.kind = kind) =
      ((Section.tagged sections).filter (·.1 = kind)).map fun x => x.2.block x.1 := by
    rw [List.filter_map]
    rfl
  rw [scriptOf, ofKind_foldl_addTo, Block.ofLines_sections role, filtered, List.zipIdx_map]
  simp [Script.ofKind, Function.comp_def, Routine.block, Routine.bytes]

end RoomScript.Assembly
