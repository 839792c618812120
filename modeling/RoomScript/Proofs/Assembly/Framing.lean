import RoomScript.Proofs.Assembly.Symbols

/-!
# Instructions as they are encoded

A statement that is encoded without a report becomes a block of bytes: the opcode of its mnemonic,
and one slot behind the other for its operands.

* `Block.flatMap_lines_ofLines` says that the statements of the procedures are those of the text, in
  their order;
* `Framed` relates a statement to its bytes, and `framed_of_encode` says that an instruction without
  a report is related to what it is encoded to;
* `forall₂_blockwise` says so for all procedures of an assembled text.
-/

namespace RoomScript.Assembly

/-! ## The statements of a text -/

/-- A line that adds to a procedure. -/
def Line.isStatement (l : Line) : Bool :=
  match l.role with
  | .bytes | .unknownDirective | .instruction => true
  | .stray | .switch _ | .version | .procedure => false

namespace Blocks

/-- The statements collected so far, in their order. -/
def statements (b : Blocks) : List Line :=
  b.collected.reverse.flatMap (·.lines.reverse)

/-- An open procedure is one that has been collected. -/
def Opened (b : Blocks) : Prop :=
  b.isOpen = true → b.collected ≠ []

theorem statements_addStatement {b : Blocks} (some : b.collected ≠ []) (l : Line) :
    (b.addStatement l).statements = b.statements ++ [l] := by
  obtain ⟨block, before, collected⟩ := List.exists_cons_of_ne_nil some
  simp [addStatement, statements, collected]

theorem opened_addStatement {b : Blocks} (some : b.collected ≠ []) (l : Line) :
    (b.addStatement l).Opened := by
  obtain ⟨block, before, collected⟩ := List.exists_cons_of_ne_nil some
  intro _
  simp [addStatement, collected]

/-- A line is put behind the statements before it, if it is one. -/
theorem statements_line {b : Blocks} (opened : b.Opened) (l : Line) :
    (b.line l).statements = b.statements ++ (if l.isStatement then [l] else []) ∧
      (b.line l).Opened := by
  have begun : (b.start none).collected ≠ [] := by simp [start]
  have same : (b.start none).statements = b.statements := by simp [start, statements]
  unfold line Line.isStatement
  cases l.role with
  | stray | version => exact ⟨by simp, opened⟩
  | switch kind => exact ⟨by simp [statements], by simp [Opened]⟩
  | procedure => exact ⟨by simp [start, statements], by simp [Opened, start]⟩
  | bytes | unknownDirective | instruction =>
    dsimp only
    split
    · rename_i isOpen
      exact ⟨statements_addStatement (opened isOpen) l, opened_addStatement (opened isOpen) l⟩
    · rw [statements_addStatement begun, same]
      exact ⟨rfl, opened_addStatement begun l⟩

theorem statements_foldl (lines : List Line) {b : Blocks} (opened : b.Opened) :
    (lines.foldl line b).statements = b.statements ++ lines.filter Line.isStatement := by
  induction lines generalizing b with
  | nil => simp
  | cons l lines ih =>
    obtain ⟨more, opened⟩ := statements_line opened l
    rw [List.foldl_cons, ih opened, more, List.append_assoc, List.filter_cons]
    split <;> rfl

end Blocks

/-- The procedures of a text have its statements, in their order. -/
theorem Block.flatMap_lines_ofLines (lines : List Line) :
    (Block.ofLines lines).flatMap (·.lines) = lines.filter Line.isStatement := by
  have all := Blocks.statements_foldl lines (b := {}) (by simp [Blocks.Opened])
  rw [← List.nil_append (lines.filter Line.isStatement)]
  refine Eq.trans ?_ all
  rw [Block.ofLines, Blocks.statements, ← List.map_reverse, List.flatMap_map]

theorem Block.mem_of_mem_ofLines {lines : List Line} {b : Block} (mem : b ∈ Block.ofLines lines)
    {l : Line} (here : l ∈ b.lines) : l ∈ lines ∧ l.isStatement = true := by
  have all : l ∈ (Block.ofLines lines).flatMap (·.lines) := List.mem_flatMap.2 ⟨b, mem, here⟩
  rw [Block.flatMap_lines_ofLines] at all
  exact List.mem_filter.1 all

/-! ## One instruction -/

/-- The slots of an opcode's operands. -/
def slots (opcode : UInt8) : List Operand :=
  (Opcode.signature opcode).layout (Opcode.size opcode)

/-- A statement and its bytes: the opcode of the mnemonic, as many bytes as the opcode takes, in the
slot of each operand its value as far as the slot is wide, and zero in the slots of padding that is
left out. -/
def Framed (procedures : List String) (l : Line) (bytes : List UInt8) : Prop :=
  ∃ opcode block, bytes = opcode :: block ∧ Opcode.find? l.mnemonic = some opcode ∧
    bytes.length = Opcode.size opcode ∧
    (l.operands.length = (slots opcode).length ∨
      l.operands.length = (Opcode.signature opcode).kinds.length) ∧
    ∀ (i : ℕ) (o : Operand), (slots opcode)[i]? = some o →
      match l.operands[i]? with
      | some tokens => ∃ v, operandValue procedures l.head o tokens = .ok v ∧
        o.decode (o.slice block) ≡ v [ZMOD 2 ^ (8 * o.width)]
      | none => o = Operand.padding o.offset ∧ o.slice block = [0]

/-- Operands on which nothing is reported have values, and are encoded to them. -/
theorem exists_values {procedures : List String} {head : Token}
    {operands : List (Operand × List Token)}
    (silent : (Line.encodeOperands procedures head operands).2 = []) :
    ∃ values : List ℤ, values.length = operands.length ∧
      (∀ (i : ℕ) p v, operands[i]? = some p → values[i]? = some v →
        operandValue procedures head p.1 p.2 = .ok v) ∧
      (Line.encodeOperands procedures head operands).1 =
        (List.zipWith (fun p v => p.1.encode v) operands values).flatten := by
  induction operands with
  | nil => exact ⟨[], rfl, by simp, rfl⟩
  | cons p operands ih =>
    simp only [Line.encodeOperands] at silent ⊢
    cases value : operandValue procedures head p.1 p.2 with
    | error d => simp [value] at silent
    | ok v =>
      simp only [value] at silent
      obtain ⟨values, count, evaluated, encoded⟩ := ih silent
      refine ⟨v :: values, congrArg (· + 1) count, fun i p' v' operand given => ?_,
        by simp [encoded]⟩
      cases i with
      | zero =>
        cases operand
        cases given
        exact value
      | succ i => exact evaluated i p' v' operand given

/-- The slots behind the named operands are padding. -/
theorem eq_padding_of_le {opcode : UInt8} {i : ℕ} {o : Operand}
    (here : (slots opcode)[i]? = some o)
    (behind : (Opcode.signature opcode).kinds.length ≤ i) : o = Operand.padding o.offset := by
  rw [slots, Signature.layout,
    List.getElem?_append_right (by rwa [Signature.length_layoutFrom])] at here
  obtain ⟨j, -, rfl⟩ := List.mem_map.1 (List.mem_of_getElem? here)
  rfl

theorem length_kinds_le (opcode : UInt8) :
    (Opcode.signature opcode).kinds.length ≤ (slots opcode).length := by
  rw [slots, Signature.layout, List.length_append, Signature.length_layoutFrom]
  exact Nat.le_add_right _ _

/-- The values of the operands that are given, and zero for the others, make up the operand
block. -/
theorem flatten_encode {layout : List Operand} {operands : List (List Token)} {values : List ℤ}
    (count : values.length = operands.length) (few : operands.length ≤ layout.length) :
    (List.zipWith (fun p v => p.1.encode v) (layout.zip operands) values).flatten ++
        (layout.drop operands.length).flatMap (·.encode 0) =
      (List.zipWith Operand.encode layout
        (values ++ List.replicate (layout.length - operands.length) 0)).flatten := by
  have given : List.zipWith (fun p v => p.1.encode v) (layout.zip operands) values =
      List.zipWith Operand.encode (layout.take operands.length) values := by
    refine List.ext_getElem (by simp; omega) fun i _ _ => ?_
    simp
  have omitted : (layout.drop operands.length).map (·.encode 0) =
      List.zipWith Operand.encode (layout.drop operands.length)
        (List.replicate (layout.length - operands.length) 0) := by
    refine List.ext_getElem (by simp) fun i _ _ => ?_
    simp
  have split : List.zipWith Operand.encode layout
      (values ++ List.replicate (layout.length - operands.length) 0) =
        List.zipWith Operand.encode (layout.take operands.length) values ++
          List.zipWith Operand.encode (layout.drop operands.length)
            (List.replicate (layout.length - operands.length) 0) := by
    rw [← List.zipWith_append (by simp; omega), List.take_append_drop]
  rw [given, split, List.flatten_append, List.flatMap_def, omitted]

/-- What an instruction on which nothing is reported is encoded to. -/
theorem exists_of_encodeInstruction {procedures : List String} {l : Line}
    (silent : (l.encodeInstruction procedures).2 = []) :
    ∃ opcode, Opcode.find? l.mnemonic = some opcode ∧
      (l.operands.length = (slots opcode).length ∨
        l.operands.length = (Opcode.signature opcode).kinds.length) ∧
      (Line.encodeOperands procedures l.head ((slots opcode).zip l.operands)).2 = [] ∧
      (l.encodeInstruction procedures).1 = opcode ::
        ((Line.encodeOperands procedures l.head ((slots opcode).zip l.operands)).1 ++
          ((slots opcode).drop l.operands.length).flatMap (·.encode 0)) := by
  unfold Line.encodeInstruction at silent ⊢
  cases found : Opcode.find? l.mnemonic with
  | none => simp [found] at silent
  | some opcode =>
    have layout : (Opcode.signature opcode).layout (Opcode.size opcode) = slots opcode := rfl
    simp only [found, layout] at silent ⊢
    refine ⟨opcode, rfl, ?_⟩
    generalize Line.encodeOperands procedures l.head ((slots opcode).zip l.operands) = result at *
    by_cases fits : l.operands.length ≠ (slots opcode).length ∧
        l.operands.length ≠ (Opcode.signature opcode).kinds.length
    · rw [if_pos fits] at silent
      cases silent
    · rw [if_neg fits] at silent ⊢
      by_cases quiet : result.2.isEmpty = true
      · rw [if_pos quiet]
        refine ⟨?_, List.isEmpty_iff.1 quiet, rfl⟩
        by_contra neither
        exact fits (not_or.1 neither)
      · rw [if_neg quiet] at silent
        exact absurd (List.isEmpty_iff.2 silent) quiet

/-- An instruction on which nothing is reported is encoded to a block of its own. -/
theorem framed_of_encode {procedures : List String} {l : Line} (role : l.role = .instruction)
    (silent : (l.encode procedures).2 = []) : Framed procedures l (l.encode procedures).1 := by
  have instruction : l.encode procedures = l.encodeInstruction procedures := by
    rw [Line.encode, role]
  rw [instruction] at silent ⊢
  obtain ⟨opcode, found, count, quiet, encoded⟩ := exists_of_encodeInstruction silent
  rw [encoded]
  obtain ⟨used, -⟩ := Opcode.find?_eq_some_iff.1 found
  have size : Opcode.size opcode - 1 + 1 = Opcode.size opcode :=
    Nat.sub_add_cancel (Opcode.size_pos used)
  have few : l.operands.length ≤ (slots opcode).length := by
    have := length_kinds_le opcode
    omega
  obtain ⟨values, number, evaluated, bytes⟩ := exists_values quiet
  rw [List.length_zip, Nat.min_eq_right few] at number
  rw [bytes, flatten_encode number few]
  have layout : (Opcode.signature opcode).layout (Opcode.size opcode - 1 + 1) = slots opcode := by
    rw [size, slots]
  -- Each slot has the bytes of its own value.
  generalize whole : values ++ List.replicate ((slots opcode).length - l.operands.length) 0 = all
  have every : all.length = (slots opcode).length := by
    rw [← whole, List.length_append, List.length_replicate]
    omega
  generalize made : (List.zipWith Operand.encode (slots opcode) all).flatten = block
  rw [← layout] at every made
  obtain ⟨length, slices⟩ := Signature.slice_of_encode (Opcode.width_le opcode) every made
  rw [layout] at every slices
  refine ⟨opcode, block, rfl, found, ?_, count, fun i o here => ?_⟩
  · rw [List.length_cons, length, size]
  · have small : i < (slots opcode).length := (List.getElem?_eq_some_iff.1 here).1
    obtain ⟨v, value⟩ : ∃ v, all[i]? = some v := ⟨_, List.getElem?_eq_getElem (every.symm ▸ small)⟩
    have slice : o.slice block = o.encode v := by
      have same := congrArg (·[i]?) slices
      simp only [List.getElem?_map, List.getElem?_zipWith, here, value] at same
      exact Option.some.inj same
    rw [← whole] at value
    rw [slice]
    cases given : l.operands[i]? with
    | some tokens =>
      have present : i < l.operands.length := (List.getElem?_eq_some_iff.1 given).1
      rw [List.getElem?_append_left (by omega)] at value
      refine ⟨v, evaluated i (o, tokens) v (List.getElem?_zip_eq_some.2 ⟨here, given⟩) value, ?_⟩
      have mem : o ∈ (Opcode.signature opcode).layout (Opcode.size opcode - 1 + 1) := by
        rw [layout]
        exact List.mem_of_getElem? here
      exact Operand.decode_encode (Signature.mem_layout (Opcode.width_le opcode) mem).width v
    | none =>
      have omitted : l.operands.length ≤ i := List.getElem?_eq_none_iff.1 given
      rw [List.getElem?_append_right (by omega)] at value
      have zero : v = 0 := List.eq_of_mem_replicate (List.mem_of_getElem? value)
      have padding : o = Operand.padding o.offset := eq_padding_of_le here (by omega)
      refine ⟨padding, ?_⟩
      rw [zero, padding]
      rfl

/-! ## All procedures -/

/-- Nothing was reported on any line of a text that assembles without diagnostics. -/
theorem silent_of_assemble {tokens : List Token} {before : List Diagnostic} {remarks : List String}
    (silent : (assemble tokens before remarks).diagnostics = []) :
    ∀ l ∈ Line.ofText tokens, (l.encode
      ((Declarations.ofLines (Line.ofText tokens)).ofKind .main)).2 = [] := by
  simp only [assemble, List.append_eq_nil_iff, List.flatMap_eq_nil_iff] at silent
  exact silent.2

theorem Line.mnemonic_of_bytes {l : Line} (role : l.role = .bytes) : l.mnemonic = ".db" := by
  unfold Line.role at role
  split at role
  case h_7 bytes => exact bytes
  case h_8 => split at role <;> cases role
  all_goals cases role

/-- A statement on which nothing is reported is an instruction, or bytes as they are. -/
theorem Line.role_of_isStatement {procedures : List String} {l : Line}
    (statement : l.isStatement = true) (silent : (l.encode procedures).2 = [])
    (noBytes : l.mnemonic ≠ ".db") : l.role = .instruction := by
  unfold Line.isStatement at statement
  cases role : l.role with
  | instruction => rfl
  | bytes => exact absurd (Line.mnemonic_of_bytes role) noBytes
  | unknownDirective => simp [Line.encode, role] at silent
  | stray | switch | version | procedure => simp [role] at statement

/-- The bytes of a procedure are made of one block for each statement, in their order. -/
def Blockwise (procedures : List String) (p : Procedure) (b : Block) : Prop :=
  ∃ blocks : List (List UInt8), p.data = blocks.flatten ∧
    List.Forall₂ (Framed procedures) b.lines blocks

/-- The procedures of a text that assembles without diagnostics are made of the blocks of their
statements, where these are all instructions. -/
theorem forall₂_blockwise {tokens : List Token} {before : List Diagnostic} {remarks : List String}
    (silent : (assemble tokens before remarks).diagnostics = []) :
    let procedures := (Declarations.ofLines (Line.ofText tokens)).ofKind .main
    List.Forall₂ (fun (p : Procedure) (b : Block) => p.kind = b.kind ∧
        ((∀ l ∈ b.lines, l.mnemonic ≠ ".db") → Blockwise procedures p b))
      (assemble tokens before remarks).script.procedures (Block.ofLines (Line.ofText tokens)) := by
  intro procedures
  have quiet := silent_of_assemble silent
  have data := data_foldl_addTo procedures (Block.ofLines (Line.ofText tokens)) { version := .bio2 }
  have script : (assemble tokens before remarks).script =
      (Block.ofLines (Line.ofText tokens)).foldl (Block.addTo procedures) { version := .bio2 } := rfl
  rw [← script, List.map_nil, List.nil_append, ← List.forall₂_eq_eq_eq,
    List.forall₂_map_left_iff, List.forall₂_map_right_iff, List.forall₂_iff_zip] at data
  obtain ⟨count, same⟩ := data
  refine List.forall₂_iff_zip.2 ⟨count, fun {p b} mem => ?_⟩
  obtain ⟨kind, bytes⟩ := Prod.mk.inj (same mem)
  refine ⟨kind, fun noBytes => ⟨b.lines.map fun l => (l.encode procedures).1, ?_, ?_⟩⟩
  · rw [bytes, List.flatMap_def]
  · rw [List.forall₂_map_right_iff, List.forall₂_same]
    intro l here
    obtain ⟨known, statement⟩ := Block.mem_of_mem_ofLines (List.of_mem_zip mem).2 here
    exact framed_of_encode (Line.role_of_isStatement statement (quiet l known) (noBytes l here))
      (quiet l known)

end RoomScript.Assembly
