import RoomScript.Listing
import RoomScript.Proofs.Assembly.Sections
import RoomScript.Proofs.Assembly.Terms

/-!
# The lines of a listed procedure

A procedure is cut into pieces without losing a byte, and every piece is written as lines that are
encoded to the bytes of the piece again.

* `cut_sound` says what pieces a procedure is cut into;
* `Statements` relates lines of text to the bytes they stand for, and `Statements.append` joins
  them;
* `statements_rawOnto` and `statements_instruction` are the lines of one piece, `statements_pieces`
  those of a procedure.
-/

namespace RoomScript.Listing

open Assembly

/-! ## Pieces -/

/-- An instruction has a mnemonic and as many operand bytes as its size asks for. -/
def Piece.Whole : Piece → Prop
  | instruction opcode operands =>
    (Opcode.signature opcode).isReserved = false ∧ operands.length + 1 = Opcode.size opcode
  | raw _ => True

/-- The piece that is cut off when an instruction is complete. -/
theorem piece_sound {opcode : UInt8} {operands : List UInt8}
    (length : operands.length + 1 = Opcode.size opcode) {piece : Piece}
    (cut : piece = if (Opcode.signature opcode).isReserved then .raw (opcode :: operands)
      else .instruction opcode operands) :
    piece.bytes = opcode :: operands ∧ piece.Whole := by
  cases reserved : (Opcode.signature opcode).isReserved with
  | true =>
    rw [cut, reserved]
    exact ⟨rfl, trivial⟩
  | false =>
    rw [cut, reserved]
    exact ⟨rfl, reserved, length⟩

theorem cutOnto_sound (offset : ℕ) (data : List UInt8) (out : Array Piece) :
    ∃ pieces, (cutOnto offset data out).1.toList = out.toList ++ pieces ∧
      pieces.flatMap Piece.bytes = data ∧ ∀ p ∈ pieces, p.Whole := by
  fun_induction cutOnto offset data out with
  | case1 offset out => exact ⟨[], by simp, rfl, by simp⟩
  | case2 offset out opcode rest size unknown =>
    exact ⟨[.raw (opcode :: rest)], by simp, by simp [Piece.bytes], by simp [Piece.Whole]⟩
  | case3 offset out opcode rest size known operands short =>
    exact ⟨[.raw (opcode :: rest)], by simp, by simp [Piece.bytes], by simp [Piece.Whole]⟩
  | case4 offset out opcode rest size known operands long piece ih =>
    obtain ⟨pieces, collected, bytes, whole⟩ := ih
    have cut : piece = if (Opcode.signature opcode).isReserved then .raw (opcode :: operands)
      else .instruction opcode operands := rfl
    have sized : size = Opcode.size opcode := rfl
    have taken : operands = rest.take (size - 1) := rfl
    clear_value piece operands size
    have atMost : operands.length ≤ size - 1 := taken ▸ List.length_take_le _ _
    have length : operands.length + 1 = Opcode.size opcode := by omega
    obtain ⟨front, isWhole⟩ := piece_sound length cut
    refine ⟨piece :: pieces, ?_, ?_, List.forall_mem_cons.2 ⟨isWhole, whole⟩⟩
    · rw [collected, Array.toList_push, List.append_assoc, List.singleton_append]
    · rw [List.flatMap_cons, bytes, front, taken, List.cons_append, List.take_append_drop]

/-- The pieces of a procedure are its bytes, and its instructions are whole. -/
theorem cut_sound (data : List UInt8) :
    (cut data).1.flatMap Piece.bytes = data ∧ ∀ p ∈ (cut data).1, p.Whole := by
  obtain ⟨pieces, collected, bytes, whole⟩ := cutOnto_sound 0 data #[]
  have same : (cut data).1 = pieces := by simpa [cut] using collected
  rw [same]
  exact ⟨bytes, whole⟩

/-! ## Statements -/

/-- Lines of text that stand for bytes, whatever procedures are declared. -/
def Statements (text : List Char) (bytes : List UInt8) : Prop :=
  ∃ lines : List Line, Reads text lines ∧ (∀ l ∈ lines, l.IsStatement) ∧
    ∀ {procedures : List String}, Consistent procedures →
      (∀ l ∈ lines, (l.encode procedures).2 = []) ∧
        lines.flatMap (fun l => (l.encode procedures).1) = bytes

namespace Statements

theorem nil : Statements [] [] :=
  ⟨[], .nil, by simp, by simp⟩

theorem append {text text' : List Char} {bytes bytes' : List UInt8}
    (first : Statements text bytes) (second : Statements text' bytes') :
    Statements (text ++ text') (bytes ++ bytes') := by
  obtain ⟨lines, reads, roles, encoded⟩ := first
  obtain ⟨lines', reads', roles', encoded'⟩ := second
  refine ⟨lines ++ lines', reads.append reads', List.forall_mem_append.2 ⟨roles, roles'⟩, ?_⟩
  intro procedures consistent
  obtain ⟨silent, data⟩ := encoded consistent
  obtain ⟨silent', data'⟩ := encoded' consistent
  exact ⟨List.forall_mem_append.2 ⟨silent, silent'⟩, by rw [List.flatMap_append, data, data']⟩

/-- A single line. -/
theorem row {margin text ending : List Char} {ts : List Token} {l : Line} {bytes : List UInt8}
    (blank : ∀ c ∈ margin, isLineBlank c = true) (phrase : Phrase text ts)
    (ended : EndsLine ending) (line : Line.ofTokens? ts = some l) (statement : l.IsStatement)
    (encoded : ∀ {procedures : List String}, Consistent procedures →
      l.encode procedures = (bytes, [])) :
    Statements (margin ++ (text ++ (ending ++ "\n".toList))) bytes := by
  refine ⟨[l], ?_, by simpa using statement, ?_⟩
  · have reads := Reads.row blank phrase ended
    rwa [line] at reads
  · intro procedures consistent
    simp [encoded consistent]

end Statements

/-- Every item of a list is written as an operand. -/
theorem exists_written {α : Type} (items : List α) (text : α → List Char) (value : α → ℤ)
    (each : ∀ a ∈ items, Denotes (text a) (value a)) :
    ∃ pairs : List (α × Written), pairs.map Prod.fst = items ∧
      ∀ p ∈ pairs, p.2.text = text p.1 ∧ p.2.value = value p.1 := by
  induction items with
  | nil => exact ⟨[], rfl, by simp⟩
  | cons a items ih =>
    obtain ⟨⟨w, written⟩, later⟩ := List.forall_mem_cons.1 each
    obtain ⟨pairs, rfl, all⟩ := ih later
    exact ⟨(a, w) :: pairs, rfl, List.forall_mem_cons.2 ⟨written, all⟩⟩

theorem isLineBlank_of_mem_indent (depth : ℕ) :
    ∀ c ∈ (indent depth).toList, isLineBlank c = true := by
  have blank : ∀ c ∈ "    ".toList, isLineBlank c = true :=
    List.all_eq_true.1 (by decide)
  intro c hc
  rw [indent, Text.repeated, String.toList_join] at hc
  obtain ⟨blanks, mem, hc⟩ := List.mem_flatMap.1 hc
  rw [(List.mem_replicate.1 mem).2] at hc
  exact blank c hc

theorem toList_endLine (options : Options) (offset : ℕ) (line : String) :
    ∃ ending, EndsLine ending ∧
      (endLine options offset line).toList = line.toList ++ (ending ++ "\n".toList) := by
  unfold endLine
  split
  · refine ⟨" ;".toList ++ (" 0x" ++ Text.hex 4 offset).toList, .comment ?_, ?_⟩
    · have mark : '\n' ∉ " 0x".toList := by decide
      rintro c hc rfl
      rw [String.toList_append] at hc
      rcases List.mem_append.1 hc with hc | hc
      · exact mark hc
      · have part := Opcode.isIdentPart_of_mem_hex (by omega) '\n' hc
        cases part
    · simp only [String.toList_append]
      simp
  · exact ⟨[], .nil, by simp⟩

/-! ## Raw bytes -/

/-- The first token of a line of raw bytes. -/
def rawHead : Token := .ofChars .symbol ".db".toList

theorem encode_raw {procedures : List String} (consistent : Consistent procedures)
    {pairs : List (UInt8 × Written)} (written : ∀ p ∈ pairs, p.2.value = p.1.toNat) :
    Line.encode procedures ⟨rawHead, (pairs.map Prod.snd).map Written.tokens⟩ =
      (pairs.map Prod.fst, []) := by
  have role : Line.role ⟨rawHead, (pairs.map Prod.snd).map Written.tokens⟩ = .bytes := rfl
  have operands := encodeOperands_written consistent rawHead
    (pairs.map fun p => (Line.rawByte, p.2)) ?_
  · unfold Line.encode
    rw [role]
    show Line.encodeOperands procedures rawHead
      (((pairs.map Prod.snd).map Written.tokens).map fun o => (Line.rawByte, o)) = _
    rw [List.map_map] at operands
    rw [List.map_map, List.map_map]
    refine operands.trans ?_
    rw [List.flatMap_map]
    congr 1
    have each : ∀ p ∈ pairs, Line.rawByte.encode p.2.value = [p.1] := by
      intro p hp
      rw [written p hp]
      simp [Operand.encode, Line.rawByte]
    rw [List.flatMap_congr each, ← List.map_eq_flatMap]
  · intro o ho
    obtain ⟨p, hp, rfl⟩ := List.mem_map.1 ho
    have := p.1.toNat_lt
    rw [written p hp]
    constructor
    · show (-0x80 : ℤ) ≤ p.1.toNat
      omega
    · show (p.1.toNat : ℤ) ≤ 0xFF
      omega

/-- A line of raw bytes stands for them. -/
theorem statements_rawLine (options : Options) (depth offset : ℕ) {bytes : List UInt8}
    (filled : bytes ≠ []) :
    Statements (endLine options offset (rawLine depth bytes)).toList bytes := by
  obtain ⟨ending, ended, chars⟩ := toList_endLine options offset (rawLine depth bytes)
  obtain ⟨pairs, rfl, written⟩ := exists_written bytes
    (fun b => ("0x" ++ Text.hex 2 b.toNat).toList) (fun b => b.toNat)
    fun b _ => (Term.hexByte b).elim fun _ term => .term term
  have filled' : pairs.map Prod.snd ≠ [] := by
    rw [Ne, List.map_eq_nil_iff] at filled ⊢
    exact filled
  have phrase : Phrase (".db".toList ++ (" ".toList ++
      List.intercalate ", ".toList ((pairs.map Prod.snd).map Written.text)))
      ([rawHead] ++ List.intercalate [commaToken] ((pairs.map Prod.snd).map Written.tokens)) :=
    (Phrase.dotted ⟨'d', ['b'], rfl, rfl, List.all_eq_true.1 (by decide)⟩).spaced
      (phrase_operands filled')
  have texts : (pairs.map Prod.snd).map Written.text =
      ((pairs.map Prod.fst).map fun b => "0x" ++ Text.hex 2 b.toNat).map String.toList := by
    simp only [List.map_map]
    exact List.map_congr_left fun p hp => (written p hp).1
  have row := Statements.row (isLineBlank_of_mem_indent depth) phrase ended
    (ofTokens?_operands rawHead filled') (.inl rfl)
    (fun consistent => encode_raw consistent fun p hp => (written p hp).2)
  rw [texts] at row
  rw [chars, rawLine]
  simpa using row

theorem statements_rawOnto (options : Options) (depth offset : ℕ) (bytes : List UInt8)
    (out : String) :
    ∃ added, rawOnto options depth offset bytes out = out ++ added ∧
      Statements added.toList bytes := by
  fun_induction rawOnto options depth offset bytes out with
  | case1 offset out => exact ⟨"", by simp, .nil⟩
  | case2 offset out b rest ih =>
    obtain ⟨added, text, statements⟩ := ih
    refine ⟨_, text.trans String.append_assoc, ?_⟩
    have some : (b :: rest).take rawPerLine ≠ [] := by simp [rawPerLine]
    have joined := (statements_rawLine options depth offset some).append statements
    rw [List.take_append_drop] at joined
    rwa [String.toList_append]

/-! ## Instructions -/

/-- Operands whose values have names are read without a sign, and all but one are single bytes. -/
theorem bounds_of_valueName? {o : Operand} (formed : o = Operand.ofKind o.kind o.offset)
    {bytes : List UInt8} {name : String}
    (named : Opcode.valueName? o.kind (o.decode bytes) = some name) :
    0 ≤ o.decode bytes ∧ (o.kind ≠ 'T' → o.decode bytes < 256) := by
  have widths : Opcode.namedKinds.all (fun kind => Operand.signedOf kind = false ∧
      (kind ≠ 'T' → Operand.widthOf kind = 1)) = true := by decide
  have mem : o.kind ∈ Opcode.namedKinds := by
    by_contra absent
    rw [Opcode.valueName?_of_notMem absent] at named
    cases named
  obtain ⟨signed, width⟩ := of_decide_eq_true (List.all_eq_true.1 widths o.kind mem)
  refine ⟨Operand.decode_nonneg ((congrArg Operand.signed formed).trans signed) bytes, ?_⟩
  intro noWord
  exact Operand.decode_lt ((congrArg Operand.width formed).trans (width noWord)) bytes

/-- The name of an operand's value stands for the value. -/
theorem denotes_valueName? {o : Operand} (formed : o = Operand.ofKind o.kind o.offset)
    {bytes : List UInt8} {name : String}
    (named : Opcode.valueName? o.kind (o.decode bytes) = some name) :
    Denotes name.toList (o.decode bytes) := by
  obtain ⟨nonneg, small⟩ := bounds_of_valueName? formed named
  by_cases mask : o.kind = 'a'
  · rw [mask] at named
    exact denotes_actorMask nonneg named
  · exact .term (.symbol (Opcode.isSymbol_of_valueName? mask nonneg small named))

/-- The text of an operand stands for the operand's value. -/
theorem denotes_operandText (options : Options) {opcode : UInt8} {block : List UInt8} {index : ℕ}
    {o : Operand}
    (placed : ((Opcode.signature opcode).layout (Opcode.size opcode))[index]? = some o) :
    Denotes (operandText options opcode block index o).toList (o.decode (o.slice block)) := by
  have bounds := o.decode_mem_Icc (o.slice block)
  have numeric : Denotes (Text.decimal 0 (o.decode (o.slice block))).toList
      (o.decode (o.slice block)) := by
    have low : -2 ^ 31 < o.low := by
      unfold Operand.low
      split <;> decide
    have high : o.high < 2 ^ 31 := by
      unfold Operand.high
      split <;> decide
    exact .decimal (by omega) (by omega)
  unfold operandText
  cases options.numeric with
  | true => exact numeric
  | false =>
    cases byBytes : Opcode.instructionName? opcode index { data := block } with
    | some name =>
      exact .term (.symbol (Opcode.isSymbol_of_instructionName? placed byBytes))
    | none =>
      cases named : Opcode.valueName? o.kind (o.decode (o.slice block)) with
      | none =>
        simp only [named]
        exact numeric
      | some name =>
        simp only [named]
        exact denotes_valueName? (Signature.eq_ofKind_of_mem_layout (List.mem_of_getElem? placed))
          named

/-- A line that begins with a name in lower case is an instruction. -/
theorem role_of_isWord {l : Line} {name : String} (mnemonic : l.mnemonic = name)
    (word : IsWord Char.isLower name.toList) : l.role = .instruction := by
  have first : name.toList.head?.any Char.isLower = true := by
    obtain ⟨c, rest, chars, lower, -⟩ := word
    rw [chars]
    exact lower
  unfold Line.role
  rw [mnemonic]
  split
  iterate 7
    · exact absurd first (by decide)
  · split
    · rename_i dot
      rw [dot] at first
      exact absurd first (by decide)
    · rfl

/-- The first token of an instruction. -/
def mnemonicToken (opcode : UInt8) : Token :=
  .ofChars .symbol (Opcode.signature opcode).mnemonic.toList

section Instruction

variable {opcode : UInt8} {block : List UInt8}

theorem encode_instruction (used : (Opcode.signature opcode).isReserved = false)
    (length : block.length + 1 = Opcode.size opcode)
    {pairs : List ((Operand × ℕ) × Written)}
    (operands : pairs.map Prod.fst =
      ((Opcode.signature opcode).layout (Opcode.size opcode)).zipIdx)
    (written : ∀ p ∈ pairs, p.2.value = p.1.1.decode (p.1.1.slice block)) :
    Line.IsStatement ⟨mnemonicToken opcode, (pairs.map Prod.snd).map Written.tokens⟩ ∧
      ∀ {procedures : List String}, Consistent procedures →
        Line.encode procedures ⟨mnemonicToken opcode, (pairs.map Prod.snd).map Written.tokens⟩ =
          (opcode :: block, []) := by
  have mnemonic : Line.mnemonic ⟨mnemonicToken opcode, (pairs.map Prod.snd).map Written.tokens⟩ =
      (Opcode.signature opcode).mnemonic := by
    simp [Line.mnemonic, mnemonicToken]
  have role := role_of_isWord mnemonic (Opcode.mnemonic_isWord used)
  have layout : (Opcode.signature opcode).layout (Opcode.size opcode) =
      pairs.map fun p => p.1.1 := by
    have first := congrArg (List.map Prod.fst) operands
    rw [List.zipIdx_map_fst, List.map_map] at first
    exact first.symm
  have count : ((pairs.map Prod.snd).map Written.tokens).length =
      ((Opcode.signature opcode).layout (Opcode.size opcode)).length := by
    simp [layout]
  have zipped : ((Opcode.signature opcode).layout (Opcode.size opcode)).zip
      ((pairs.map Prod.snd).map Written.tokens) =
        (pairs.map fun p => (p.1.1, p.2)).map fun p => (p.1, p.2.tokens) := by
    rw [layout, List.map_map, List.map_map, List.zip_map']
    rfl
  have values : (pairs.map fun p => (p.1.1, p.2)).flatMap (fun p => p.1.encode p.2.value) =
      block := by
    have wide : (Opcode.signature opcode).width ≤ block.length := by
      have := Opcode.width_le opcode
      omega
    -- Operands tile the bytes behind the opcode, padding included.
    have tiles := Signature.flatMap_encode_layout wide
    rw [length, layout, List.flatMap_map] at tiles
    rw [List.flatMap_map, ← tiles]
    exact List.flatMap_congr fun p hp => by rw [written p hp]
  refine ⟨.inr role, fun {procedures} consistent => ?_⟩
  have encoded := encodeOperands_written consistent (mnemonicToken opcode)
    (pairs.map fun p => (p.1.1, p.2)) fun o ho => by
      obtain ⟨p, hp, rfl⟩ := List.mem_map.1 ho
      rw [written p hp]
      exact Operand.decode_mem_Icc ..
  unfold Line.encode
  rw [role]
  show Line.encodeInstruction procedures _ = _
  unfold Line.encodeInstruction
  rw [mnemonic, Opcode.find?_mnemonic used]
  simp only [count, zipped, encoded, values]
  simp

theorem isWord_isIdentStart {word : List Char} (h : IsWord Char.isLower word) :
    IsWord isIdentStart word := by
  obtain ⟨c, rest, rfl, lower, all⟩ := h
  refine ⟨c, rest, rfl, ?_, all⟩
  have low : 'a' ≤ c := of_decide_eq_true (Bool.and_eq_true_iff.1 lower).1
  have high : c ≤ 'z' := of_decide_eq_true (Bool.and_eq_true_iff.1 lower).2
  simp [isIdentStart, low, high]

/-- A line with an instruction stands for its bytes. -/
theorem statements_instruction (options : Options) (offset : ℕ) {margin : String}
    (blank : ∀ c ∈ margin.toList, isLineBlank c = true)
    (used : (Opcode.signature opcode).isReserved = false)
    (length : block.length + 1 = Opcode.size opcode) :
    Statements (endLine options offset (margin ++ instructionText options opcode block)).toList
      (opcode :: block) := by
  obtain ⟨ending, ended, chars⟩ :=
    toList_endLine options offset (margin ++ instructionText options opcode block)
  obtain ⟨pairs, items, written⟩ := exists_written
    ((Opcode.signature opcode).layout (Opcode.size opcode)).zipIdx
    (fun a => (operandText options opcode block a.2 a.1).toList)
    (fun a => a.1.decode (a.1.slice block))
    fun a mem => denotes_operandText options (List.mem_zipIdx_iff_getElem?.1 mem)
  obtain ⟨statement, encoded⟩ :=
    encode_instruction used length items fun p hp => (written p hp).2
  have head : Phrase (Opcode.signature opcode).mnemonic.toList [mnemonicToken opcode] :=
    .word (isWord_isIdentStart (Opcode.mnemonic_isWord used))
  rw [chars, String.toList_append, List.append_assoc]
  unfold instructionText
  simp only [length]
  split
  · rename_i empty
    rw [empty] at items
    obtain rfl := List.map_eq_nil_iff.1 items
    exact .row blank head ended rfl statement encoded
  · rename_i filled
    have some : pairs.map Prod.snd ≠ [] := by
      intro none
      rw [List.map_eq_nil_iff] at none
      rw [none] at items
      exact filled (List.zipIdx_eq_nil_iff.1 items.symm)
    have texts : (pairs.map Prod.snd).map Written.text =
        (((Opcode.signature opcode).layout (Opcode.size opcode)).zipIdx.map fun a =>
          operandText options opcode block a.2 a.1).map String.toList := by
      rw [← items, List.map_map, List.map_map, List.map_map]
      exact List.map_congr_left fun p hp => (written p hp).1
    have row := Statements.row blank (head.spaced (phrase_operands some)) ended
      (ofTokens?_operands _ some) statement encoded
    rw [texts] at row
    simpa [String.toList_append] using row

end Instruction

/-! ## Procedures -/

/-- An instruction is written on a line of its own, behind blanks. -/
theorem exists_margin (options : Options) (s : State) (opcode : UInt8) (block : List UInt8) :
    ∃ margin : String, (∀ c ∈ margin.toList, isLineBlank c = true) ∧
      (s.piece options (.instruction opcode block)).text =
        s.text ++ endLine options s.offset (margin ++ instructionText options opcode block) := by
  refine ⟨_, ?_, rfl⟩
  split
  · rename_i depth _ _
    rw [String.toList_append]
    exact List.forall_mem_append.2 ⟨isLineBlank_of_mem_indent depth,
      List.all_eq_true.1 (by decide)⟩
  · exact isLineBlank_of_mem_indent _

/-- The lines of a piece stand for its bytes. -/
theorem statements_piece (options : Options) (s : State) {p : Piece} (whole : p.Whole) :
    ∃ added, (s.piece options p).text = s.text ++ added ∧ Statements added.toList p.bytes := by
  cases p with
  | raw bytes => exact statements_rawOnto options s.nesting.depth s.offset bytes s.text
  | instruction opcode block =>
    obtain ⟨margin, blank, text⟩ := exists_margin options s opcode block
    exact ⟨_, text, statements_instruction options s.offset blank whole.1 whole.2⟩

/-- The lines of pieces stand for their bytes. -/
theorem statements_pieces (options : Options) (s : State) {pieces : List Piece}
    (whole : ∀ p ∈ pieces, p.Whole) :
    ∃ added, (pieces.foldl (State.piece options) s).text = s.text ++ added ∧
      Statements added.toList (pieces.flatMap Piece.bytes) := by
  induction pieces generalizing s with
  | nil => exact ⟨"", by simp, .nil⟩
  | cons p pieces ih =>
    obtain ⟨first, later⟩ := List.forall_mem_cons.1 whole
    obtain ⟨front, text, statements⟩ := statements_piece options s first
    obtain ⟨back, text', statements'⟩ := ih (s.piece options p) later
    refine ⟨front ++ back, ?_, ?_⟩
    · rw [List.foldl_cons, text', text, String.append_assoc]
    · rw [String.toList_append]
      exact statements.append statements'

end RoomScript.Listing
