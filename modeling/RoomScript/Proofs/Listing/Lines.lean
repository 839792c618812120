import RoomScript.Proofs.Assembly.Framing
import RoomScript.Proofs.Listing.Sections

/-!
# The lines of a listing

Bytes that are made of whole instructions are listed one instruction to a line, each under its
mnemonic.  So the listing of an assembled procedure has the mnemonics of its source.

* `linesOf` and `firstWord` take a listing apart;
* `cut_flatMap` says that whole instructions are cut apart where they were put together;
* `firstWord_procedure` says what the lines of a listed procedure begin with;
* `assembled_blockwise` puts this together for an assembled text.
-/

namespace RoomScript.Listing

open Assembly

/-! ## Lines and words -/

/-- The lines of a text, each of them ended by a newline. -/
def linesOf (text : String) : List String :=
  (text.toList.splitOn '\n').dropLast.map String.ofList

/-- The first word of a line. -/
def firstWord (line : String) : String :=
  String.ofList ((line.toList.dropWhile isLineBlank).takeWhile (! isLineBlank ·))

/-- A text within a line. -/
def Inline (text : List Char) : Prop :=
  '\n' ∉ text

instance (text : List Char) : Decidable (Inline text) :=
  inferInstanceAs (Decidable ('\n' ∉ text))

theorem Inline.append {text text' : List Char} (first : Inline text) (second : Inline text') :
    Inline (text ++ text') :=
  fun mem => (List.mem_append.1 mem).elim first second

theorem inline_of_isIdentPart {text : List Char} (parts : ∀ c ∈ text, isIdentPart c = true) :
    Inline text := by
  intro mem
  have part := parts '\n' mem
  cases part

theorem isIdentPart_of_isWord {text : List Char} (word : IsWord isIdentStart text) :
    ∀ c ∈ text, isIdentPart c = true := by
  obtain ⟨c, rest, rfl, start, parts⟩ := word
  refine List.forall_mem_cons.2 ⟨?_, parts⟩
  rw [isIdentPart, start, Bool.true_or]

theorem inline_of_isWord {text : List Char} (word : IsWord isIdentStart text) : Inline text :=
  inline_of_isIdentPart (isIdentPart_of_isWord word)

theorem inline_of_blank {text : List Char} (blank : ∀ c ∈ text, isLineBlank c = true) :
    Inline text := by
  intro mem
  have := blank '\n' mem
  cases this

theorem inline_intercalate {mark : String} (plain : Inline mark.toList) {texts : List String}
    (each : ∀ text ∈ texts, Inline text.toList) : Inline (mark.intercalate texts).toList := by
  rw [String.toList_intercalate]
  induction texts with
  | nil => simp [Inline]
  | cons text texts ih =>
    obtain ⟨first, later⟩ := List.forall_mem_cons.1 each
    cases texts with
    | nil => simpa using first
    | cons next texts =>
      rw [List.map_cons, List.map_cons, List.intercalate_cons_cons]
      exact (first.append plain).append (ih later)

theorem linesOf_append {line : String} (inline : Inline line.toList) (rest : String) :
    linesOf (line ++ "\n" ++ rest) = line :: linesOf rest := by
  have chars : (line ++ "\n" ++ rest).toList = line.toList ++ '\n' :: rest.toList := by simp
  have alone : line.toList.splitOn '\n' = [line.toList] := by
    refine List.splitOnP_eq_singleton fun c mem => ?_
    rw [beq_eq_false_iff_ne]
    rintro rfl
    exact inline mem
  rw [linesOf, chars, List.splitOn_append_cons_self, alone, List.singleton_append,
    List.dropLast_cons_of_ne_nil (List.splitOn_ne_nil _ _), List.map_cons, String.ofList_toList,
    linesOf]

/-- A line with blanks in front of a word, and with nothing or a blank behind it. -/
theorem firstWord_append {margin word rest : List Char}
    (blank : ∀ c ∈ margin, isLineBlank c = true) (parts : ∀ c ∈ word, isLineBlank c = false)
    (some : word ≠ []) (ends : ∀ c ∈ rest.head?, isLineBlank c = true) :
    firstWord (String.ofList (margin ++ (word ++ rest))) = String.ofList word := by
  have front : (margin ++ (word ++ rest)).dropWhile isLineBlank = word ++ rest := by
    refine (Text.span_run blank ?_).2
    obtain ⟨c, cs, rfl⟩ := List.exists_cons_of_ne_nil some
    rintro _ ⟨⟩
    exact parts c List.mem_cons_self
  have taken : (word ++ rest).takeWhile (! isLineBlank ·) = word :=
    (Text.span_run (by simpa using parts) (by simpa using ends)).1
  rw [firstWord, String.toList_ofList, front, taken]

/-! ## Whole instructions -/

/-- A whole instruction is cut off in front of whatever follows it. -/
theorem cutOnto_instruction {opcode : UInt8} {operands : List UInt8}
    (whole : (Piece.instruction opcode operands).Whole) (offset : ℕ) (rest : List UInt8)
    (out : Array Piece) :
    cutOnto offset (opcode :: (operands ++ rest)) out =
      cutOnto (offset + Opcode.size opcode) rest (out.push (.instruction opcode operands)) := by
  obtain ⟨used, length⟩ := whole
  have size : Opcode.size opcode - 1 = operands.length := by omega
  have known : Opcode.size opcode ≠ 0 := by omega
  conv_lhs => unfold cutOnto
  simp only [size, if_neg known, List.take_left, Nat.lt_irrefl, if_false, List.drop_left]
  rw [used]
  rfl

/-- Whole instructions that follow one another are cut apart again. -/
theorem cutOnto_flatMap {pieces : List (UInt8 × List UInt8)}
    (whole : ∀ p ∈ pieces, (Piece.instruction p.1 p.2).Whole) (offset : ℕ) (out : Array Piece) :
    cutOnto offset (pieces.flatMap fun p => p.1 :: p.2) out =
      (out ++ (pieces.map fun p => Piece.instruction p.1 p.2).toArray, none) := by
  induction pieces generalizing offset out with
  | nil =>
    unfold cutOnto
    simp
  | cons p pieces ih =>
    obtain ⟨first, later⟩ := List.forall_mem_cons.1 whole
    rw [List.flatMap_cons, List.cons_append, cutOnto_instruction first, ih later]
    simp

theorem cut_flatMap {pieces : List (UInt8 × List UInt8)}
    (whole : ∀ p ∈ pieces, (Piece.instruction p.1 p.2).Whole) :
    cut (pieces.flatMap fun p => p.1 :: p.2) =
      (pieces.map fun p => Piece.instruction p.1 p.2, none) := by
  rw [cut, cutOnto_flatMap whole]
  simp

/-! ## The texts of instructions -/

theorem inline_decimal (n : ℤ) : Inline (Text.decimal 0 n).toList := by
  by_cases nonneg : 0 ≤ n
  · exact inline_of_isIdentPart (Opcode.isIdentPart_of_mem_decimal nonneg)
  · have digits := inline_of_isIdentPart
      (Opcode.isIdentPart_of_mem_decimal (n := (n.natAbs : ℤ)) (by omega))
    rw [Text.toList_decimal_of_nonneg (by omega)] at digits
    rw [Text.toList_decimal_of_neg (by omega)]
    intro mem
    rcases List.mem_cons.1 mem with mark | mem
    · cases mark
    · exact digits mem

theorem inline_actorMask {v : ℤ} {name : String} (named : Opcode.actorMask? v = some name) :
    Inline name.toList := by
  unfold Opcode.actorMask? at named
  have words : ∀ word ∈ Opcode.actorBits, Inline word.toList := by
    decide
  split at named
  · cases named
    decide
  split at named
  · cases named
  · cases named
    refine inline_intercalate (by decide) fun text mem => ?_
    exact words text (Opcode.bitNames_subset _ _ mem)

/-- An operand is written within a line. -/
theorem inline_operandText (options : Options) {opcode : UInt8} {block : List UInt8} {index : ℕ}
    {o : Operand} (placed : (slots opcode)[index]? = some o) :
    Inline (operandText options opcode block index o).toList := by
  have numeric := inline_decimal (o.decode (o.slice block))
  unfold operandText
  cases options.numeric with
  | true => exact numeric
  | false =>
    cases byBytes : Opcode.instructionName? opcode index { data := block } with
    | some name =>
      exact inline_of_isWord (Opcode.isSymbol_of_instructionName? placed byBytes).word
    | none =>
      cases named : Opcode.valueName? o.kind (o.decode (o.slice block)) with
      | none =>
        simp only [named]
        exact numeric
      | some name =>
        simp only [named]
        by_cases mask : o.kind = 'a'
        · rw [mask] at named
          exact inline_actorMask named
        · obtain ⟨nonneg, small⟩ := bounds_of_valueName?
            (Signature.eq_ofKind_of_mem_layout (List.mem_of_getElem? placed)) named
          exact inline_of_isWord (Opcode.isSymbol_of_valueName? mask nonneg small named).word

theorem exists_endLine (options : Options) (offset : ℕ) (line : String) :
    ∃ ending, endLine options offset line = line ++ ending ++ "\n" ∧ Inline ending.toList ∧
      ∀ c ∈ ending.toList.head?, isLineBlank c = true := by
  unfold endLine
  split
  · refine ⟨" ; 0x" ++ Text.hex 4 offset, by simp [String.append_assoc], ?_, ?_⟩
    · rw [String.toList_append]
      refine Inline.append (by decide) ?_
      exact inline_of_isIdentPart (Opcode.isIdentPart_of_mem_hex (by omega))
    · rw [String.toList_append]
      rintro c ⟨⟩
      rfl
  · exact ⟨"", by simp, by simp [Inline], by simp⟩

/-- The text of an instruction begins with its mnemonic. -/
theorem exists_instructionText (options : Options) {opcode : UInt8} {block : List UInt8}
    (whole : (Piece.instruction opcode block).Whole) :
    ∃ rest, instructionText options opcode block = (Opcode.signature opcode).mnemonic ++ rest ∧
      Inline rest.toList ∧ ∀ c ∈ rest.toList.head?, isLineBlank c = true := by
  obtain ⟨used, length⟩ := whole
  unfold instructionText
  simp only [length]
  split
  · exact ⟨"", by simp, by simp [Inline], by simp⟩
  · refine ⟨_, String.append_assoc, ?_, ?_⟩
    · rw [String.toList_append]
      refine Inline.append (by decide) (inline_intercalate (by decide) ?_)
      intro text mem
      obtain ⟨⟨o, i⟩, placed, rfl⟩ := List.mem_map.1 mem
      exact inline_operandText options (List.mem_zipIdx_iff_getElem?.1 placed)
    · rw [String.toList_append]
      rintro c ⟨⟩
      rfl

/-- A whole instruction is listed on one line, which begins with its mnemonic. -/
theorem exists_piece (options : Options) (s : State) {opcode : UInt8} {block : List UInt8}
    (whole : (Piece.instruction opcode block).Whole) :
    ∃ line, (s.piece options (.instruction opcode block)).text = s.text ++ (line ++ "\n") ∧
      Inline line.toList ∧ firstWord line = (Opcode.signature opcode).mnemonic := by
  obtain ⟨margin, blank, text⟩ := exists_margin options s opcode block
  obtain ⟨rest, written, within, ends⟩ := exists_instructionText options whole
  obtain ⟨ending, ended, within', ends'⟩ :=
    exists_endLine options s.offset (margin ++ instructionText options opcode block)
  have isWord := isWord_isIdentStart (Opcode.mnemonic_isWord whole.1)
  have solid : ∀ c ∈ (Opcode.signature opcode).mnemonic.toList, isLineBlank c = false := by
    intro c mem
    exact isLineBlank_of_isIdentPart (isIdentPart_of_isWord isWord c mem)
  have filled : (Opcode.signature opcode).mnemonic.toList ≠ [] := by
    obtain ⟨c, cs, chars, -⟩ := isWord
    rw [chars]
    exact List.cons_ne_nil c cs
  have behind : ∀ c ∈ (rest.toList ++ ending.toList).head?, isLineBlank c = true := by
    intro c mem
    cases front : rest.toList with
    | nil =>
      rw [front, List.nil_append] at mem
      exact ends' c mem
    | cons d ds =>
      rw [front] at mem
      exact ends c (front ▸ mem)
  have chars : margin ++ instructionText options opcode block ++ ending =
      String.ofList (margin.toList ++
        ((Opcode.signature opcode).mnemonic.toList ++ (rest.toList ++ ending.toList))) := by
    rw [written, ← String.toList_inj]
    simp
  refine ⟨margin ++ instructionText options opcode block ++ ending, ?_, ?_, ?_⟩
  · rw [text, ended]
  · rw [chars, String.toList_ofList]
    exact (inline_of_blank blank).append ((inline_of_isWord isWord).append (within.append within'))
  · rw [chars, firstWord_append blank solid filled behind, String.ofList_toList]

/-- Whole instructions are listed one to a line. -/
theorem exists_lines (options : Options) (s : State) {pieces : List (UInt8 × List UInt8)}
    (whole : ∀ p ∈ pieces, (Piece.instruction p.1 p.2).Whole) :
    ∃ added, ((pieces.map fun p => Piece.instruction p.1 p.2).foldl (State.piece options) s).text =
        s.text ++ added ∧
      (linesOf added).map firstWord = pieces.map fun p => (Opcode.signature p.1).mnemonic := by
  induction pieces generalizing s with
  | nil => exact ⟨"", by simp, rfl⟩
  | cons p pieces ih =>
    obtain ⟨first, later⟩ := List.forall_mem_cons.1 whole
    obtain ⟨line, text, inline, word⟩ := exists_piece options s first
    obtain ⟨added, text', words⟩ := ih (s.piece options (.instruction p.1 p.2)) later
    refine ⟨line ++ "\n" ++ added, ?_, ?_⟩
    · rw [List.map_cons, List.foldl_cons, text', text, String.append_assoc]
    · rw [linesOf_append inline, List.map_cons, word, words, List.map_cons]

/-! ## Listed procedures -/

theorem inline_hex (width : ℕ) (n : ℤ) : Inline (Text.hex width n).toList := by
  by_cases nonneg : 0 ≤ n
  · exact inline_of_isIdentPart (Opcode.isIdentPart_of_mem_hex nonneg)
  · obtain ⟨cs, chars, -, digits⟩ := Text.toList_hex_of_neg width (Int.not_le.1 nonneg)
    have printable : ∀ d < 16, '\n' ≠ (Nat.digitChar d).toUpper := by decide
    rw [chars]
    intro mem
    rcases List.mem_cons.1 mem with mark | mem
    · cases mark
    · obtain ⟨d, small, digit⟩ := digits _ mem
      exact printable d small digit

theorem inline_defaultName (kind : Kind) (index : ℤ) :
    Inline (Procedure.defaultName kind index).toList := by
  have name : Inline kind.name.toList := by
    unfold Kind.name
    split_ifs
    · decide
    · decide
    · decide
    · rw [String.toList_append, String.toList_append]
      exact (Inline.append (by decide) (inline_decimal _)).append
        (by decide)
  unfold Procedure.defaultName
  split_ifs
  · decide
  · decide
  · decide
  · rw [String.toList_append, String.toList_append]
    exact (name.append (by decide)).append (inline_hex 2 index)

/-- The lines of a procedure that is made of whole instructions. -/
theorem firstWord_procedure (options : Options) {p : Procedure} {pieces : List (UInt8 × List UInt8)}
    (whole : ∀ p ∈ pieces, (Piece.instruction p.1 p.2).Whole)
    (data : p.data = pieces.flatMap fun p => p.1 :: p.2) :
    (linesOf (Listing.procedure options p)).map firstWord =
      ".proc" :: pieces.map fun p => (Opcode.signature p.1).mnemonic := by
  obtain ⟨added, text, words⟩ := exists_lines options
    { text := "" ++ ".proc " ++ Procedure.defaultName p.kind p.index ++ "\n" } whole
  have header : Inline (".proc " ++ Procedure.defaultName p.kind p.index).toList := by
    rw [String.toList_append]
    exact Inline.append (by decide) (inline_defaultName p.kind p.index)
  have name : firstWord (".proc " ++ Procedure.defaultName p.kind p.index) = ".proc" := by
    have chars : ".proc " ++ Procedure.defaultName p.kind p.index =
        String.ofList ([] ++ (".proc".toList ++
          (" ".toList ++ (Procedure.defaultName p.kind p.index).toList))) := by
      rw [← String.toList_inj]
      simp
    have ends : ∀ c ∈ (" ".toList ++ (Procedure.defaultName p.kind p.index).toList).head?,
        isLineBlank c = true := by
      rintro c ⟨⟩
      rfl
    have solid : ∀ c ∈ ".proc".toList, isLineBlank c = false := by
      have all : ".proc".toList.all (! isLineBlank ·) = true := by decide
      simpa using all
    have filled : ".proc".toList ≠ [] := by decide
    rw [chars, firstWord_append (by simp) solid filled ends, String.ofList_toList]
  rw [Listing.procedure, procedureOnto, data, cut_flatMap whole, text, String.empty_append,
    linesOf_append header, List.map_cons, name, words]

/-- Statements and the blocks of bytes they are framed in are whole instructions. -/
theorem exists_pieces {procedures : List String} {lines : List Line} {blocks : List (List UInt8)}
    (framed : List.Forall₂ (Framed procedures) lines blocks) :
    ∃ pieces : List (UInt8 × List UInt8), (∀ p ∈ pieces, (Piece.instruction p.1 p.2).Whole) ∧
      blocks.flatten = (pieces.flatMap fun p => p.1 :: p.2) ∧
      (pieces.map fun p => (Opcode.signature p.1).mnemonic) = lines.map Line.mnemonic := by
  induction framed with
  | nil => exact ⟨[], by simp, rfl, rfl⟩
  | cons first _ ih =>
    obtain ⟨opcode, block, rfl, found, length, -⟩ := first
    obtain ⟨pieces, whole, bytes, words⟩ := ih
    obtain ⟨used, mnemonic⟩ := Opcode.find?_eq_some_iff.1 found
    refine ⟨(opcode, block) :: pieces, List.forall_mem_cons.2 ⟨⟨used, length⟩, whole⟩, ?_, ?_⟩
    · rw [List.flatten_cons, bytes, List.flatMap_cons]
    · rw [List.map_cons, words, mnemonic, List.map_cons]

/-- A text that assembles without diagnostics is framed: each procedure without bytes as they are is
made of one block for each of its statements, and its listing has these statements again, one to a
line, with nothing reported. -/
theorem assembled_blockwise {tokens : List Token} {before : List Diagnostic} {remarks : List String}
    (silent : (assemble tokens before remarks).diagnostics = []) :
    let lines := Line.ofText tokens
    let procedures := (Declarations.ofLines lines).ofKind .main
    (Block.ofLines lines).flatMap (·.lines) = lines.filter Line.isStatement ∧
      List.Forall₂ (fun (p : Procedure) (b : Block) => p.kind = b.kind ∧
          ((∀ l ∈ b.lines, l.mnemonic ≠ ".db") → Blockwise procedures p b ∧
            (cut p.data).2 = none ∧
            ∀ options, (linesOf (Listing.procedure options p)).map firstWord =
              ".proc" :: b.lines.map Line.mnemonic))
        (assemble tokens before remarks).script.procedures (Block.ofLines lines) := by
  intro lines procedures
  refine ⟨Block.flatMap_lines_ofLines lines, ?_⟩
  refine (forall₂_blockwise silent).imp fun p b ⟨kind, blockwise⟩ => ⟨kind, fun noBytes => ?_⟩
  obtain ⟨blocks, data, framed⟩ := blockwise noBytes
  obtain ⟨pieces, whole, bytes, words⟩ := exists_pieces framed
  rw [bytes] at data
  refine ⟨blockwise noBytes, ?_, fun options => ?_⟩
  · rw [data, cut_flatMap whole]
  · rw [firstWord_procedure options whole data, words]

/-- A call of the second of two procedures, and an instruction whose operands are left out. -/
def calls : List Token :=
  [word ".proc", word "main", newline, word "gosub", word "door", newline,
    word "evt_chain", newline, word ".proc", word "door", newline, word "evt_end", newline]

theorem assembled_blockwise_calls :
    (assemble calls).diagnostics = [] ∧
      (assemble calls).script.procedures.head? = some ⟨.main, 0, "main", [0x18, 1, 3, 0, 0, 0]⟩ ∧
      ∀ options, (linesOf (Listing.procedure options
        ⟨.main, 0, "main", [0x18, 1, 3, 0, 0, 0]⟩)).map firstWord =
          [".proc", "gosub", "evt_chain"] := by
  have silent : (assemble calls).diagnostics = [] := by decide +kernel
  have made : (assemble calls).script.procedures =
      [⟨.main, 0, "main", [0x18, 1, 3, 0, 0, 0]⟩, ⟨.main, 1, "door", [1, 0]⟩] := by
    decide +kernel
  have blocks : (Block.ofLines (Line.ofText calls)).map (·.lines.map Line.mnemonic) =
      [["gosub", "evt_chain"], ["evt_end"]] := by
    decide +kernel
  refine ⟨silent, by rw [made]; rfl, fun options => ?_⟩
  obtain ⟨-, all⟩ := assembled_blockwise silent
  rw [made] at all
  generalize Block.ofLines (Line.ofText calls) = bs at all blocks
  cases all with
  | cons first later =>
    rw [List.map_cons] at blocks
    obtain ⟨words, -⟩ := List.cons.inj blocks
    obtain ⟨-, listed⟩ := first
    refine ((listed ?_).2.2 options).trans (by rw [words])
    intro l here
    have mem : l.mnemonic ∈ ["gosub", "evt_chain"] := words ▸ List.mem_map_of_mem here
    rintro bytes
    rw [bytes] at mem
    exact absurd mem (by decide)

end RoomScript.Listing
