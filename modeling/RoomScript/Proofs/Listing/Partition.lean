import RoomScript.Proofs.Listing.Lines

/-!
# A listing partitions the bytes of a procedure

The bytes of a procedure are walked through one instruction after the other, as far as the next one
has a size and is all there.  What is left is kept as raw bytes.  With offsets shown, every line of
the listing shows where the bytes begin that it stands for.

* `Complete` are the bytes that are whole instructions and `Stops` says why a walk ends, so
  `cut_split` is the walk, and `Complete.prefix_of_stops` says that it goes as far as it can;
* `Row` is a line with its bytes, and `Covers` are lines that stand for adjacent bytes;
* `exists_partition` puts both together.
-/

namespace RoomScript.Listing

open Assembly

/-! ## The walk -/

/-- Bytes that are whole instructions of known size, one after the other. -/
inductive Complete : List UInt8 → Prop
  | nil : Complete []
  | instruction {opcode : UInt8} {operands later : List UInt8}
    (length : operands.length + 1 = Opcode.size opcode) (rest : Complete later) :
    Complete (opcode :: (operands ++ later))

/-- Why a walk ends in front of bytes at an offset, with its report: all is read, or the next
instruction has no known size, or bytes of it are missing. -/
inductive Stops (offset : ℕ) : List UInt8 → Option Diagnostic → Prop
  | finished : Stops offset [] none
  | unknown {opcode : UInt8} {rest : List UInt8} (unsized : Opcode.size opcode = 0) :
    Stops offset (opcode :: rest) (some (unknownSize opcode offset))
  | truncated {opcode : UInt8} {rest : List UInt8}
    (short : (opcode :: rest).length < Opcode.size opcode) :
    Stops offset (opcode :: rest)
      (some (truncated opcode offset (Opcode.size opcode) (opcode :: rest).length))

theorem Stops.eq_none_iff {offset : ℕ} {rest : List UInt8} {report : Option Diagnostic}
    (stops : Stops offset rest report) : report = none ↔ rest = [] := by
  cases stops <;> simp

/-- A walk goes as far as whole instructions reach. -/
theorem Complete.prefix_of_stops {q q' rest : List UInt8} {offset : ℕ} {report : Option Diagnostic}
    (stops : Stops offset rest report) (complete : Complete q) (other : Complete q')
    (begins : q' <+: q ++ rest) : q' <+: q := by
  induction complete generalizing q' with
  | nil =>
    cases other with
    | nil => exact List.prefix_rfl
    -- The bytes that are left begin with no whole instruction.
    | @instruction opcode' operands' later' length _ =>
      obtain ⟨behind, bytes⟩ := begins
      rw [List.nil_append] at bytes
      subst bytes
      rcases stops with _ | unsized | short
      · omega
      · have whole :
            (opcode' :: (operands' ++ later') ++ behind).length < Opcode.size opcode' := short
        simp only [List.length_append, List.length_cons] at whole
        omega
  | @instruction opcode operands later length _ ih =>
    cases other with
    | nil => exact List.nil_prefix
    | @instruction opcode' operands' later' length' other =>
      rw [List.cons_append, List.append_assoc] at begins
      obtain ⟨rfl, inside⟩ := List.cons_prefix_cons.1 begins
      have front := (List.prefix_append _ _).trans inside
      have same := List.prefix_of_prefix_length_le front (List.prefix_append _ _) (by omega)
      obtain rfl := same.eq_of_length (by omega)
      exact List.cons_prefix_cons.2 ⟨rfl, (List.prefix_append_right_inj _).2
        (ih other ((List.prefix_append_right_inj _).1 inside))⟩

/-- The piece that bytes are kept as where the walk ends. -/
def leftover (rest : List UInt8) : List Piece :=
  if rest = [] then [] else [.raw rest]

theorem leftover_cons (b : UInt8) (rest : List UInt8) : leftover (b :: rest) = [.raw (b :: rest)] :=
  rfl

theorem cutOnto_split (offset : ℕ) (data : List UInt8) (out : Array Piece) :
    ∃ pieces q rest, data = q ++ rest ∧ Complete q ∧ pieces.flatMap Piece.bytes = q ∧
      (∀ p ∈ pieces, p.Whole) ∧
      (cutOnto offset data out).1.toList = out.toList ++ (pieces ++ leftover rest) ∧
      Stops (offset + q.length) rest (cutOnto offset data out).2 := by
  fun_induction cutOnto offset data out with
  | case1 offset out => exact ⟨[], [], [], rfl, .nil, rfl, by simp, by simp [leftover], .finished⟩
  | case2 offset out opcode rest size unknown =>
    exact ⟨[], [], _, rfl, .nil, rfl, by simp, by simp [leftover_cons], .unknown unknown⟩
  | case3 offset out opcode rest size known operands short =>
    refine ⟨[], [], _, rfl, .nil, rfl, by simp, by simp [leftover_cons], .truncated ?_⟩
    have taken : operands.length = min (size - 1) rest.length := List.length_take
    rw [List.length_cons]
    omega
  | case4 offset out opcode rest size known operands long piece ih =>
    obtain ⟨pieces, q, left, data, complete, bytes, whole, collected, stops⟩ := ih
    have cut : piece = if (Opcode.signature opcode).isReserved then .raw (opcode :: operands)
      else .instruction opcode operands := rfl
    have sized : size = Opcode.size opcode := rfl
    have taken : operands = rest.take (size - 1) := rfl
    clear_value piece operands size
    have atMost : operands.length ≤ size - 1 := taken ▸ List.length_take_le _ _
    have length : operands.length + 1 = Opcode.size opcode := by omega
    obtain ⟨front, isWhole⟩ := piece_sound length cut
    refine ⟨piece :: pieces, opcode :: (operands ++ q), left, ?_, .instruction length complete, ?_,
      List.forall_mem_cons.2 ⟨isWhole, whole⟩, ?_, ?_⟩
    · rw [List.cons_append, List.append_assoc, ← data, taken, List.take_append_drop]
    · rw [List.flatMap_cons, bytes, front, List.cons_append]
    · rw [collected, Array.toList_push, List.append_assoc, List.singleton_append, List.cons_append]
    · have place : offset + size + q.length = offset + (opcode :: (operands ++ q)).length := by
        rw [List.length_cons, List.length_append]
        omega
      rwa [← place]

/-- The bytes of a procedure are whole instructions as far as these reach, and one raw piece. -/
theorem cut_split (data : List UInt8) :
    ∃ pieces q rest, data = q ++ rest ∧ Complete q ∧ pieces.flatMap Piece.bytes = q ∧
      (∀ p ∈ pieces, p.Whole) ∧ (cut data).1 = pieces ++ leftover rest ∧
      Stops q.length rest (cut data).2 := by
  obtain ⟨pieces, q, rest, bytes, complete, flat, whole, collected, stops⟩ :=
    cutOnto_split 0 data #[]
  rw [Nat.zero_add] at stops
  exact ⟨pieces, q, rest, bytes, complete, flat, whole, by simpa [cut] using collected, stops⟩

/-! ## Lines with their bytes -/

/-- A line of a listing, and bytes. -/
structure Row where
  line : String
  bytes : List UInt8

/-- The text of lines. -/
def rowsText : List Row → String
  | [] => ""
  | r :: rows => r.line ++ "\n" ++ rowsText rows

theorem rowsText_append (rows rows' : List Row) :
    rowsText (rows ++ rows') = rowsText rows ++ rowsText rows' := by
  induction rows with
  | nil => simp [rowsText]
  | cons r rows ih => rw [List.cons_append, rowsText, rowsText, ih, ← String.append_assoc]

/-- Where the bytes of the lines begin, when those of the first one begin at an offset. -/
def starts (offset : ℕ) : List Row → List ℕ
  | [] => []
  | r :: rows => offset :: starts (offset + r.bytes.length) rows

theorem starts_append (offset : ℕ) (rows rows' : List Row) :
    starts offset (rows ++ rows') =
      starts offset rows ++ starts (offset + (rows.flatMap Row.bytes).length) rows' := by
  induction rows generalizing offset with
  | nil => simp [starts]
  | cons r rows ih =>
    rw [List.cons_append, starts, starts, ih, List.flatMap_cons, List.length_append,
      Nat.add_assoc, List.cons_append]

/-- Lines that all stand for some bytes begin at increasing offsets. -/
theorem pairwise_starts (offset : ℕ) {rows : List Row} (filled : ∀ r ∈ rows, r.bytes ≠ []) :
    (starts offset rows).Pairwise (· < ·) ∧ ∀ n ∈ starts offset rows, offset ≤ n := by
  induction rows generalizing offset with
  | nil => simp [starts]
  | cons r rows ih =>
    obtain ⟨first, later⟩ := List.forall_mem_cons.1 filled
    obtain ⟨increasing, atLeast⟩ := ih (offset + r.bytes.length) later
    have some := List.length_pos_of_ne_nil first
    rw [starts, List.pairwise_cons, List.forall_mem_cons]
    refine ⟨⟨fun n mem => ?_, increasing⟩, le_rfl, fun n mem => ?_⟩
    · have := atLeast n mem
      omega
    · have := atLeast n mem
      omega

/-- A line that ends in an offset. -/
def Shows (line : String) (offset : ℕ) : Prop :=
  ∃ body, line = body ++ " ; 0x" ++ Text.hex 4 offset

/-- A line shows one offset only. -/
theorem Shows.unique {line : String} {m n : ℕ} (hm : Shows line m) (hn : Shows line n) : m = n := by
  obtain ⟨body, text⟩ := hm
  obtain ⟨body', text'⟩ := hn
  have noMark : ∀ d < 16, 'x' ≠ (Nat.digitChar d).toUpper := by decide
  have digits (k : ℕ) : ∀ c ∈ (Text.hex 4 k).toList.reverse, (c != 'x') = true := by
    intro c mem
    rw [List.mem_reverse] at mem
    obtain ⟨d, small, rfl⟩ := Text.mem_hex (by omega) mem
    exact bne_iff_ne.2 (noMark d small).symm
  have behind (body : String) (k : ℕ) :
      (body ++ " ; 0x" ++ Text.hex 4 k).toList.reverse.takeWhile (· != 'x') =
        (Text.hex 4 k).toList.reverse := by
    have mark : " ; 0x".toList.reverse = 'x' :: " ; 0".toList.reverse := by decide
    rw [String.toList_append, String.toList_append, List.reverse_append, List.reverse_append, mark]
    exact (Text.span_run (digits k) (by simp)).1
  have same := behind body m
  rw [← text, text', behind body' n, List.reverse_inj, String.toList_inj] at same
  exact Int.ofNat_inj.1 (Text.hex_injective (by omega) (by omega) same.symm)

/-- A line that stands for some bytes and shows where they begin. -/
structure Row.IsAt (offset : ℕ) (r : Row) : Prop where
  inline : Inline r.line.toList
  shows : ∀ n, Shows r.line n ↔ n = offset
  filled : r.bytes ≠ []
  stands : Statements (r.line ++ "\n").toList r.bytes

theorem isAt_of_endLine {options : Options} (offsets : options.offsets = true) {offset : ℕ}
    {body line : String} {bytes : List UInt8} (text : endLine options offset body = line ++ "\n")
    (inline : Inline line.toList) (filled : bytes ≠ [])
    (stands : Statements (endLine options offset body).toList bytes) :
    Row.IsAt offset ⟨line, bytes⟩ := by
  have shows : Shows line offset := by
    rw [endLine, if_pos offsets] at text
    exact ⟨body, ((String.append_left_inj "\n").1 text).symm⟩
  refine ⟨inline, fun n => ⟨fun other => other.unique shows, ?_⟩, filled, text ▸ stands⟩
  rintro rfl
  exact shows

/-- Lines that stand for adjacent bytes from an offset on. -/
structure Covers (offset : ℕ) (bytes : List UInt8) (rows : List Row) : Prop where
  placed : List.Forall₂ Row.IsAt (starts offset rows) rows
  bytes_eq : rows.flatMap Row.bytes = bytes

namespace Covers

variable {offset : ℕ} {bytes bytes' : List UInt8} {rows rows' : List Row}

theorem nil (offset : ℕ) : Covers offset [] [] :=
  ⟨.nil, rfl⟩

theorem row {line : String} (isAt : Row.IsAt offset ⟨line, bytes⟩) :
    Covers offset bytes [⟨line, bytes⟩] :=
  ⟨.cons isAt .nil, by simp⟩

theorem append (first : Covers offset bytes rows)
    (second : Covers (offset + bytes.length) bytes' rows') :
    Covers offset (bytes ++ bytes') (rows ++ rows') := by
  constructor
  · rw [starts_append, first.bytes_eq]
    exact List.rel_append first.placed second.placed
  · rw [List.flatMap_append, first.bytes_eq, second.bytes_eq]

theorem isAt (covers : Covers offset bytes rows) : ∀ r ∈ rows, ∃ n, r.IsAt n := by
  have placed := covers.placed
  clear covers
  generalize starts offset rows = ns at placed
  induction placed with
  | nil => simp
  | cons first _ ih => exact List.forall_mem_cons.2 ⟨⟨_, first⟩, ih⟩

/-- The lines are found in their text again. -/
theorem linesOf_rowsText (covers : Covers offset bytes rows) :
    linesOf (rowsText rows) = rows.map Row.line := by
  have isAt := covers.isAt
  clear covers
  induction rows with
  | nil => rfl
  | cons r rows ih =>
    obtain ⟨⟨_, first⟩, later⟩ := List.forall_mem_cons.1 isAt
    rw [rowsText, linesOf_append first.inline, ih later, List.map_cons]

end Covers

/-! ## The lines of a procedure -/

section Lines

variable {options : Options}

/-- A line of raw bytes begins with the directive for them. -/
theorem exists_rawLine (options : Options) (depth offset : ℕ) (bytes : List UInt8) :
    ∃ line, endLine options offset (rawLine depth bytes) = line ++ "\n" ∧ Inline line.toList ∧
      firstWord line = ".db" := by
  obtain ⟨ending, text, within, -⟩ := exists_endLine options offset (rawLine depth bytes)
  have blank := isLineBlank_of_mem_indent depth
  have numbers : Inline
      (", ".intercalate (bytes.map fun b => "0x" ++ Text.hex 2 b.toNat)).toList := by
    refine inline_intercalate (by decide) fun text mem => ?_
    obtain ⟨b, -, rfl⟩ := List.mem_map.1 mem
    rw [String.toList_append]
    exact Inline.append (by decide) (inline_hex 2 _)
  have blankInline : Inline [' '] := by
    decide
  have solid : ∀ c ∈ ".db".toList, isLineBlank c = false := by
    have all : ".db".toList.all (! isLineBlank ·) = true := by decide
    simpa using all
  have chars : rawLine depth bytes ++ ending = String.ofList ((indent depth).toList ++
      (".db".toList ++ (' ' :: (", ".intercalate
        (bytes.map fun b => "0x" ++ Text.hex 2 b.toNat)).toList ++ ending.toList))) := by
    rw [rawLine, ← String.toList_inj]
    simp
  refine ⟨_, text, ?_, ?_⟩
  · rw [chars, String.toList_ofList]
    exact (inline_of_blank blank).append (Inline.append (by decide)
      ((blankInline.append numbers).append within))
  · rw [chars, firstWord_append blank solid (by decide) (by rintro c ⟨⟩; rfl), String.ofList_toList]

/-- Raw bytes are listed as lines that stand for them. -/
theorem exists_rawRows (offsets : options.offsets = true) (depth offset : ℕ) (bytes : List UInt8)
    (out : String) :
    ∃ rows, rawOnto options depth offset bytes out = out ++ rowsText rows ∧
      Covers offset bytes rows ∧ ∀ r ∈ rows, firstWord r.line = ".db" := by
  fun_induction rawOnto options depth offset bytes out with
  | case1 offset out => exact ⟨[], by simp [rowsText], .nil offset, by simp⟩
  | case2 offset out b rest ih =>
    obtain ⟨rows, text, covers, words⟩ := ih
    obtain ⟨line, ended, inline, word⟩ :=
      exists_rawLine options depth offset ((b :: rest).take rawPerLine)
    have filled : (b :: rest).take rawPerLine ≠ [] := by simp [rawPerLine]
    have first := Covers.row (isAt_of_endLine offsets ended inline filled
      (statements_rawLine options depth offset filled))
    have joined := first.append covers
    rw [List.take_append_drop] at joined
    refine ⟨_, ?_, joined, List.forall_mem_cons.2 ⟨word, words⟩⟩
    rw [text, ended, List.singleton_append, rowsText, String.append_assoc]

theorem offset_piece (options : Options) (s : State) (p : Piece) :
    (s.piece options p).offset = s.offset + p.bytes.length := by
  cases p with
  | raw bytes => rfl
  | instruction opcode block =>
    show s.offset + 1 + block.length = s.offset + (opcode :: block).length
    rw [List.length_cons]
    omega

/-- A piece is listed as lines that stand for it. -/
theorem exists_pieceRows (offsets : options.offsets = true) (s : State) {p : Piece}
    (whole : p.Whole) :
    ∃ rows, (s.piece options p).text = s.text ++ rowsText rows ∧
      Covers s.offset p.bytes rows := by
  cases p with
  | raw bytes =>
    obtain ⟨rows, text, covers, -⟩ :=
      exists_rawRows offsets s.nesting.depth s.offset bytes s.text
    exact ⟨rows, text, covers⟩
  | instruction opcode block =>
    obtain ⟨line, written, inline, -⟩ := exists_piece options s whole
    obtain ⟨margin, blank, text⟩ := exists_margin options s opcode block
    have ended := (String.append_right_inj s.text).1 (text.symm.trans written)
    refine ⟨[⟨line, opcode :: block⟩], ?_, .row ?_⟩
    · rw [written, rowsText, rowsText, String.append_empty]
    · exact isAt_of_endLine offsets ended inline (List.cons_ne_nil _ _)
        (statements_instruction options s.offset blank whole.1 whole.2)

/-- Pieces are listed as lines that stand for them. -/
theorem exists_rows (offsets : options.offsets = true) (s : State) {pieces : List Piece}
    (whole : ∀ p ∈ pieces, p.Whole) :
    ∃ rows, (pieces.foldl (State.piece options) s).text = s.text ++ rowsText rows ∧
      (pieces.foldl (State.piece options) s).offset =
        s.offset + (pieces.flatMap Piece.bytes).length ∧
      Covers s.offset (pieces.flatMap Piece.bytes) rows := by
  induction pieces generalizing s with
  | nil => exact ⟨[], by simp [rowsText], rfl, .nil _⟩
  | cons p pieces ih =>
    obtain ⟨first, later⟩ := List.forall_mem_cons.1 whole
    obtain ⟨rows, text, covers⟩ := exists_pieceRows offsets s first
    obtain ⟨rows', text', offset', covers'⟩ := ih (s.piece options p) later
    rw [offset_piece] at covers' offset'
    refine ⟨rows ++ rows', ?_, ?_, covers.append covers'⟩
    · rw [List.foldl_cons, text', text, rowsText_append, String.append_assoc]
    · rw [List.foldl_cons, offset', List.flatMap_cons, List.length_append, Nat.add_assoc]

/-- The bytes where the walk ends are listed as they are. -/
theorem exists_leftoverRows (offsets : options.offsets = true) (s : State) (rest : List UInt8) :
    ∃ rows, ((leftover rest).foldl (State.piece options) s).text = s.text ++ rowsText rows ∧
      Covers s.offset rest rows ∧ ∀ r ∈ rows, firstWord r.line = ".db" := by
  cases rest with
  | nil => exact ⟨[], by simp [leftover, rowsText], .nil _, by simp⟩
  | cons b rest => exact exists_rawRows offsets s.nesting.depth s.offset (b :: rest) s.text

end Lines

/-! ## The partition -/

/-- A listed procedure and its bytes: whole instructions `q` as far as these reach, which the lines
`front` stand for, and the bytes `rest`, which the lines `back` stand for. -/
structure Partition (options : Options) (p : Procedure) (q rest : List UInt8)
    (front back : List Row) : Prop where
  data : p.data = q ++ rest
  complete : Complete q
  longest : ∀ q', Complete q' → q' <+: p.data → q' <+: q
  stops : Stops q.length rest (cut p.data).2
  silent : (cut p.data).2 = none ↔ q = p.data
  lines : linesOf (Listing.procedure options p) =
    (".proc " ++ Procedure.defaultName p.kind p.index) :: (front ++ back).map Row.line
  placed : List.Forall₂ Row.IsAt (starts 0 (front ++ back)) (front ++ back)
  increasing : (starts 0 (front ++ back)).Pairwise (· < ·)
  first : p.data ≠ [] → (starts 0 (front ++ back)).head? = some 0
  instructions : front.flatMap Row.bytes = q
  leftover : back.flatMap Row.bytes = rest
  raw : ∀ r ∈ back, firstWord r.line = ".db"

/-- **A listing partitions the bytes of a procedure.**  The walk reads the longest part of the bytes
that is whole instructions, and reports why it stops there if bytes are left.  With offsets shown,
each line stands for some bytes and shows where they begin, the bytes of the lines are adjacent and
together those of the procedure, and the bytes that are left are listed as they are. -/
theorem exists_partition (numeric : Bool) (p : Procedure) :
    ∃ q rest front back, Partition { offsets := true, numeric } p q rest front back := by
  obtain ⟨pieces, q, rest, data, complete, flat, whole, pieces_eq, stops⟩ := cut_split p.data
  have offsets : Options.offsets { offsets := true, numeric } = true := rfl
  obtain ⟨front, text, offset, covers⟩ := exists_rows offsets
    { text := "" ++ ".proc " ++ Procedure.defaultName p.kind p.index ++ "\n" } whole
  rw [flat] at covers offset
  obtain ⟨back, text', covers', raw⟩ := exists_leftoverRows offsets
    (pieces.foldl (State.piece _) _) rest
  rw [offset] at covers'
  have both := covers.append covers'
  have filled : ∀ r ∈ front ++ back, r.bytes ≠ [] := fun r mem =>
    (both.isAt r mem).elim fun _ here => here.filled
  have header : Inline (".proc " ++ Procedure.defaultName p.kind p.index).toList := by
    rw [String.toList_append]
    exact Inline.append (by decide) (inline_defaultName p.kind p.index)
  refine ⟨q, rest, front, back, data, complete, fun q' other begins => ?_, stops, ?_, ?_,
    both.placed, (pairwise_starts 0 filled).1, fun some => ?_, covers.bytes_eq,
    covers'.bytes_eq, raw⟩
  · rw [data] at begins
    exact complete.prefix_of_stops stops other begins
  · rw [stops.eq_none_iff, data]
    simp
  · rw [Listing.procedure, procedureOnto, pieces_eq, List.foldl_append, text', text,
      String.append_assoc, ← rowsText_append, String.empty_append, linesOf_append header,
      both.linesOf_rowsText]
  · cases rows : front ++ back with
    | nil =>
      have bytes := both.bytes_eq
      rw [rows, ← data] at bytes
      exact absurd bytes.symm some
    | cons r rows => rfl

end RoomScript.Listing
