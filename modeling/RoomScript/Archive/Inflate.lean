/-!
# Unpacking deflated data

Deflated data is a stream of bits, low bits first, in blocks.  A block is stored as it is, or coded
with prefix codes that are fixed or given at its start.  A coded block is a sequence of bytes and of
references to bytes before.

* `Bits` is a position in the stream; `Bits.left` bounds what is still to be read, and it decreases
  with every symbol, which is why unpacking ends;
* `Code` is a prefix code given by its code lengths;
* `inflate` unpacks a stream, and returns what it had unpacked when it met a fault.
-/

namespace RoomScript.Archive

/-- Why unpacking stops. -/
inductive InflateFault where
  /-- The stream ends within a block. -/
  | unexpectedEnd
  /-- The stream is not well formed; so many bytes of it had been taken. -/
  | corrupt (offset : Nat)
  deriving DecidableEq, Repr

/-! ## Bits -/

/-- A position in a stream of bits. -/
structure Bits where
  data : ByteArray
  /-- The number of bits read. -/
  position : Nat := 0
  /-- The number of bytes taken from the stream. -/
  taken : Nat := 0

namespace Bits

/-- The number of bits not read yet. -/
def left (s : Bits) : Nat :=
  8 * s.data.size - s.position

/-- The byte at a place, zero behind the end. -/
def byteAt (data : ByteArray) (place : Nat) : UInt8 :=
  if h : place < data.size then data[place] else 0

/-- The number made of `count` bits from a place on, low bits first. -/
def valueAt (data : ByteArray) (place : Nat) : Nat → Nat
  | 0 => 0
  | count + 1 =>
    (byteAt data (place / 8)).toNat >>> (place % 8) % 2 + 2 * valueAt data (place + 1) count

/-- Take bytes until `count` bits are at hand. -/
def need (s : Bits) (count : Nat) : Except InflateFault Bits :=
  if s.position + count > 8 * s.data.size then .error .unexpectedEnd
  else .ok { s with taken := max s.taken ((s.position + count + 7) / 8) }

/-- Read a number of `count` bits. -/
def read (s : Bits) (count : Nat) : Except InflateFault (Nat × Bits) :=
  if s.position + count > 8 * s.data.size then .error .unexpectedEnd
  else
    .ok (valueAt s.data s.position count,
      { s with position := s.position + count,
               taken := max s.taken ((s.position + count + 7) / 8) })

/-- Go on to the next whole byte. -/
def align (s : Bits) : Bits :=
  { s with position := (s.position + 7) / 8 * 8 }

theorem left_need {s s' : Bits} {count : Nat} (h : s.need count = .ok s') : s'.left = s.left := by
  unfold need at h
  split at h
  · simp at h
  · injection h with h
    subst h
    rfl

theorem left_read {s s' : Bits} {count value : Nat} (h : s.read count = .ok (value, s')) :
    s'.left + count = s.left := by
  unfold read at h
  split at h
  · simp at h
  · simp only [Except.ok.injEq, Prod.mk.injEq] at h
    obtain ⟨-, rfl⟩ := h
    simp only [left]
    omega

theorem left_align_le (s : Bits) : s.align.left ≤ s.left := by
  simp only [align, left]
  omega

end Bits

/-! ## Prefix codes -/

/-- A prefix code.  Codes of one length are consecutive numbers, shorter codes coming first. -/
structure Code where
  /-- How many codes there are of length one, two, and so on. -/
  counts : List Nat
  /-- The symbols in the order of their codes. -/
  symbols : Array Nat
  /-- How many bits are taken at least before a symbol is read. -/
  least : Nat

namespace Code

/-- The code in which symbol `i` has a code of the `i`-th length, zero standing for no code.  All
bit sequences have to be in use, unless there is only one symbol, with a code of one bit. -/
def ofLengths? (lengths : List Nat) : Option Code :=
  let longest := lengths.foldl max 0
  let counts := (List.range longest).map fun n => lengths.count (n + 1)
  let used := counts.foldl (fun code count => 2 * code + count) 0
  if longest ≠ 0 ∧ used ≠ Nat.pow 2 longest ∧ ¬(used = 1 ∧ longest = 1) then none
  else
    let symbols := (List.range longest).flatMap fun n =>
      lengths.zipIdx.filterMap fun (length, symbol) => if length = n + 1 then some symbol else none
    some { counts, symbols := symbols.toArray, least := counts.findIdx (· ≠ 0) + min longest 1 }

/-- Read the rest of a code, given the bits so far, the first code of their length and the number of
shorter codes. -/
def symbolFrom (symbols : Array Nat) :
    List Nat → (code first shorter : Nat) → Bits → Except InflateFault (Nat × Bits)
  | [], _, _, _, s => .error (.corrupt s.taken)
  | count :: rest, code, first, shorter, s =>
    match s.read 1 with
    | .error e => .error e
    | .ok (bit, s) =>
      if code + bit < first + count then
        .ok (symbols.getD (shorter + (code + bit - first)) 0, s)
      else
        symbolFrom symbols rest (2 * (code + bit)) (2 * (first + count)) (shorter + count) s

/-- Read a symbol. -/
def symbol (c : Code) (s : Bits) : Except InflateFault (Nat × Bits) :=
  match s.need c.least with
  | .error e => .error e
  | .ok s => symbolFrom c.symbols c.counts 0 0 0 s

theorem left_symbolFrom_lt {symbols : Array Nat} {counts : List Nat} {code first shorter v : Nat}
    {s s' : Bits} (h : symbolFrom symbols counts code first shorter s = .ok (v, s')) :
    s'.left < s.left := by
  induction counts generalizing code first shorter s with
  | nil => simp [symbolFrom] at h
  | cons count rest ih =>
    simp only [symbolFrom] at h
    split at h
    · simp at h
    · rename_i bit t read
      have step := Bits.left_read read
      split at h
      · simp only [Except.ok.injEq, Prod.mk.injEq] at h
        obtain ⟨-, rfl⟩ := h
        omega
      · have := ih h
        omega

theorem left_symbol_lt {c : Code} {s s' : Bits} {v : Nat} (h : c.symbol s = .ok (v, s')) :
    s'.left < s.left := by
  unfold symbol at h
  split at h
  · simp at h
  · rename_i t needed
    have := left_symbolFrom_lt h
    rwa [Bits.left_need needed] at this

end Code

/-! ## Coded blocks -/

/-- One item of a coded block. -/
inductive Item where
  | byte (b : UInt8)
  /-- Repeat `length` bytes that stand `distance` bytes back. -/
  | copy (length distance : Nat)
  /-- The end of the block. -/
  | stop

/-- The least length of each length symbol and the number of bits added to it. -/
def lengthBases : Array (Nat × Nat) := #[
  (3, 0), (4, 0), (5, 0), (6, 0), (7, 0), (8, 0), (9, 0), (10, 0), (11, 1), (13, 1), (15, 1),
  (17, 1), (19, 2), (23, 2), (27, 2), (31, 2), (35, 3), (43, 3), (51, 3), (59, 3), (67, 4),
  (83, 4), (99, 4), (115, 4), (131, 5), (163, 5), (195, 5), (227, 5), (258, 0)]

/-- The least distance of each distance symbol and the number of bits added to it. -/
def distanceBases : Array (Nat × Nat) := #[
  (1, 0), (2, 0), (3, 0), (4, 0), (5, 1), (7, 1), (9, 2), (13, 2), (17, 3), (25, 3), (33, 4),
  (49, 4), (65, 5), (97, 5), (129, 6), (193, 6), (257, 7), (385, 7), (513, 8), (769, 8),
  (1025, 9), (1537, 9), (2049, 10), (3073, 10), (4097, 11), (6145, 11), (8193, 12), (12289, 12),
  (16385, 13), (24577, 13)]

/-- Read a number that a symbol gives the base of. -/
def readBased (bases : Array (Nat × Nat)) (symbol : Nat) (s : Bits) :
    Except InflateFault (Nat × Bits) :=
  match bases[symbol]? with
  | none => .error (.corrupt s.taken)
  | some (base, extra) =>
    match s.read extra with
    | .error e => .error e
    | .ok (more, s) => .ok (base + more, s)

theorem left_readBased_le {bases : Array (Nat × Nat)} {symbol v : Nat} {s s' : Bits}
    (h : readBased bases symbol s = .ok (v, s')) : s'.left ≤ s.left := by
  unfold readBased at h
  split at h
  · simp at h
  · split at h
    · simp at h
    · rename_i read
      have := Bits.left_read read
      simp only [Except.ok.injEq, Prod.mk.injEq] at h
      obtain ⟨-, rfl⟩ := h
      omega

/-- Read the distance of a reference whose length is known. -/
def readDistance (distances : Code) (length : Nat) (s : Bits) : Except InflateFault (Item × Bits) :=
  match distances.symbol s with
  | .error e => .error e
  | .ok (symbol, s) =>
    match readBased distanceBases symbol s with
    | .error e => .error e
    | .ok (distance, s) => .ok (.copy length distance, s)

/-- Read an item. -/
def readItem (literals distances : Code) (s : Bits) : Except InflateFault (Item × Bits) :=
  match literals.symbol s with
  | .error e => .error e
  | .ok (symbol, s) =>
    if symbol < 256 then .ok (.byte symbol.toUInt8, s)
    else if symbol = 256 then .ok (.stop, s)
    else
      match readBased lengthBases (symbol - 257) s with
      | .error e => .error e
      | .ok (length, s) => readDistance distances length s

theorem left_readDistance_le {distances : Code} {length : Nat} {s s' : Bits} {item : Item}
    (h : readDistance distances length s = .ok (item, s')) : s'.left ≤ s.left := by
  unfold readDistance at h
  split at h
  · simp at h
  · rename_i symbol
    have first := Code.left_symbol_lt symbol
    split at h
    · simp at h
    · rename_i based
      have second := left_readBased_le based
      simp only [Except.ok.injEq, Prod.mk.injEq] at h
      obtain ⟨-, rfl⟩ := h
      omega

/-- Every item takes at least one bit. -/
theorem left_readItem_lt {literals distances : Code} {s s' : Bits} {item : Item}
    (h : readItem literals distances s = .ok (item, s')) : s'.left < s.left := by
  unfold readItem at h
  split at h
  · simp at h
  · rename_i symbol
    have first := Code.left_symbol_lt symbol
    split at h
    · simp only [Except.ok.injEq, Prod.mk.injEq] at h
      obtain ⟨-, rfl⟩ := h
      exact first
    · split at h
      · simp only [Except.ok.injEq, Prod.mk.injEq] at h
        obtain ⟨-, rfl⟩ := h
        exact first
      · split at h
        · simp at h
        · rename_i based
          exact Nat.lt_of_le_of_lt
            (Nat.le_trans (left_readDistance_le h) (left_readBased_le based)) first

/-- Repeat `length` bytes that stand `distance` bytes back.  Bytes that are added may be repeated in
their turn. -/
def repeatBytes (out : ByteArray) (distance : Nat) : Nat → ByteArray
  | 0 => out
  | length + 1 => repeatBytes (out.push (Bits.byteAt out (out.size - distance))) distance length

/-- How far back a reference can reach. -/
def window : Nat := 32768

/-- Unpack a coded block behind `out`. -/
def codedBlock (literals distances : Code) (s : Bits) (out : ByteArray) :
    ByteArray × Except InflateFault Bits :=
  match _item : readItem literals distances s with
  | .error e => (out, .error e)
  | .ok (.stop, s') => (out, .ok s')
  | .ok (.byte b, s') => codedBlock literals distances s' (out.push b)
  | .ok (.copy length distance, s') =>
    if distance > min out.size window then (out, .error (.corrupt s'.taken))
    else codedBlock literals distances s' (repeatBytes out distance length)
termination_by s.left
decreasing_by
  · exact left_readItem_lt _item
  · exact left_readItem_lt _item

theorem left_codedBlock_le {literals distances : Code} {s s' : Bits} {out out' : ByteArray}
    (h : codedBlock literals distances s out = (out', .ok s')) : s'.left ≤ s.left := by
  fun_induction codedBlock literals distances s out with
  | case1 => simp at h
  | case2 s out t item =>
    have := left_readItem_lt item
    simp only [Prod.mk.injEq, Except.ok.injEq] at h
    obtain ⟨-, rfl⟩ := h
    omega
  | case3 s out b t item ih =>
    have := left_readItem_lt item
    have := ih h
    omega
  | case4 => simp at h
  | case5 s out length distance t item _ ih =>
    have := left_readItem_lt item
    have := ih h
    omega

/-! ## Blocks -/

/-- The fixed codes. -/
def fixedLiterals : Code :=
  (Code.ofLengths? (List.replicate 144 8 ++ List.replicate 112 9 ++ List.replicate 24 7 ++
    List.replicate 8 8)).getD ⟨[], #[], 0⟩

def fixedDistances : Code :=
  (Code.ofLengths? (List.replicate 32 5)).getD ⟨[], #[], 0⟩

/-- The order in which the lengths of the length code are given. -/
def lengthOrder : List Nat :=
  [16, 17, 18, 0, 8, 7, 9, 6, 10, 5, 11, 4, 12, 3, 13, 2, 14, 1, 15]

/-- Read `count` numbers of three bits. -/
def readTriples (s : Bits) : Nat → Except InflateFault (List Nat × Bits)
  | 0 => .ok ([], s)
  | count + 1 =>
    match s.read 3 with
    | .error e => .error e
    | .ok (n, s) =>
      match readTriples s count with
      | .error e => .error e
      | .ok (ns, s) => .ok (n :: ns, s)

theorem left_readTriples_le {s s' : Bits} {count : Nat} {ns : List Nat}
    (h : readTriples s count = .ok (ns, s')) : s'.left ≤ s.left := by
  induction count generalizing s s' ns with
  | zero =>
    simp only [readTriples, Except.ok.injEq, Prod.mk.injEq] at h
    obtain ⟨-, rfl⟩ := h
    exact Nat.le_refl _
  | succ count ih =>
    simp only [readTriples] at h
    split at h
    · simp at h
    · rename_i read
      have first := Bits.left_read read
      split at h
      · simp at h
      · rename_i more
        have second := ih more
        simp only [Except.ok.injEq, Prod.mk.injEq] at h
        obtain ⟨-, rfl⟩ := h
        omega

/-- Read `total` code lengths.  Three symbols stand for repetitions: of the length before, and of
zeros. -/
def readLengths (code : Code) (total : Nat) (s : Bits) (lengths : Array Nat) :
    Except InflateFault (Array Nat × Bits) :=
  if lengths.size ≥ total then .ok (lengths, s)
  else
    match _symbol : code.symbol s with
    | .error e => .error e
    | .ok (symbol, s') =>
      if symbol < 16 then readLengths code total s' (lengths.push symbol)
      else
        let (least, extra) := if symbol = 16 then (3, 2) else if symbol = 17 then (3, 3) else (11, 7)
        match if symbol = 16 then lengths.back? else some 0 with
        | none => .error (.corrupt s'.taken)
        | some length =>
          match _read : s'.read extra with
          | .error e => .error e
          | .ok (more, s'') =>
            if lengths.size + least + more > total then .error (.corrupt s''.taken)
            else
              readLengths code total s'' (lengths ++ (List.replicate (least + more) length).toArray)
termination_by s.left
decreasing_by
  · exact Code.left_symbol_lt _symbol
  · have first := Code.left_symbol_lt _symbol
    have second := Bits.left_read _read
    omega

theorem left_readLengths_le {code : Code} {total : Nat} {s s' : Bits} {lengths result : Array Nat}
    (h : readLengths code total s lengths = .ok (result, s')) : s'.left ≤ s.left := by
  fun_induction readLengths code total s lengths with
  | case1 =>
    simp only [Except.ok.injEq, Prod.mk.injEq] at h
    obtain ⟨-, rfl⟩ := h
    exact Nat.le_refl _
  | case2 => simp at h
  | case3 s lengths _ symbol t read _ ih =>
    have := Code.left_symbol_lt read
    have := ih h
    omega
  | case4 => simp at h
  | case5 => simp at h
  | case6 => simp at h
  | case7 s lengths _ symbol t read _ _ _ _ _ _ _ more _ _ ih =>
    have := Code.left_symbol_lt read
    have := Bits.left_read (by assumption)
    have := ih h
    omega

/-- The codes at the start of a block: one for bytes and lengths, one for distances. -/
def codesOf (literalCount : Nat) (lengths : List Nat) : Option (Code × Code) :=
  match Code.ofLengths? (lengths.take literalCount), Code.ofLengths? (lengths.drop literalCount) with
  | some literals, some distances =>
    some ({ literals with least := max literals.least (lengths.getD 256 0) }, distances)
  | _, _ => none

/-- Read the codes at the start of a block. -/
def readCodes (s : Bits) : Except InflateFault ((Code × Code) × Bits) :=
  match s.read 14 with
  | .error e => .error e
  | .ok (header, s) =>
    let literalCount := header % 32 + 257
    let distanceCount := header / 32 % 32 + 1
    let lengthCount := header / 1024 + 4
    if literalCount > 286 ∨ distanceCount > 30 then .error (.corrupt s.taken)
    else
      match readTriples s lengthCount with
      | .error e => .error e
      | .ok (given, s) =>
        let pairs := lengthOrder.zip given
        match Code.ofLengths? ((List.range 19).map fun n => (pairs.lookup n).getD 0) with
        | none => .error (.corrupt s.taken)
        | some code =>
          match readLengths code (literalCount + distanceCount) s #[] with
          | .error e => .error e
          | .ok (lengths, s) =>
            match codesOf literalCount lengths.toList with
            | none => .error (.corrupt s.taken)
            | some codes => .ok (codes, s)

theorem left_readCodes_le {s s' : Bits} {codes : Code × Code}
    (h : readCodes s = .ok (codes, s')) : s'.left ≤ s.left := by
  unfold readCodes at h
  split at h
  · simp at h
  · rename_i read
    have first := Bits.left_read read
    simp only at h
    split at h
    · simp at h
    · split at h
      · simp at h
      · rename_i triples
        have second := left_readTriples_le triples
        split at h
        · simp at h
        · split at h
          · simp at h
          · rename_i lengths
            have third := left_readLengths_le lengths
            split at h
            · simp at h
            · simp only [Except.ok.injEq, Prod.mk.injEq] at h
              obtain ⟨-, rfl⟩ := h
              omega

/-- Unpack a stored block behind `out`: two lengths that complement each other, and bytes. -/
def storedBlock (s : Bits) (out : ByteArray) : ByteArray × Except InflateFault Bits :=
  match s.align.read 32 with
  | .error e => (out, .error e)
  | .ok (header, s) =>
    let length := header % 0x10000
    if header / 0x10000 ≠ 0xFFFF - length then (out, .error (.corrupt s.taken))
    else
      let start := s.position / 8
      let out := out ++ s.data.extract start (start + length)
      if start + length > s.data.size then (out, .error .unexpectedEnd)
      else
        (out, .ok { s with position := s.position + 8 * length, taken := start + length })

theorem left_storedBlock_le {s s' : Bits} {out out' : ByteArray}
    (h : storedBlock s out = (out', .ok s')) : s'.left ≤ s.left := by
  have aligned := s.left_align_le
  unfold storedBlock at h
  split at h
  · simp at h
  · rename_i read
    have first := Bits.left_read read
    simp only at h
    split at h
    · simp at h
    · split at h
      · simp at h
      · simp only [Prod.mk.injEq, Except.ok.injEq] at h
        obtain ⟨-, rfl⟩ := h
        simp only [Bits.left] at first aligned ⊢
        omega

/-- Unpack a block of a kind behind `out`. -/
def block (kind : Nat) (s : Bits) (out : ByteArray) : ByteArray × Except InflateFault Bits :=
  match kind with
  | 0 => storedBlock s out
  | 1 => codedBlock fixedLiterals fixedDistances s out
  | 2 =>
    match readCodes s with
    | .error e => (out, .error e)
    | .ok ((literals, distances), s) => codedBlock literals distances s out
  | _ => (out, .error (.corrupt s.taken))

theorem left_block_le {kind : Nat} {s s' : Bits} {out out' : ByteArray}
    (h : block kind s out = (out', .ok s')) : s'.left ≤ s.left := by
  unfold block at h
  split at h
  · exact left_storedBlock_le h
  · exact left_codedBlock_le h
  · split at h
    · simp at h
    · rename_i codes
      exact Nat.le_trans (left_codedBlock_le h) (left_readCodes_le codes)
  · simp at h

/-- Unpack blocks behind `out`, up to the one that is marked as the last. -/
def blocks (s : Bits) (out : ByteArray) : ByteArray × Option InflateFault :=
  match _header : s.read 3 with
  | .error e => (out, some e)
  | .ok (header, s') =>
    match _block : block (header / 2) s' out with
    | (out, .error e) => (out, some e)
    | (out, .ok s'') => if header % 2 = 1 then (out, none) else blocks s'' out
termination_by s.left
decreasing_by
  have first := Bits.left_read _header
  have second := left_block_le _block
  omega

/-- Unpack a stream.  What has been unpacked before a fault is returned with it. -/
def inflate (data : ByteArray) : ByteArray × Option InflateFault :=
  blocks { data } ByteArray.empty

end RoomScript.Archive
