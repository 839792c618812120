import Mathlib.Tactic
import RoomScript.Operand

/-!
# Operands tile their instruction

The operands of an instruction lie one behind the other and leave no byte out, so an operand block
is known from the values of its operands.

* `Operand.encode_decode` gives the bytes of one operand back, `Operand.range_decode` says which
  values operands have, and `Operand.decode_encode_of_mem` that these come back;
* `Operand.Tiles` says that operands lie one behind the other; `Signature.tiles_layout` says so of
  the operands of an instruction;
* `Signature.flatMap_encode_layout` builds a block from the values of its operands, and
  `Signature.slice_of_encode` finds the bytes of a value there;
* `Signature.layout_tiles_block` is the main statement: the layout, the bytes and the values agree.
-/

namespace RoomScript

namespace Operand

/-! ## One operand -/

theorem widthOf_cases (kind : Char) : widthOf kind = 1 ∨ widthOf kind = 2 := by
  unfold widthOf
  split
  · exact .inr rfl
  · exact .inl rfl

/-- An operand of one or two bytes that ends within `size` bytes. -/
structure Within (o : Operand) (size : ℕ) : Prop where
  width : o.width = 1 ∨ o.width = 2
  fits : o.offset + o.width ≤ size

theorem Within.length_slice {o : Operand} {block : List UInt8} (within : o.Within block.length) :
    (o.slice block).length = o.width := by
  have := within.fits
  rw [slice, List.length_take, List.length_drop]
  omega

@[simp] theorem lowByte_toNat (b : UInt8) : lowByte b.toNat = b := by
  have small : b.toNat < 256 := b.toNat_lt
  rw [lowByte, Int.emod_eq_of_lt (by omega) (by omega)]
  simp

theorem lowByte_signedWord (a b : UInt8) :
    lowByte (signedWord (a.toNat + 256 * b.toNat)) = a ∧
      lowByte (signedWord (a.toNat + 256 * b.toNat) / 256) = b := by
  have low : a.toNat < 256 := a.toNat_lt
  have high : b.toNat < 256 := b.toNat_lt
  unfold signedWord lowByte
  split
  · rw [show ((a.toNat + 256 * b.toNat : ℕ) : ℤ) % 256 = a.toNat by omega,
      show ((a.toNat + 256 * b.toNat : ℕ) : ℤ) / 256 % 256 = b.toNat by omega]
    simp
  · rw [show (((a.toNat + 256 * b.toNat : ℕ) : ℤ) - 0x10000) % 256 = a.toNat by omega,
      show (((a.toNat + 256 * b.toNat : ℕ) : ℤ) - 0x10000) / 256 % 256 = b.toNat by omega]
    simp

theorem lowByte_word (a b : UInt8) :
    lowByte ((a.toNat + 256 * b.toNat : ℕ) : ℤ) = a ∧
      lowByte (((a.toNat + 256 * b.toNat : ℕ) : ℤ) / 256) = b := by
  have low : a.toNat < 256 := a.toNat_lt
  have high : b.toNat < 256 := b.toNat_lt
  unfold lowByte
  rw [show ((a.toNat + 256 * b.toNat : ℕ) : ℤ) % 256 = a.toNat by omega,
    show ((a.toNat + 256 * b.toNat : ℕ) : ℤ) / 256 % 256 = b.toNat by omega]
  simp

/-- The value of an operand has the operand's bytes. -/
theorem encode_decode {o : Operand} (width : o.width = 1 ∨ o.width = 2) {bytes : List UInt8}
    (length : bytes.length = o.width) : o.encode (o.decode bytes) = bytes := by
  rcases width with width | width
  · obtain ⟨b, rfl⟩ := List.length_eq_one_iff.1 (length.trans width)
    simp [encode, decode, width]
  · obtain ⟨a, b, rfl⟩ := List.length_eq_two.1 (length.trans width)
    rw [encode, if_pos width]
    simp only [decode, if_pos width, List.getD_cons_zero, List.getD_cons_succ]
    split
    · rw [(lowByte_signedWord a b).1, (lowByte_signedWord a b).2]
    · rw [(lowByte_word a b).1, (lowByte_word a b).2]

/-- The value of an operand is one that the operand accepts. -/
theorem decode_mem_Icc (o : Operand) (bytes : List UInt8) :
    o.low ≤ o.decode bytes ∧ o.decode bytes ≤ o.high := by
  have low : (bytes.getD 0 0).toNat < 256 := UInt8.toNat_lt _
  have high : (bytes.getD 1 0).toNat < 256 := UInt8.toNat_lt _
  unfold Operand.low Operand.high decode
  simp only
  split
  · split
    · unfold signedWord
      split <;> omega
    · omega
  · omega

theorem decode_nonneg {o : Operand} (unsigned : o.signed = false) (bytes : List UInt8) :
    0 ≤ o.decode bytes := by
  simp only [decode, unsigned]
  split
  · show (0 : ℤ) ≤ (_ : ℕ)
    omega
  · omega

theorem decode_lt {o : Operand} (width : o.width = 1) (bytes : List UInt8) :
    o.decode bytes < 256 := by
  have small : (bytes.getD 0 0).toNat < 256 := UInt8.toNat_lt _
  rw [decode, if_neg (by omega)]
  omega

theorem toNat_lowByte (v : ℤ) : ((lowByte v).toNat : ℤ) = v % 256 := by
  have low := Int.emod_nonneg v (show (256 : ℤ) ≠ 0 by decide)
  have high := Int.emod_lt_of_pos v (show (0 : ℤ) < 256 by decide)
  rw [lowByte, UInt8.toNat_ofNat', Nat.mod_eq_of_lt (by omega)]
  omega

theorem length_encode {o : Operand} (width : o.width = 1 ∨ o.width = 2) (v : ℤ) :
    (o.encode v).length = o.width := by
  unfold encode
  rcases width with width | width <;> simp [width]

/-- A value comes back up to what the operand's bits leave out. -/
theorem decode_encode {o : Operand} (width : o.width = 1 ∨ o.width = 2) (v : ℤ) :
    o.decode (o.encode v) ≡ v [ZMOD 2 ^ (8 * o.width)] := by
  rcases width with width | width
  · have byte := toNat_lowByte v
    simp only [decode, encode, width, Nat.reduceEqDiff, if_false, List.getD_cons_zero]
    show ((lowByte v).toNat : ℤ) % 256 = v % 256
    omega
  · have low := toNat_lowByte v
    have high := toNat_lowByte (v / 256)
    simp only [decode, encode, width, if_true, List.getD_cons_zero, List.getD_cons_succ]
    -- The two bytes are the number modulo its range, with or without a sign.
    have word : (((lowByte v).toNat + 256 * (lowByte (v / 256)).toNat : ℕ) : ℤ) = v % 0x10000 := by
      push_cast
      omega
    show (_ : ℤ) % 0x10000 = v % 0x10000
    unfold signedWord
    split_ifs <;> omega

/-! ## The values of an operand -/

/-- The least value that bytes of an operand have. -/
def least (o : Operand) : ℤ :=
  if o.width = 2 ∧ o.signed = true then -0x8000 else 0

/-- The values of an operand lie in an interval that is as long as there are values of its bits. -/
theorem decode_mem_Ico {o : Operand} (width : o.width = 1 ∨ o.width = 2) (bytes : List UInt8) :
    o.decode bytes ∈ Set.Ico o.least (o.least + 2 ^ (8 * o.width)) := by
  have low : (bytes.getD 0 0).toNat < 256 := UInt8.toNat_lt _
  have high : (bytes.getD 1 0).toNat < 256 := UInt8.toNat_lt _
  rw [Set.mem_Ico]
  rcases width with width | width
  · simp only [decode, least, width, Nat.reduceEqDiff, false_and, if_false, Nat.reduceMul,
      Int.reducePow]
    omega
  · cases sign : o.signed <;>
      simp only [decode, least, width, sign, signedWord, Bool.false_eq_true, and_false, and_self,
        if_true, if_false, Nat.reduceMul, Int.reducePow]
    · omega
    · split <;> omega

/-- A value that an operand's bytes can have comes back. -/
theorem decode_encode_of_mem {o : Operand} (width : o.width = 1 ∨ o.width = 2) {v : ℤ}
    (mem : v ∈ Set.Ico o.least (o.least + 2 ^ (8 * o.width))) : o.decode (o.encode v) = v := by
  obtain ⟨low, high⟩ := mem
  obtain ⟨low', high'⟩ := decode_mem_Ico width (o.encode v)
  -- Two numbers of the interval with the same bits are less than its length apart.
  have apart : |v - o.decode (o.encode v)| < 2 ^ (8 * o.width) := by
    rw [abs_lt]
    omega
  have zero := Int.eq_zero_of_abs_lt_dvd (decode_encode width v).dvd apart
  omega

/-- The values of an operand are all numbers of the interval. -/
theorem range_decode {o : Operand} (width : o.width = 1 ∨ o.width = 2) :
    Set.range o.decode = Set.Ico o.least (o.least + 2 ^ (8 * o.width)) := by
  refine Set.Subset.antisymm (Set.range_subset_iff.2 (decode_mem_Ico width)) fun v mem => ?_
  exact ⟨o.encode v, decode_encode_of_mem width mem⟩

/-! ## Operands in a row -/

/-- Operands that lie one behind the other and take the bytes from one place up to another. -/
inductive Tiles : ℕ → ℕ → List Operand → Prop
  | nil (place : ℕ) : Tiles place place []
  | cons {o : Operand} {stop : ℕ} {rest : List Operand}
      (tiles : Tiles (o.offset + o.width) stop rest) : Tiles o.offset stop (o :: rest)

namespace Tiles

variable {start middle stop : ℕ} {operands more : List Operand}

theorem append (first : Tiles start middle operands) (second : Tiles middle stop more) :
    Tiles start stop (operands ++ more) := by
  induction first with
  | nil => exact second
  | cons _ ih => exact .cons (ih second)

/-- The widths add up to the bytes between the two places. -/
theorem sum_width (tiles : Tiles start stop operands) :
    start + (operands.map (·.width)).sum = stop := by
  induction tiles with
  | nil => rfl
  | cons _ ih => rw [← ih, List.map_cons, List.sum_cons, Nat.add_assoc]

theorem offset_add_width_le (tiles : Tiles start stop operands) {o : Operand} (mem : o ∈ operands) :
    o.offset + o.width ≤ stop := by
  induction tiles with
  | nil => cases mem
  | cons tiles ih =>
    rcases List.mem_cons.1 mem with rfl | mem
    · rw [← tiles.sum_width]
      exact Nat.le_add_right _ _
    · exact ih mem

/-- The slices of the operands are the bytes between the two places. -/
theorem flatMap_slice (tiles : Tiles start stop operands) (block : List UInt8) :
    operands.flatMap (·.slice block) ++ block.drop stop = block.drop start := by
  induction tiles with
  | nil => rfl
  | @cons o stop rest _ ih =>
    rw [List.flatMap_cons, List.append_assoc, ih, slice, ← List.drop_drop, List.take_append_drop]

end Tiles

end Operand

/-! ## All operands -/

namespace Signature

/-- The bytes that operand characters describe. -/
def widthFrom (kinds : List Char) : ℕ :=
  kinds.foldr (fun kind total => Operand.widthOf kind + total) 0

theorem map_kind_layoutFrom (offset : ℕ) (kinds : List Char) :
    (layoutFrom offset kinds).map (·.kind) = kinds := by
  induction kinds generalizing offset with
  | nil => rfl
  | cons kind kinds ih => exact congrArg (kind :: ·) (ih _)

theorem length_layoutFrom (offset : ℕ) (kinds : List Char) :
    (layoutFrom offset kinds).length = kinds.length := by
  rw [← List.length_map, map_kind_layoutFrom]

theorem tiles_layoutFrom (offset : ℕ) (kinds : List Char) :
    Operand.Tiles offset (offset + widthFrom kinds) (layoutFrom offset kinds) := by
  induction kinds generalizing offset with
  | nil => exact .nil offset
  | cons kind kinds ih =>
    have total : offset + widthFrom (kind :: kinds) =
        offset + Operand.widthOf kind + widthFrom kinds := (Nat.add_assoc ..).symm
    rw [total]
    exact .cons (o := Operand.ofKind kind offset) (ih _)

theorem tiles_padding (offset count : ℕ) :
    Operand.Tiles offset (offset + count)
      ((List.range count).map fun i => Operand.padding (offset + i)) := by
  induction count with
  | zero => exact .nil offset
  | succ count ih =>
    rw [List.range_succ, List.map_append]
    exact ih.append (.cons (o := Operand.padding (offset + count)) (.nil _))

/-- The operands of an instruction lie one behind the other in all its bytes but the first. -/
theorem tiles_layout {s : Signature} {size : ℕ} (wide : s.width ≤ size) :
    Operand.Tiles 0 size (s.layout (size + 1)) := by
  have named := tiles_layoutFrom 0 s.kinds
  have padding := tiles_padding s.width (size - s.width)
  rw [Nat.zero_add] at named
  rw [Nat.add_sub_cancel' wide] at padding
  exact named.append padding

/-- The character of an operand decides its encoding, also where it is padding. -/
theorem eq_ofKind_of_mem_layout {s : Signature} {size : ℕ} {o : Operand}
    (h : o ∈ s.layout size) : o = Operand.ofKind o.kind o.offset := by
  have named : ∀ {kinds : List Char} {offset : ℕ}, o ∈ layoutFrom offset kinds →
      o = Operand.ofKind o.kind o.offset := by
    intro kinds
    induction kinds with
    | nil => exact fun h => by cases h
    | cons kind kinds ih =>
      intro offset h
      rcases List.mem_cons.1 h with rfl | h
      · rfl
      · exact ih h
  rcases List.mem_append.1 h with h | h
  · exact named h
  · obtain ⟨i, -, rfl⟩ := List.mem_map.1 h
    rfl

theorem mem_layout {s : Signature} {size : ℕ} (wide : s.width ≤ size) {o : Operand}
    (h : o ∈ s.layout (size + 1)) : o.Within size := by
  refine ⟨?_, (tiles_layout wide).offset_add_width_le h⟩
  rw [eq_ofKind_of_mem_layout h]
  exact Operand.widthOf_cases o.kind

/-- The operands stand in the order of their characters, padding behind them. -/
theorem map_kind_layout (s : Signature) (size : ℕ) :
    (s.layout size).map (·.kind) = s.kinds ++ List.replicate (size - 1 - s.width) 'u' := by
  rw [layout, List.map_append, map_kind_layoutFrom, List.map_map]
  congr 1
  exact List.eq_replicate_iff.2 ⟨by simp, by simp [Operand.padding]⟩

/-- The operands of an instruction are its bytes, one after the other. -/
theorem flatMap_slice_layout {s : Signature} {block : List UInt8} (wide : s.width ≤ block.length) :
    (s.layout (block.length + 1)).flatMap (·.slice block) = block := by
  have slices := (tiles_layout wide).flatMap_slice block
  rwa [List.drop_length, List.append_nil, List.drop_zero] at slices

/-- The values of the operands give the operand bytes back. -/
theorem flatMap_encode_layout {s : Signature} {block : List UInt8}
    (wide : s.width ≤ block.length) :
    (s.layout (block.length + 1)).flatMap (fun o => o.encode (o.decode (o.slice block))) =
      block := by
  have each : ∀ o ∈ s.layout (block.length + 1),
      o.encode (o.decode (o.slice block)) = o.slice block := fun o ho =>
    Operand.encode_decode (mem_layout wide ho).width (mem_layout wide ho).length_slice
  rw [List.flatMap_congr each, flatMap_slice_layout wide]

/-- In a block made of operand values each operand has its own bytes. -/
theorem slice_of_encode {s : Signature} {values : List ℤ} {size : ℕ} (wide : s.width ≤ size)
    (count : values.length = (s.layout (size + 1)).length) {block : List UInt8}
    (made : (List.zipWith Operand.encode (s.layout (size + 1)) values).flatten = block) :
    block.length = size ∧
      (s.layout (size + 1)).map (·.slice block) =
        List.zipWith Operand.encode (s.layout (size + 1)) values := by
  -- Piece by piece the values have as many bytes as the operands are wide.
  have lengths : (List.zipWith Operand.encode (s.layout (size + 1)) values).map List.length =
      (s.layout (size + 1)).map (·.width) := by
    rw [List.map_zipWith]
    refine List.ext_getElem (by simp [count]) fun i small small' => ?_
    rw [List.getElem_zipWith, List.getElem_map]
    exact Operand.length_encode (mem_layout wide (List.getElem_mem _)).width _
  have total : block.length = size := by
    rw [← made, List.length_flatten, lengths, ← Nat.zero_add (List.sum _)]
    exact (tiles_layout wide).sum_width
  refine ⟨total, List.eq_iff_flatten_eq.2 ⟨?_, ?_⟩⟩
  · rw [made, ← List.flatMap_def, ← total]
    exact flatMap_slice_layout (by rwa [total])
  · rw [lengths, List.map_map]
    refine List.map_congr_left fun o mem => ?_
    have within := mem_layout wide mem
    rw [← total] at within
    exact within.length_slice

/-- The bytes of an operand in a block made of operand values are those of its own value. -/
theorem slice_of_mem_zip {s : Signature} {values : List ℤ} {size : ℕ} (wide : s.width ≤ size)
    (count : values.length = (s.layout (size + 1)).length) {block : List UInt8}
    (made : (List.zipWith Operand.encode (s.layout (size + 1)) values).flatten = block)
    {o : Operand} {v : ℤ} (mem : (o, v) ∈ (s.layout (size + 1)).zip values) :
    o.slice block = o.encode v := by
  obtain ⟨i, place, found⟩ := List.getElem_of_mem mem
  rw [List.getElem_zip, Prod.mk.injEq] at found
  obtain ⟨rfl, rfl⟩ := found
  rw [List.length_zip, Nat.lt_min] at place
  have slices := congrArg (·[i]?) (slice_of_encode wide count made).2
  simpa [place.1, place.2] using slices

/-- **The operands of an instruction tile its bytes.**  In an instruction of `size` bytes, with room
for the operands of a signature, they stand in the order of their characters with padding behind
them, are encoded as these say, and lie one behind the other in the bytes after the opcode.  Their
values give any such bytes back, and any values, whether or not the operands accept them, are found
in their bytes put one after the other, up to what the operands' bits leave out: exactly, where they
are values that an operand's bytes can have. -/
theorem layout_tiles_block (s : Signature) {size : ℕ} (wide : s.width + 1 ≤ size) :
    (s.layout size).map (·.kind) = s.kinds ++ List.replicate (size - 1 - s.width) 'u' ∧
      (∀ o ∈ s.layout size, o = Operand.ofKind o.kind o.offset) ∧
      Operand.Tiles 0 (size - 1) (s.layout size) ∧
      (∀ block : List UInt8, block.length = size - 1 →
        (s.layout size).flatMap (fun o => o.encode (o.decode (o.slice block))) = block) ∧
      ∀ values : List ℤ, values.length = (s.layout size).length →
        let block := (List.zipWith Operand.encode (s.layout size) values).flatten
        block.length = size - 1 ∧
          List.Forall₂ (fun o v => o.decode (o.slice block) ≡ v [ZMOD 2 ^ (8 * o.width)] ∧
            (v ∈ Set.range o.decode → o.decode (o.slice block) = v)) (s.layout size) values := by
  obtain ⟨size, rfl⟩ : ∃ n, size = n + 1 := ⟨size - 1, by omega⟩
  rw [Nat.add_sub_cancel]
  replace wide : s.width ≤ size := by omega
  refine ⟨map_kind_layout s _, fun o mem => eq_ofKind_of_mem_layout mem, tiles_layout wide, ?_, ?_⟩
  · rintro block rfl
    exact flatMap_encode_layout wide
  · intro values count block
    refine ⟨(slice_of_encode wide count rfl).1,
      List.forall₂_iff_zip.2 ⟨count.symm, fun {o v} mem => ?_⟩⟩
    have width := (mem_layout wide (List.of_mem_zip mem).1).width
    rw [slice_of_mem_zip wide count rfl mem]
    refine ⟨Operand.decode_encode width v, fun value => Operand.decode_encode_of_mem width ?_⟩
    rwa [← Operand.range_decode width]

/-- Signed and unsigned spellings in one instruction: of `-1`, `-2`, `-3` and `40000` only the
second is a value that the bytes of its operand have, and the others come back as the other
spelling. -/
theorem layout_tiles_block_spellings :
    let s := parse "pos:uIUI"
    let values : List ℤ := [-1, -2, -3, 40000, 255]
    let block : List UInt8 := [0xFF, 0xFE, 0xFF, 0xFD, 0xFF, 0x40, 0x9C, 0xFF]
    s.width + 1 ≤ 9 ∧ Operand.Tiles 0 8 (s.layout 9) ∧
      block.length = 9 - 1 ∧
      (s.layout 9).flatMap (fun o => o.encode (o.decode (o.slice block))) = block ∧
      values.length = (s.layout 9).length ∧
      (List.zipWith Operand.encode (s.layout 9) values).flatten = block ∧
      (s.layout 9).map (fun o => o.decode (o.slice block)) = [255, -2, 65533, -25536, 255] ∧
      (Operand.ofKind 'I' 5).decode ((Operand.ofKind 'I' 5).slice block) ≡ 40000 [ZMOD 2 ^ 16] ∧
      -2 ∈ Set.range (Operand.ofKind 'I' 1).decode ∧
      (Operand.ofKind 'I' 1).decode ((Operand.ofKind 'I' 1).slice block) = -2 := by
  intro s values block
  have wide : s.width + 1 ≤ 9 := by decide
  have count : values.length = (s.layout 9).length := by decide
  have made : (List.zipWith Operand.encode (s.layout 9) values).flatten = block := by decide
  have value : -2 ∈ Set.range (Operand.ofKind 'I' 1).decode := ⟨[0xFE, 0xFF], by decide⟩
  obtain ⟨-, -, tiles, bytes, found⟩ := layout_tiles_block s wide
  obtain ⟨-, each⟩ := found values count
  rw [made] at each
  have second := (List.forall₂_iff_get.1 each).2 1 (by decide) (by decide)
  have fourth := (List.forall₂_iff_get.1 each).2 3 (by decide) (by decide)
  exact ⟨wide, tiles, rfl, bytes block rfl, count, made, by decide, fourth.1, value,
    second.2 value⟩

end Signature

end RoomScript
