import Mathlib.Tactic
import RoomScript.Opcode.Table
import RoomScript.Proofs.Operand
import RoomScript.Token.Scanner

/-!
# Properties of the opcode table

* `Opcode.find?_mnemonic` finds every opcode in use by its mnemonic, and `Opcode.find?_eq_some_iff`
  says that nothing else is found;
* `Opcode.mnemonic_isWord` says that a mnemonic is read as one name;
* `Opcode.width_le` says that every instruction is long enough for its operands.

The entries are compared as lists of characters, which is fast to evaluate.
-/

namespace RoomScript

/-- A name that begins with a letter of a class and goes on with name characters. -/
def IsWord (first : Char → Bool) (word : List Char) : Prop :=
  ∃ c rest, word = c :: rest ∧ first c = true ∧ ∀ d ∈ rest, isIdentPart d = true

theorem IsWord.append {first : Char → Bool} {word rest : List Char} (h : IsWord first word)
    (all : ∀ c ∈ rest, isIdentPart c = true) : IsWord first (word ++ rest) := by
  obtain ⟨c, cs, rfl, start, parts⟩ := h
  exact ⟨c, cs ++ rest, rfl, start, List.forall_mem_append.2 ⟨parts, all⟩⟩

/-- Entries that stand once in a list, blank ones apart, are known from their places. -/
theorem eq_of_getElem?_of_nodup_filter {α : Type} [DecidableEq α] {xs : List α} {blank x : α}
    (nodup : (xs.filter (· ≠ blank)).Nodup) (filled : x ≠ blank) {i j : ℕ}
    (hi : xs[i]? = some x) (hj : xs[j]? = some x) : i = j := by
  -- Blank entries do not count, so `x` is counted once with them as well.
  have once : List.count x xs ≤ 1 := by
    rw [← List.count_filter (p := fun y => decide (y ≠ blank)) (by simpa using filled)]
    exact List.nodup_iff_count_le_one.1 nodup x
  induction xs generalizing i j with
  | nil => simp at hi
  | cons y ys ih =>
    have absent : ∀ k : ℕ, y = x → ys[k]? ≠ some x := by
      rintro k rfl found
      rw [List.count_cons_self] at once
      have := List.count_pos_iff.2 (List.mem_of_getElem? found)
      omega
    have fewer : List.count x ys ≤ 1 := le_trans List.count_le_count_cons once
    have rest : (ys.filter (· ≠ blank)).Nodup := by
      rw [List.filter_cons] at nodup
      split at nodup
      · exact nodup.of_cons
      · exact nodup
    cases i with
    | zero =>
      cases j with
      | zero => rfl
      | succ j => exact absurd hj (absent j (Option.some.inj hi))
    | succ i =>
      cases j with
      | zero => exact absurd hi (absent i (Option.some.inj hj))
      | succ j => rw [ih rest hi hj fewer]

namespace Opcode

/-! ## Signatures -/

/-- The mnemonic of a signature text. -/
def mnemonicChars (text : String) : List Char :=
  text.toList.takeWhile (· != ':')

/-- The operand characters of a signature text. -/
def kindChars (text : String) : List Char :=
  (text.toList.dropWhile (· != ':')).tail

theorem signature_eq (opcode : UInt8) :
    signature opcode = Signature.parse (signatureText opcode) := by
  unfold signature signatures signatureText
  rw [Array.getD_eq_getD_getElem?, List.getElem?_toArray, List.getElem?_map,
    List.getD_eq_getElem?_getD]
  cases signatureTexts[opcode.toNat]? <;> rfl

theorem toList_mnemonic (opcode : UInt8) :
    (signature opcode).mnemonic.toList = mnemonicChars (signatureText opcode) := by
  rw [signature_eq, Signature.parse, String.toList_ofList]
  rfl

/-- No two opcodes in use have the same mnemonic, a mnemonic is a word, and the operands of an
instruction fit its size. -/
theorem signatureTexts_sound :
    ((signatureTexts.map mnemonicChars).filter (· ≠ [])).Nodup ∧
      (∀ text ∈ signatureTexts, (mnemonicChars text).head?.all Char.isLower = true ∧
        (mnemonicChars text).all isIdentPart = true) ∧
      List.Forall₂ (fun text size => (kindChars text).all (·.toNat < 0x80) = true ∧
        Signature.widthFrom (kindChars text) ≤ size - 1) signatureTexts sizes := by
  decide +kernel

theorem mem_signatureTexts {opcode : UInt8} (used : (signature opcode).isReserved = false) :
    signatureTexts[opcode.toNat]? = some (signatureText opcode) := by
  unfold signatureText
  rw [List.getD_eq_getElem?_getD]
  cases found : signatureTexts[opcode.toNat]? with
  | some text => rfl
  | none =>
    rw [signature_eq, signatureText, List.getD_eq_getElem?_getD, found] at used
    exact absurd used (by decide)

theorem isReserved_iff (opcode : UInt8) :
    (signature opcode).isReserved = true ↔ mnemonicChars (signatureText opcode) = [] := by
  rw [Signature.isReserved, beq_iff_eq, ← toList_mnemonic, String.toList_eq_nil_iff]

/-- A mnemonic is a name in lower case. -/
theorem mnemonic_isWord {opcode : UInt8} (used : (signature opcode).isReserved = false) :
    IsWord Char.isLower (signature opcode).mnemonic.toList := by
  obtain ⟨first, all⟩ := signatureTexts_sound.2.1 _ (List.mem_of_getElem? (mem_signatureTexts used))
  have filled : mnemonicChars (signatureText opcode) ≠ [] := by
    rw [Ne, ← isReserved_iff, used]
    decide
  obtain ⟨c, rest, chars⟩ := List.exists_cons_of_ne_nil filled
  rw [toList_mnemonic, chars]
  rw [chars] at first all
  refine ⟨c, rest, rfl, by simpa using first, fun d hd => ?_⟩
  exact List.all_eq_true.1 all d (List.mem_cons_of_mem c hd)

/-- Every opcode in use is found by its mnemonic. -/
theorem find?_mnemonic {opcode : UInt8} (used : (signature opcode).isReserved = false) :
    find? (signature opcode).mnemonic = some opcode := by
  have filled : mnemonicChars (signatureText opcode) ≠ [] := by
    rw [Ne, ← isReserved_iff, used]
    decide
  have place : ∀ {i : ℕ} {text : String}, signatureTexts[i]? = some text →
      (Signature.parse text).mnemonic = (signature opcode).mnemonic → i = opcode.toNat := by
    intro i text found same
    refine eq_of_getElem?_of_nodup_filter signatureTexts_sound.1 filled ?_ ?_
    · rw [List.getElem?_map, found, ← toList_mnemonic, ← same, Signature.parse,
        String.toList_ofList]
      rfl
    · rw [List.getElem?_map, mem_signatureTexts used]
      rfl
  have index : (signatureTexts.map Signature.parse).findIdx?
      (fun s => !s.isReserved && s.mnemonic == (signature opcode).mnemonic) =
        some opcode.toNat := by
    obtain ⟨small, text⟩ := List.getElem?_eq_some_iff.1 (mem_signatureTexts used)
    -- The opcode's own place is a hit, and no place before it can be one.
    rw [List.findIdx?_eq_some_iff_getElem]
    refine ⟨by rwa [List.length_map], ?_, fun j before hit => ?_⟩
    · rw [List.getElem_map, text, ← signature_eq, used]
      simp
    · rw [List.getElem_map, Bool.and_eq_true, beq_iff_eq] at hit
      have := place (List.getElem?_eq_getElem (before.trans small)) hit.2
      omega
  rw [find?, signatures, List.findIdx?_toArray, index, Option.map_some, UInt8.ofNat_toNat]

/-- What is found by a mnemonic is the opcode in use with it. -/
theorem find?_eq_some_iff {mnemonic : String} {opcode : UInt8} :
    find? mnemonic = some opcode ↔
      (signature opcode).isReserved = false ∧ (signature opcode).mnemonic = mnemonic := by
  constructor
  · intro found
    obtain ⟨i, place, rfl⟩ := Option.map_eq_some_iff.1 found
    rw [signatures, List.findIdx?_toArray, List.findIdx?_eq_some_iff_getElem] at place
    obtain ⟨small, hit, -⟩ := place
    have few : signatureTexts.length ≤ 256 := by decide +kernel
    rw [List.length_map] at small
    have here : signature (UInt8.ofNat i) = Signature.parse signatureTexts[i] := by
      rw [signature_eq, signatureText, UInt8.toNat_ofNat', Nat.mod_eq_of_lt (by omega),
        List.getD_eq_getElem?_getD, List.getElem?_eq_getElem small, Option.getD_some]
    rw [List.getElem_map, ← here] at hit
    simpa using hit
  · rintro ⟨used, rfl⟩
    exact find?_mnemonic used

/-! ## Sizes -/

/-- Instructions in use have a size. -/
theorem size_pos {opcode : UInt8} (used : (signature opcode).isReserved = false) :
    0 < size opcode := by
  have sized : sizes.length = signatureTexts.length := by decide +kernel
  have positive : ∀ n ∈ sizes, 0 < n := by decide +kernel
  obtain ⟨small, -⟩ := List.getElem?_eq_some_iff.1 (mem_signatureTexts used)
  rw [← sized] at small
  have table : size opcode = sizes[opcode.toNat] := by
    rw [size, sizeTable, Array.getD_eq_getD_getElem?, List.getElem?_toArray,
      List.getElem?_eq_getElem small, Option.getD_some]
  rw [table]
  exact positive _ (List.getElem_mem small)

/-- The operands of an instruction take no more bytes than it has. -/
theorem width_le (opcode : UInt8) : (signature opcode).width ≤ size opcode - 1 := by
  rw [signature_eq, signatureText, List.getD_eq_getElem?_getD]
  cases found : signatureTexts[opcode.toNat]? with
  | none => exact Nat.zero_le _
  | some text =>
    obtain ⟨length, sound⟩ := List.forall₂_iff_get.1 signatureTexts_sound.2.2
    obtain ⟨small, rfl⟩ := List.getElem?_eq_some_iff.1 found
    obtain ⟨ascii, fits⟩ := sound opcode.toNat small (length ▸ small)
    have kinds : (Signature.parse signatureTexts[opcode.toNat]).kinds =
        kindChars signatureTexts[opcode.toNat] := by
      have each : ∀ c ∈ kindChars signatureTexts[opcode.toNat], (if c.toNat < 0x80 then [c] else
          (String.utf8EncodeChar c).map fun b => Char.ofNat b.toNat) = [c] := fun c hc =>
        if_pos (by simpa using List.all_eq_true.1 ascii c hc)
      exact (List.flatMap_congr each).trans (by simp)
    have table : size opcode = sizes.get ⟨opcode.toNat, length ▸ small⟩ := by
      rw [size, sizeTable, Array.getD_eq_getD_getElem?, List.getElem?_toArray,
        List.getElem?_eq_getElem (length ▸ small)]
      rfl
    rw [Option.getD_some, table]
    show Signature.widthFrom (Signature.parse _).kinds ≤ _
    rw [kinds]
    exact fits

end Opcode

end RoomScript
