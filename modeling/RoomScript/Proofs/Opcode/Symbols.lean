import RoomScript.Proofs.Entries
import RoomScript.Proofs.Opcode.Names

/-!
# Looking up a symbol is the inverse of naming

A symbol is looked up among the fixed names, then as an integer literal, then under the family that
its beginning gives.  None of these doors opens for a name that was made behind another one.

* `actorMask?_injective` tells the names of masks apart, which are the only names of several words;
* `symbolValue?_eq_some_iff` says that the lookup finds the literals, the names of byte values and
  the names of flags, each with its value, and nothing else.
-/

namespace RoomScript.Opcode

/-! ## The words of a mask -/

theorem bitNames_zero (names : List String) : bitNames names 0 = [] := by
  induction names with
  | nil => rfl
  | cons name names ih => simpa [bitNames] using ih

/-- Bits with different names are read back from the names. -/
theorem bitNames_injective {names : List String} (distinct : names.Nodup) {m n : ℕ}
    (hm : m < 2 ^ names.length) (hn : n < 2 ^ names.length)
    (same : bitNames names m = bitNames names n) : m = n := by
  induction names generalizing m n with
  | nil =>
    simp only [List.length_nil, pow_zero] at hm hn
    omega
  | cons name names ih =>
    obtain ⟨fresh, distinct⟩ := List.nodup_cons.1 distinct
    rw [List.length_cons, pow_succ] at hm hn
    have absent (k : ℕ) : name ∉ bitNames names k := fun mem => fresh (bitNames_subset names k mem)
    have halves := ih distinct (m := m / 2) (n := n / 2) (by omega) (by omega)
    simp only [bitNames] at same
    split at same <;> split at same
    · have := halves (List.cons.inj same).2
      omega
    · exact absurd (same ▸ List.mem_cons_self) (absent (n / 2))
    · exact absurd (same ▸ List.mem_cons_self) (absent (m / 2))
    · have := halves same
      omega

/-- Texts with a mark in between are read back when no text has the mark's first character. -/
theorem intercalate_injective {c : Char} {mark : List Char} {texts texts' : List (List Char)}
    (some : texts ≠ []) (some' : texts' ≠ []) (free : ∀ t ∈ texts, c ∉ t)
    (free' : ∀ t ∈ texts', c ∉ t)
    (same : (c :: mark).intercalate texts = (c :: mark).intercalate texts') : texts = texts' := by
  have first {t rest : List Char} (free : c ∉ t) : (t ++ c :: rest).takeWhile (· != c) = t := by
    have other : ∀ d ∈ t, (d != c) = true := fun d mem => bne_iff_ne.2 fun hit => free (hit ▸ mem)
    exact (Text.span_run other (by simp)).1
  induction texts generalizing texts' with
  | nil => exact absurd rfl some
  | cons t ts ih =>
    obtain ⟨freeT, freeTs⟩ := List.forall_mem_cons.1 free
    obtain _ | ⟨t', ts'⟩ := texts'
    · exact absurd rfl some'
    obtain ⟨freeT', freeTs'⟩ := List.forall_mem_cons.1 free'
    obtain _ | ⟨u, us⟩ := ts <;> obtain _ | ⟨u', us'⟩ := ts' <;>
      simp only [List.intercalate_singleton, List.intercalate_cons_cons, List.append_assoc,
        List.cons_append] at same
    · rw [same]
    · exact absurd (same ▸ List.mem_append_right _ List.mem_cons_self) freeT
    · exact absurd (same ▸ List.mem_append_right _ List.mem_cons_self) freeT'
    · have firsts := congrArg (List.takeWhile (· != c)) same
      rw [first freeT, first freeT'] at firsts
      subst firsts
      have rest := List.append_cancel_left (List.cons.inj (List.append_cancel_left same)).2
      rw [ih (List.cons_ne_nil _ _) (List.cons_ne_nil _ _) freeTs freeTs' rest]

/-- The words that a mask is written with. -/
def maskTexts (n : ℕ) : List String :=
  if n = 0 then ["SAT_AUTO"] else bitNames actorBits n

theorem actorMask?_eq_some_iff {v : ℤ} {name : String} :
    actorMask? v = some name ↔
      0 ≤ v ∧ v < 256 ∧ name = " | ".intercalate (maskTexts v.toNat) := by
  unfold actorMask? maskTexts
  by_cases zero : v = 0
  · have alone : " | ".intercalate ["SAT_AUTO"] = "SAT_AUTO" := rfl
    simp [zero, alone, eq_comm]
  by_cases range : v < 0 ∨ 0xFF < v
  · simp only [zero, range, if_false, if_true]
    constructor
    · intro h
      cases h
    · rintro ⟨nonneg, small, -⟩
      omega
  · have some : v.toNat ≠ 0 := by omega
    simp only [zero, range, some, if_false, Option.some.injEq]
    constructor
    · intro h
      exact ⟨by omega, by omega, h.symm⟩
    · exact fun h => h.2.2.symm

theorem actorBits_nodup : actorBits.Nodup := by
  decide

theorem maskTexts_ne_nil {n : ℕ} (small : n < 256) : maskTexts n ≠ [] := by
  unfold maskTexts
  split
  · exact List.cons_ne_nil _ _
  · rename_i filled
    intro empty
    exact filled (bitNames_injective actorBits_nodup small (by decide)
      (empty.trans (bitNames_zero _).symm))

theorem mem_maskTexts {n : ℕ} {text : String} (mem : text ∈ maskTexts n) :
    text ∈ "SAT_AUTO" :: actorBits := by
  unfold maskTexts at mem
  split at mem
  · exact List.mem_cons.2 (.inl (List.mem_singleton.1 mem))
  · exact List.mem_cons_of_mem _ (bitNames_subset _ _ mem)

theorem maskTexts_injective {m n : ℕ} (hm : m < 256) (hn : n < 256)
    (same : maskTexts m = maskTexts n) : m = n := by
  have noBit : "SAT_AUTO" ∉ actorBits := by decide
  have absent (k : ℕ) : bitNames actorBits k ≠ ["SAT_AUTO"] := fun alone =>
    noBit (bitNames_subset actorBits k (alone ▸ List.mem_singleton_self _))
  unfold maskTexts at same
  split at same <;> split at same
  · omega
  · exact absurd same.symm (absent n)
  · exact absurd same (absent m)
  · exact bitNames_injective actorBits_nodup hm hn same

/-- Different masks have different names. -/
theorem actorMask?_injective {v w : ℤ} {name : String} (hv : actorMask? v = some name)
    (hw : actorMask? w = some name) : v = w := by
  obtain ⟨nonneg, small, rfl⟩ := actorMask?_eq_some_iff.1 hv
  obtain ⟨nonneg', small', same⟩ := actorMask?_eq_some_iff.1 hw
  have blankless : ∀ text ∈ "SAT_AUTO" :: actorBits, ' ' ∉ text.toList := by decide
  have free (n : ℕ) : ∀ text ∈ (maskTexts n).map String.toList, ' ' ∉ text := by
    intro chars mem
    obtain ⟨text, word, rfl⟩ := List.mem_map.1 mem
    exact blankless text (mem_maskTexts word)
  have words : (maskTexts v.toNat).map String.toList = (maskTexts w.toNat).map String.toList := by
    rw [← String.toList_inj, String.toList_intercalate, String.toList_intercalate] at same
    refine intercalate_injective ?_ ?_ (free _) (free _) same
    · simpa using maskTexts_ne_nil (n := v.toNat) (by omega)
    · simpa using maskTexts_ne_nil (n := w.toNat) (by omega)
  have texts := List.map_injective_iff.2 (fun _ _ => String.toList_inj.1) words
  have := maskTexts_injective (by omega) (by omega) texts
  omega

/-- The first word of a mask belongs to the family of the masks, but for the bit without a name. -/
theorem maskTexts_begins : ∀ n ∈ List.range 256, n = 128 ∨
    (maskTexts n).head?.any (fun text => "SAT_".toList.isPrefixOf text.toList) = true := by
  decide +kernel

theorem begins_of_actorMask? {v : ℤ} {name : String} (named : actorMask? v = some name)
    (other : v ≠ 128) : "SAT_".toList <+: name.toList := by
  obtain ⟨nonneg, small, rfl⟩ := actorMask?_eq_some_iff.1 named
  have begins := (maskTexts_begins v.toNat (List.mem_range.2 (by omega))).resolve_left (by omega)
  cases texts : maskTexts v.toNat with
  | nil =>
    rw [texts] at begins
    cases begins
  | cons text rest =>
    rw [texts] at begins
    have first : "SAT_".toList <+: text.toList := List.isPrefixOf_iff_prefix.1 begins
    rw [String.toList_intercalate, List.map_cons]
    cases rest with
    | nil => simpa using first
    | cons next rest =>
      rw [List.map_cons, List.intercalate_cons_cons, List.append_assoc]
      exact first.trans (List.prefix_append _ _)

/-- The name of a mask stands for the mask. -/
theorem symbolValue?_of_actorMask? {v : ℤ} {name : String} (named : actorMask? v = some name) :
    symbolValue? name = some v := by
  obtain ⟨nonneg, small, text⟩ := actorMask?_eq_some_iff.1 named
  by_cases last : v = 128
  -- The bit without a name is written as a literal.
  · have literal : " | ".intercalate (maskTexts 128) = "0x80" := by decide +kernel
    have read : symbolValue? "0x80" = some 128 := by decide +kernel
    rw [text, last, show (128 : ℤ).toNat = 128 from rfl, literal, read]
  · have family : ("SAT_", some 'a') ∈ symbolFamilies := by decide
    have nat : ((v.toNat : ℕ) : ℤ) = v := Int.toNat_of_nonneg nonneg
    refine (symbolValue?_of_begins family (begins_of_actorMask? named last)).trans ?_
    have found : namedValue? 'a' name = some ((v.toNat : ℕ) : ℤ) := by
      refine namedValue?_eq (by omega) (by rwa [nat]) fun w found => ?_
      have := actorMask?_injective found named
      omega
    rwa [nat] at found

/-! ## The three sources of symbols -/

/-- What a symbol stands for: the value of an integer literal, a byte value with that name under
some operand character, or the number of a flag with that name in some group. -/
inductive StandsFor (symbol : String) (v : ℤ) : Prop
  | literal (read : Text.int32? symbol = some v)
  | value (kind : Char) (nonneg : 0 ≤ v) (byte : v < 256) (named : valueName? kind v = some symbol)
  | flag (group : ℤ) (named : flagName? group v = some symbol)

/-- The fixed names are names of byte values. -/
theorem fixedSymbols_named : ∀ f ∈ fixedSymbols,
    0 ≤ f.2 ∧ f.2 < 256 ∧ ∃ kind, valueName? kind f.2 = some f.1 := by
  simp only [fixedSymbols, List.forall_mem_cons]
  exact ⟨⟨by decide, by decide, 't', rfl⟩, ⟨by decide, by decide, 't', rfl⟩,
    ⟨by decide, by decide, 't', rfl⟩, ⟨by decide, by decide, 'g', rfl⟩,
    ⟨by decide, by decide, 'p', rfl⟩, ⟨by decide, by decide, 'p', rfl⟩, List.forall_mem_nil _⟩

theorem int32?_fixedSymbols : ∀ f ∈ fixedSymbols, Text.int32? f.1 = none := by
  decide +kernel

section Symbols

variable {symbol : String} {v : ℤ}

theorem symbolValue?_of_literal (read : Text.int32? symbol = some v) :
    symbolValue? symbol = some v := by
  cases fixed : fixedSymbols.lookup symbol with
  | none => simp only [symbolValue?, fixed, read]
  | some w =>
    have noLiteral := int32?_fixedSymbols _ (Entries.mem_of_lookup fixed)
    rw [noLiteral] at read
    cases read

theorem standsFor_of_namedValue? {kind : Char} (found : namedValue? kind symbol = some v) :
    StandsFor symbol v := by
  obtain ⟨n, hit, rfl⟩ := Option.map_eq_some_iff.1 found
  have small := List.mem_range.1 (List.mem_of_find?_eq_some hit)
  have named : valueName? kind n = some symbol := by simpa using List.find?_some hit
  exact .value kind (Int.natCast_nonneg n) (Int.ofNat_lt.2 small) named

theorem standsFor_of_flagValue? (found : flagValue? symbol = some v) : StandsFor symbol v := by
  obtain ⟨group, -, inGroup⟩ := List.exists_of_findSome?_eq_some found
  obtain ⟨index, hit, rfl⟩ := Option.map_eq_some_iff.1 inGroup
  have named : flagName? group index = some symbol := by simpa using List.find?_some hit
  exact .flag group named

/-- Whatever the lookup finds was named so. -/
theorem standsFor_of_symbolValue? (found : symbolValue? symbol = some v) : StandsFor symbol v := by
  unfold symbolValue? at found
  split at found
  · rename_i w fixed
    cases found
    obtain ⟨nonneg, byte, kind, named⟩ := fixedSymbols_named _ (Entries.mem_of_lookup fixed)
    exact .value kind nonneg byte named
  split at found
  · rename_i w read
    cases found
    exact .literal read
  split at found
  · exact standsFor_of_namedValue? found
  · exact standsFor_of_flagValue? found
  · cases found

/-- Whatever has a name is found under it. -/
theorem StandsFor.symbolValue?_eq (stands : StandsFor symbol v) : symbolValue? symbol = some v := by
  rcases stands with read | ⟨kind, nonneg, byte, named⟩ | ⟨group, named⟩
  · exact symbolValue?_of_literal read
  · by_cases mask : kind = 'a'
    · subst mask
      exact symbolValue?_of_actorMask? named
    · exact (isSymbol_of_valueName? mask nonneg (fun _ => byte) named).value
  · exact (isSymbol_of_flagName? named).value

end Symbols

/-- **Looking up a symbol is the exact inverse of naming.**  A text has a value if and only if it is
an integer literal of the value, the name of this byte value under some operand character, or the
name of the flag with this number in some group; and these three never give one text two values. -/
theorem symbolValue?_eq_some_iff (symbol : String) :
    (∀ v, symbolValue? symbol = some v ↔ StandsFor symbol v) ∧
      ∀ v w, StandsFor symbol v → StandsFor symbol w → v = w := by
  refine ⟨fun v => ⟨standsFor_of_symbolValue?, StandsFor.symbolValue?_eq⟩, fun v w hv hw => ?_⟩
  exact Option.some.inj (hv.symbolValue?_eq.symm.trans hw.symbolValue?_eq)

end RoomScript.Opcode
