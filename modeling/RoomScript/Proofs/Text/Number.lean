import Mathlib.Tactic
import RoomScript.Text.Number

/-!
# Written numbers read back

A number that is written in decimal or in hexadecimal is the value of its digits, so different
numbers are written differently, and a number below `2 ^ 31` is the value of its own literal.

* `digitsValue_toDigits` reads the digits of a number in any base up to sixteen, in upper or lower
  case and behind any number of zeros;
* `decimal_injective` and `hex_injective` follow from it;
* `int32?_toDigits` and `int32?_hexByte` are the two literals that listings write.
-/

namespace RoomScript.Text

/-- A run of a class ends where nothing of the class follows. -/
theorem span_run {α : Type} {p : α → Bool} {run rest : List α} (all : ∀ a ∈ run, p a = true)
    (ends : ∀ a ∈ rest.head?, p a = false) :
    (run ++ rest).takeWhile p = run ∧ (run ++ rest).dropWhile p = rest := by
  rw [List.takeWhile_append_of_pos all, List.dropWhile_append_of_pos all]
  cases rest with
  | nil => exact ⟨List.append_nil run, rfl⟩
  | cons a rest => simp [ends a rfl]

/-! ## Digits -/

/-- A way of writing digits that keeps their values: as they are, or in upper case. -/
structure Casing (f : Char → Char) : Prop where
  value : ∀ d < 16, digitValue? (f d.digitChar) = some d
  ne_underscore : ∀ d < 16, f d.digitChar ≠ '_'

theorem casing_id : Casing id := ⟨by decide, by decide⟩

theorem casing_toUpper : Casing Char.toUpper := ⟨by decide, by decide⟩

theorem digitsValue_append (base limit value : ℕ) (cs ds : List Char) :
    digitsValue base limit value (cs ++ ds) =
      match digitsValue base limit value cs with
      | .ok v => digitsValue base limit v ds
      | .error e => .error e := by
  fun_induction digitsValue base limit value cs with
  | case1 => rfl
  | case2 value rest ih => rw [List.cons_append, digitsValue, ih]
  | case3 value c rest hc none => simp [digitsValue, none]
  | case4 value c rest hc d found big => simp [digitsValue, found, big]
  | case5 value c rest hc d found big past => simp [digitsValue, found, big, past]
  | case6 value c rest hc d found big past ih => simp [digitsValue, found, big, past, ih]

theorem digitsValue_digit {f : Char → Char} (hf : Casing f) {base limit d : ℕ} (value : ℕ)
    (hb : base ≤ 16) (hd : d < base) (fits : value * base + d ≤ limit) :
    digitsValue base limit value [f d.digitChar] = .ok (value * base + d) := by
  have value' := hf.value d (by omega)
  have ne := hf.ne_underscore d (by omega)
  unfold digitsValue
  split
  · rename_i h
    cases h
  · rename_i rest h
    exact absurd (List.cons.inj h).1 ne
  · rename_i h
    obtain ⟨rfl, rfl⟩ := List.cons.inj h
    rw [value']
    simp only [Nat.not_le.2 hd, Nat.not_lt.2 fits, if_false, digitsValue]

/-- The digits of a number have its value. -/
theorem digitsValue_toDigits {f : Char → Char} (hf : Casing f) {base limit n : ℕ} (hb : 1 < base)
    (hb' : base ≤ 16) (fits : n ≤ limit) :
    digitsValue base limit 0 ((Nat.toDigits base n).map f) = .ok n := by
  induction n using Nat.strong_induction_on with
  | _ n ih =>
    rw [Nat.toDigits_eq_if hb]
    split
    · rename_i small
      have digit : digitsValue base limit 0 [f n.digitChar] = .ok (0 * base + n) :=
        digitsValue_digit hf 0 hb' small (by omega)
      simpa using digit
    · rename_i large
      have smaller : n / base < n := Nat.div_lt_self (by omega) hb
      have parts := Nat.div_add_mod' n base
      have digit : digitsValue base limit (n / base) [f (n % base).digitChar] =
          .ok (n / base * base + n % base) :=
        digitsValue_digit hf _ hb' (Nat.mod_lt n (by omega)) (by omega)
      rw [List.map_append, digitsValue_append, ih _ smaller (by omega)]
      simpa [parts] using digit

theorem digitsValue_zeros (base limit count : ℕ) (hb : 0 < base) (cs : List Char) :
    digitsValue base limit 0 (List.replicate count '0' ++ cs) = digitsValue base limit 0 cs := by
  have zero : digitValue? '0' = some 0 := by decide
  induction count with
  | zero => rfl
  | succ count ih =>
    rw [List.replicate_succ, List.cons_append, digitsValue, zero]
    · simpa [Nat.not_le.2 hb] using ih
    · decide

/-! ## Decimal -/

theorem toList_decimal_of_nonneg {n : ℤ} (hn : 0 ≤ n) :
    (decimal 0 n).toList = Nat.toDigits 10 n.toNat := by
  have sign : ¬n < 0 := by omega
  simp [decimal, signed, sign, show n.natAbs = n.toNat by omega]

theorem toList_decimal_of_neg {n : ℤ} (hn : n < 0) :
    (decimal 0 n).toList = '-' :: Nat.toDigits 10 n.natAbs := by
  simp [decimal, signed, hn]

/-- A decimal literal does not begin with a zero unless it is one. -/
theorem toDigits_ten_cases (n : ℕ) :
    (n = 0 ∧ Nat.toDigits 10 n = ['0']) ∨
      ∃ c cs, Nat.toDigits 10 n = c :: cs ∧ c ∈ ['1', '2', '3', '4', '5', '6', '7', '8', '9'] := by
  induction n using Nat.strong_induction_on with
  | _ n ih =>
    rw [Nat.toDigits_eq_if (by decide)]
    split
    · rename_i small
      interval_cases n
      · exact Or.inl ⟨rfl, rfl⟩
      all_goals exact Or.inr ⟨_, [], rfl, by decide⟩
    · rename_i large
      rcases ih (n / 10) (by omega) with ⟨zero, -⟩ | ⟨c, cs, digits, nonzero⟩
      · omega
      · exact Or.inr ⟨c, cs ++ [(n % 10).digitChar], by rw [digits]; rfl, nonzero⟩

theorem underscoresOkFrom_of_digits {last : LastSeen} (hlast : last ≠ .underscore)
    (hexadecimal : Bool) (cs : List Char)
    (digits : ∀ c ∈ cs, (c.isDigit || (hexadecimal && 'a' ≤ c.toLower && c.toLower ≤ 'f')) = true) :
    underscoresOkFrom hexadecimal last cs = true := by
  induction cs generalizing last with
  | nil => simpa [underscoresOkFrom] using hlast
  | cons c rest ih =>
    rw [underscoresOkFrom, if_pos (digits c (by simp))]
    exact ih (by decide) fun d hd => digits d (by simp [hd])

/-- The value of a decimal literal is the number that was written. -/
theorem unsignedLiteral_toDigits {bits n : ℕ} (fits : n < 2 ^ bits) :
    unsignedLiteral bits (Nat.toDigits 10 n) = .ok n := by
  have isDigit : ∀ c ∈ Nat.toDigits 10 n, c.isDigit = true := fun c hc =>
    Nat.isDigit_of_mem_toDigits (by decide) (by decide) hc
  have read : digitsValue 10 (Nat.pow 2 bits - 1) 0 ((Nat.toDigits 10 n).map id) = .ok n :=
    digitsValue_toDigits casing_id (by decide) (by decide) (Nat.le_sub_one_of_lt fits)
  rw [List.map_id] at read
  have good : underscoresOkFrom false .start (Nat.toDigits 10 n) = true :=
    underscoresOkFrom_of_digits (by decide) false _ fun c hc => by simp [isDigit c hc]
  rcases toDigits_ten_cases n with ⟨rfl, digits⟩ | ⟨c, cs, digits, nonzero⟩
  · rw [digits]
    rfl
  · rw [digits] at read good ⊢
    have base : literalBase (c :: cs) = (10, c :: cs) := by
      simp only [List.mem_cons, List.not_mem_nil, or_false] at nonzero
      rcases nonzero with rfl | rfl | rfl | rfl | rfl | rfl | rfl | rfl | rfl <;> rfl
    have marks : underscoresOk (c :: cs) = underscoresOkFrom false .start (c :: cs) := by
      simp only [List.mem_cons, List.not_mem_nil, or_false] at nonzero
      rcases nonzero with rfl | rfl | rfl | rfl | rfl | rfl | rfl | rfl | rfl <;> rfl
    rw [unsignedLiteral, base, read, marks, good]
    rfl

/-- A literal without a sign is read as an unsigned one. -/
theorem int32?_eq_some_iff {s : String} {c : Char} {cs : List Char} (chars : s.toList = c :: cs)
    (minus : c ≠ '-') (plus : c ≠ '+') {v : ℤ} :
    int32? s = some v ↔ ∃ n < 2 ^ 31, unsignedLiteral 32 (c :: cs) = .ok n ∧ v = n := by
  have unsigned : intLiteral 32 s = (unsignedLiteral 32 (c :: cs)).bind fun n =>
      if n < 2 ^ 31 then .ok (n : ℤ) else .error .outOfRange := by
    unfold intLiteral
    rw [chars]
    split
    rename_i negative ds sign
    split at sign
    · rename_i h
      exact absurd (List.cons.inj h).1 minus
    · rename_i h
      exact absurd (List.cons.inj h).1 plus
    · obtain ⟨rfl, rfl⟩ := Prod.mk.inj sign
      cases unsignedLiteral 32 (c :: cs) <;> rfl
  rw [int32?, unsigned]
  cases unsignedLiteral 32 (c :: cs) with
  | error e => simp [Except.bind, Except.toOption]
  | ok n =>
    by_cases fits : n < 2 ^ 31
    · simp only [Except.bind, if_pos fits, Except.toOption, Option.some.injEq, Except.ok.injEq]
      constructor
      · exact fun h => ⟨n, fits, rfl, h.symm⟩
      · rintro ⟨m, -, rfl, h⟩
        exact h.symm
    · simp only [Except.bind, if_neg fits, Except.toOption, reduceCtorEq, false_iff,
        Except.ok.injEq]
      rintro ⟨m, small, rfl, -⟩
      exact fits small

theorem int32?_of_unsigned {s : String} {c : Char} {cs : List Char} {n : ℕ}
    (chars : s.toList = c :: cs) (minus : c ≠ '-') (plus : c ≠ '+')
    (read : unsignedLiteral 32 (c :: cs) = .ok n) (fits : n < 2 ^ 31) : int32? s = some (n : ℤ) :=
  (int32?_eq_some_iff chars minus plus).2 ⟨n, fits, read, rfl⟩

/-- A literal has the same value where there is more room for it. -/
theorem digitsValue_of_le {base limit limit' value v : ℕ} {cs : List Char}
    (room : limit ≤ limit') (read : digitsValue base limit value cs = .ok v) :
    digitsValue base limit' value cs = .ok v := by
  fun_induction digitsValue base limit value cs with
  | case1 => exact read
  | case2 value rest ih => exact ih read
  | case3 | case4 | case5 => cases read
  | case6 value c rest hc d found small fits ih =>
    have fits' : ¬limit' < value * base + d := by omega
    simp only [digitsValue, found, small, fits', if_false]
    exact ih read

theorem unsignedLiteral_of_le {bits bits' v : ℕ} {cs : List Char} (room : bits ≤ bits')
    (read : unsignedLiteral bits cs = .ok v) : unsignedLiteral bits' cs = .ok v := by
  have limit : Nat.pow 2 bits - 1 ≤ Nat.pow 2 bits' - 1 :=
    Nat.sub_le_sub_right (Nat.pow_le_pow_right (by decide) room) 1
  unfold unsignedLiteral at read ⊢
  split at read
  · cases read
  · rename_i filled
    rw [if_neg filled]
    split at read
    · cases read
    · rename_i n found
      rw [digitsValue_of_le limit found]
      exact read

/-- Digits do not start with a sign. -/
theorem exists_toDigits_eq_cons (n : ℕ) :
    ∃ c cs, Nat.toDigits 10 n = c :: cs ∧ c ≠ '-' ∧ c ≠ '+' := by
  obtain ⟨c, cs, digits⟩ := List.exists_cons_of_ne_nil (Nat.toDigits_ne_nil (n := n) (b := 10))
  have front : c ∈ Nat.toDigits 10 n := by rw [digits]; exact List.mem_cons_self
  have digit : c.isDigit = true := Nat.isDigit_of_mem_toDigits (by decide) (by decide) front
  refine ⟨c, cs, digits, ?_, ?_⟩
  · rintro rfl
    cases digit
  · rintro rfl
    cases digit

theorem int32?_toDigits {n : ℕ} (fits : n < 2 ^ 31) :
    int32? (String.ofList (Nat.toDigits 10 n)) = some (n : ℤ) := by
  have read : unsignedLiteral 32 (Nat.toDigits 10 n) = .ok n :=
    unsignedLiteral_toDigits (lt_trans fits (by decide))
  obtain ⟨c, cs, digits, minus, plus⟩ := exists_toDigits_eq_cons n
  rw [digits] at read ⊢
  exact int32?_of_unsigned String.toList_ofList minus plus read fits

/-- The digits of a number are the literal of no other one. -/
theorem eq_of_int32?_toDigits {n : ℕ} {v : ℤ}
    (h : int32? (String.ofList (Nat.toDigits 10 n)) = some v) : v = n := by
  obtain ⟨c, cs, digits, minus, plus⟩ := exists_toDigits_eq_cons n
  have chars : (String.ofList (Nat.toDigits 10 n)).toList = c :: cs := by
    rw [String.toList_ofList, digits]
  obtain ⟨m, -, read, rfl⟩ := (int32?_eq_some_iff chars minus plus).1 h
  -- The number may be too large for a literal, so both are read where there is room for it.
  have wide : n < 2 ^ (32 + n) :=
    Nat.lt_of_lt_of_le Nat.lt_two_pow_self (Nat.pow_le_pow_right (by decide) (by omega))
  have again := unsignedLiteral_of_le (Nat.le_add_right 32 n) read
  rw [← digits, unsignedLiteral_toDigits wide] at again
  injection again with again
  rw [again]

/-! ## Hexadecimal -/

theorem exists_digit_of_mem {base n : ℕ} (hb : 1 < base) {c : Char} (h : c ∈ Nat.toDigits base n) :
    ∃ d < base, c = d.digitChar := by
  induction n using Nat.strong_induction_on with
  | _ n ih =>
    rw [Nat.toDigits_eq_if hb] at h
    split at h
    · rename_i small
      exact ⟨n, small, List.mem_singleton.1 h⟩
    · rename_i large
      rcases List.mem_append.1 h with h | h
      · exact ih _ (Nat.div_lt_self (by omega) hb) h
      · exact ⟨n % base, Nat.mod_lt n (by omega), List.mem_singleton.1 h⟩

theorem mem_hexDigits {zeros n : ℕ} {c : Char}
    (h : c ∈ List.replicate zeros '0' ++ (Nat.toDigits 16 n).map Char.toUpper) :
    ∃ d < 16, c = (Nat.digitChar d).toUpper := by
  rcases List.mem_append.1 h with h | h
  · exact ⟨0, by decide, (List.mem_replicate.1 h).2⟩
  · obtain ⟨d, hd, rfl⟩ := List.mem_map.1 h
    obtain ⟨k, hk, rfl⟩ := exists_digit_of_mem (by decide) hd
    exact ⟨k, hk, rfl⟩

theorem toList_hex_of_nonneg (width : ℕ) {n : ℤ} (hn : 0 ≤ n) :
    ∃ zeros, (hex width n).toList =
      List.replicate zeros '0' ++ (Nat.toDigits 16 n.toNat).map Char.toUpper := by
  have sign : ¬n < 0 := by omega
  exact ⟨_, by simp [hex, signed, sign, show n.natAbs = n.toNat by omega]; rfl⟩

theorem toList_hex_of_neg (width : ℕ) {n : ℤ} (hn : n < 0) :
    ∃ cs, (hex width n).toList = '-' :: cs ∧ cs ≠ [] ∧
      ∀ c ∈ cs, ∃ d < 16, c = (Nat.digitChar d).toUpper := by
  refine ⟨List.replicate (width - (1 + (Nat.toDigits 16 n.natAbs).length)) '0' ++
    (Nat.toDigits 16 n.natAbs).map Char.toUpper, ?_, ?_, ?_⟩
  · simp [hex, signed, hn]
  · intro empty
    exact Nat.toDigits_ne_nil (List.map_eq_nil_iff.1 (List.append_eq_nil_iff.1 empty).2)
  · exact fun c hc => mem_hexDigits hc

/-- The characters of a number in hexadecimal are upper-case digits. -/
theorem mem_hex {width : ℕ} {n : ℤ} (hn : 0 ≤ n) {c : Char} (h : c ∈ (hex width n).toList) :
    ∃ d < 16, c = (Nat.digitChar d).toUpper := by
  obtain ⟨zeros, written⟩ := toList_hex_of_nonneg width hn
  exact mem_hexDigits (written ▸ h)

theorem digitsValue_hex (width : ℕ) {limit : ℕ} {n : ℤ} (hn : 0 ≤ n) (fits : n.toNat ≤ limit) :
    digitsValue 16 limit 0 (hex width n).toList = .ok n.toNat := by
  obtain ⟨zeros, written⟩ := toList_hex_of_nonneg width hn
  rw [written, digitsValue_zeros 16 limit zeros (by decide),
    digitsValue_toDigits casing_toUpper (by decide) (by decide) fits]

/-- Different numbers are written differently in hexadecimal. -/
theorem hex_injective {width : ℕ} {n m : ℤ} (hn : 0 ≤ n) (hm : 0 ≤ m)
    (h : hex width n = hex width m) : n = m := by
  have left := digitsValue_hex width hn (Nat.le_max_left n.toNat m.toNat)
  have right := digitsValue_hex width hm (Nat.le_max_right n.toNat m.toNat)
  rw [h, right] at left
  injection left with left
  omega

theorem toList_decimal_eq_append (width : ℕ) {n : ℤ} (hn : 0 ≤ n) :
    ∃ zeros, (decimal width n).toList = List.replicate zeros '0' ++ Nat.toDigits 10 n.toNat := by
  have sign : ¬n < 0 := by omega
  exact ⟨_, by simp [decimal, signed, sign, show n.natAbs = n.toNat by omega]; rfl⟩

/-- Different numbers are written differently in decimal. -/
theorem decimal_injective {width : ℕ} {n m : ℤ} (hn : 0 ≤ n) (hm : 0 ≤ m)
    (h : decimal width n = decimal width m) : n = m := by
  have read : ∀ k : ℤ, 0 ≤ k → k.toNat ≤ max n.toNat m.toNat →
      digitsValue 10 (max n.toNat m.toNat) 0 (decimal width k).toList = .ok k.toNat := by
    intro k hk fits
    obtain ⟨zeros, written⟩ := toList_decimal_eq_append width hk
    rw [written, digitsValue_zeros 10 _ zeros (by decide), ← List.map_id (Nat.toDigits 10 k.toNat)]
    exact digitsValue_toDigits casing_id (by decide) (by decide) fits
  have left := read n hn (Nat.le_max_left ..)
  rw [h, read m hm (Nat.le_max_right ..)] at left
  injection left with left
  omega

theorem hex_ne_nil (width : ℕ) {n : ℤ} (hn : 0 ≤ n) : (hex width n).toList ≠ [] := by
  obtain ⟨zeros, written⟩ := toList_hex_of_nonneg width hn
  rw [written]
  intro empty
  exact Nat.toDigits_ne_nil (List.map_eq_nil_iff.1 (List.append_eq_nil_iff.1 empty).2)

/-- A byte that is written with a base mark is the value of its literal. -/
theorem int32?_hexByte (b : UInt8) : int32? ("0x" ++ hex 2 b.toNat) = some (b.toNat : ℤ) := by
  have small := b.toNat_lt
  have nonneg : (0 : ℤ) ≤ b.toNat := by omega
  have read : digitsValue 16 (Nat.pow 2 32 - 1) 0 (hex 2 b.toNat).toList = .ok b.toNat :=
    digitsValue_hex 2 nonneg (by simp; omega)
  have digits : underscoresOkFrom true .digit (hex 2 b.toNat).toList = true := by
    refine underscoresOkFrom_of_digits (by decide) true _ fun c hc => ?_
    obtain ⟨d, hd, rfl⟩ := mem_hex nonneg hc
    clear hc
    revert d
    decide
  obtain ⟨c, cs, chars⟩ := List.exists_cons_of_ne_nil (hex_ne_nil 2 nonneg)
  rw [chars] at read digits
  have base : literalBase ('0' :: 'x' :: c :: cs) = (16, c :: cs) := rfl
  have marks : underscoresOk ('0' :: 'x' :: c :: cs) =
      underscoresOkFrom true .digit (c :: cs) := rfl
  have literal : unsignedLiteral 32 ('0' :: 'x' :: c :: cs) = .ok b.toNat := by
    rw [unsignedLiteral, base, read, marks, digits]
    rfl
  refine int32?_of_unsigned ?_ (by decide) (by decide) literal (by omega)
  rw [String.toList_append, chars]
  rfl

end RoomScript.Text
