import Mathlib.Data.List.TakeWhile
import RoomScript.Json
import RoomScript.Proofs.Text.Number

/-!
# JSON read back

What is written as JSON is read back: texts with their escapes, integers of 64 bits, and objects and
lists of what is read back itself.

* `Takes` says what a reader takes from the front of some bytes;
* `takes_text` and `takes_integer` are the scalars;
* `takes_fields_cons` and `takes_items_cons` are the parts of containers, which `takes_object` and
  `takes_list` put together;
* `takes_value` takes a text with its quotes, as it stands, and `whole?_of_takes` reads a document.
-/

namespace RoomScript.Json

/-! ## Bytes of characters -/

/-- The bytes of characters. -/
def utf8 (cs : List Char) : List UInt8 :=
  cs.flatMap String.utf8EncodeChar

@[simp] theorem utf8_nil : utf8 [] = [] := rfl

@[simp] theorem utf8_append (cs ds : List Char) : utf8 (cs ++ ds) = utf8 cs ++ utf8 ds :=
  List.flatMap_append

theorem toUTF8_eq (s : String) : s.toUTF8 = (utf8 s.toList).toByteArray :=
  String.utf8Encode_toList.symm

/-- The bytes of a character: one small byte, or only bytes that are no ASCII character. -/
theorem utf8EncodeChar_cases (c : Char) :
    (c.toNat < 128 ∧ String.utf8EncodeChar c = [UInt8.ofNat c.toNat]) ∨
      ∀ b ∈ String.utf8EncodeChar c, 128 ≤ b.toNat := by
  by_cases small : c.val.toNat ≤ 127
  · refine .inl ⟨Nat.lt_succ_of_le small, ?_⟩
    rw [String.utf8EncodeChar, if_pos small]
    rfl
  · refine .inr fun b mem => ?_
    rw [String.utf8EncodeChar, if_neg small] at mem
    split_ifs at mem
    all_goals
      simp only [List.mem_cons, List.not_mem_nil, or_false] at mem
      rcases mem with rfl | rfl | rfl | rfl
    all_goals
      rw [UInt8.toNat_ofNat']
      omega

/-! ## Readers -/

/-- A reader takes a value from the front of bytes, and leaves the rest. -/
def Takes {α : Type} (r : Reader α) (bytes : List UInt8) (value : α) (rest : List UInt8) : Prop :=
  ∃ x : Taken bytes α, r bytes = some x ∧ x.value = value ∧ x.rest = rest

section Readers

variable {α β : Type} {bytes middle rest : List UInt8}

theorem Takes.behind {r : Reader β} {value : β} (x : Taken bytes α)
    (takes : Takes r x.rest value rest) :
    ∃ y : Taken bytes β, (r x.rest).map x.behind = some y ∧ y.value = value ∧ y.rest = rest := by
  obtain ⟨y, read, rfl, rfl⟩ := takes
  rw [read]
  exact ⟨_, rfl, rfl, rfl⟩

theorem Takes.map {r : Reader α} {value : α} (takes : Takes r bytes value rest) (f : α → β) :
    Takes (r.map f) bytes (f value) rest := by
  obtain ⟨x, read, rfl, rfl⟩ := takes
  rw [Takes, Reader.map, read]
  exact ⟨_, rfl, rfl, rfl⟩

theorem Takes.followed {first : Reader α} {second : α → Reader β} {value : α} {value' : β}
    (takes : Takes first bytes value middle) (takes' : Takes (second value) middle value' rest) :
    Takes (first.followed second) bytes value' rest := by
  obtain ⟨x, read, rfl, rfl⟩ := takes
  rw [Takes, Reader.followed, read]
  exact takes'.behind x

/-- Blanks in front of a mark are passed over. -/
theorem dropSpace_append {blanks : List UInt8} (all : ∀ b ∈ blanks, isSpace b = true) (b : UInt8)
    (solid : isSpace b = false) (rest : List UInt8) :
    (blanks ++ b :: rest).dropWhile isSpace = b :: rest := by
  rw [List.dropWhile_append_of_pos all, List.dropWhile_cons_of_neg (by simp [solid])]

theorem takes_token {b : UInt8} (front : bytes.dropWhile isSpace = b :: rest) :
    Takes token bytes b rest := by
  unfold Takes token
  split
  · rename_i none
    cases none.symm.trans front
  · rename_i b' rest' found
    cases found.symm.trans front
    exact ⟨_, rfl, rfl, rfl⟩

theorem takes_mark {c : Char} (front : bytes.dropWhile isSpace = c.toUInt8 :: rest) :
    Takes (mark c) bytes () rest := by
  obtain ⟨x, read, value, rfl⟩ := takes_token front
  rw [Takes, mark, read]
  simp only [value, if_true]
  exact ⟨_, rfl, trivial, rfl⟩

theorem mark_eq_none {c : Char} {b : UInt8} (front : bytes.dropWhile isSpace = b :: rest)
    (other : b ≠ c.toUInt8) : mark c bytes = none := by
  obtain ⟨x, read, value, -⟩ := takes_token front
  rw [mark, read]
  simp only [value, if_neg other]

end Readers

/-! ## Texts -/

/-- A byte that stands for itself in a text. -/
def IsPlain (b : UInt8) : Prop :=
  b ≠ '"'.toUInt8 ∧ b ≠ '\\'.toUInt8 ∧ ¬b < 0x20

theorem readText_plain {plain : List UInt8} (all : ∀ b ∈ plain, IsPlain b) (guarded : Bool)
    (read rest : List UInt8) :
    readText guarded read (plain ++ rest) = readText guarded (plain.reverse ++ read) rest := by
  induction plain generalizing read with
  | nil => rfl
  | cons b plain ih =>
    obtain ⟨⟨quote, backslash, control⟩, later⟩ := List.forall_mem_cons.1 all
    have next := ih later (b :: read)
    rw [List.cons_append]
    conv_lhs => unfold readText
    rw [if_neg quote, if_neg backslash, if_neg (by simp [control]), next, List.reverse_cons,
      List.append_assoc, List.singleton_append]

/-- The meaning of an escape is taken over. -/
theorem readText_escape {written after meant : List UInt8} {cs : List Char}
    (escape : readEscape written = some (cs, after)) (guarded : Bool) (read : List UInt8)
    (bytes : utf8 cs = meant) :
    readText guarded read ('\\'.toUInt8 :: written) =
      readText false (meant.reverse ++ read) after := by
  subst bytes
  conv_lhs => unfold readText
  rw [if_neg (by decide), if_pos rfl]
  split
  · rename_i none
    cases none.symm.trans escape
  · rename_i cs' after' found
    cases found.symm.trans escape
    rfl

/-- The four digits of a number are read as the number, and this is no surrogate. -/
def hasNumber (n : ℕ) : Bool :=
  match utf8 (Text.hexFixed 4 n) with
  | [a, b, c, d] => hexNumber? a b c d == some n && !Text.isSurrogate n
  | _ => false

/-- The escape of a character by its number. -/
theorem readEscape_numbered {n : ℕ} (small : n < 0x20 ∨ n ∈ [0x3C, 0x3E, 0x26, 0x2028, 0x2029])
    (rest : List UInt8) :
    readEscape ('u'.toUInt8 :: (utf8 (Text.hexFixed 4 n) ++ rest)) =
      some ([Char.ofNat n], rest) := by
  have numbers : (List.range 0x20 ++ [0x3C, 0x3E, 0x26, 0x2028, 0x2029]).all hasNumber = true := by
    decide +kernel
  have digits := List.all_eq_true.1 numbers n (by
    rw [List.mem_append, List.mem_range]
    exact small)
  unfold hasNumber at digits
  split at digits
  · rename_i a b c d written
    rw [Bool.and_eq_true, beq_iff_eq, Bool.not_eq_true'] at digits
    obtain ⟨number, whole⟩ := digits
    rw [written]
    simp [readEscape, number, readNumbered, whole, charOf]
  · cases digits

/-- A character that needs no escape has bytes that stand for themselves. -/
theorem isPlain_of_ne {c : Char} (quote : c ≠ '"') (backslash : c ≠ '\\') (control : ¬c < ' ') :
    ∀ b ∈ utf8 [c], IsPlain b := by
  have bytes : utf8 [c] = String.utf8EncodeChar c := List.append_nil _
  rw [bytes]
  intro b mem
  rcases utf8EncodeChar_cases c with ⟨small, single⟩ | large
  · rw [single, List.mem_singleton] at mem
    have value : b.toNat = c.toNat := by
      rw [mem, UInt8.toNat_ofNat']
      omega
    have same : ∀ d : Char, d.toUInt8.toNat = d.toNat → b = d.toUInt8 → c = d := by
      rintro d ascii rfl
      exact Char.toNat_inj.1 (value.symm.trans ascii)
    refine ⟨fun h => quote (same _ rfl h), fun h => backslash (same _ rfl h),
      fun less => control ?_⟩
    have : b.toNat < 0x20 := less
    rw [value] at this
    exact this
  · have := large b mem
    refine ⟨?_, ?_, ?_⟩
    · rintro rfl
      exact absurd this (by decide)
    · rintro rfl
      exact absurd this (by decide)
    · intro less
      have : b.toNat < 0x20 := less
      omega

/-- The bytes of one character, as it is written in a text, are read as the character. -/
theorem readText_char (c : Char) (guarded : Bool) (read rest : List UInt8) :
    ∃ guarded', readText guarded read (utf8 (escape c) ++ rest) =
      readText guarded' ((utf8 [c]).reverse ++ read) rest := by
  unfold escape
  split_ifs with quote backslash newline carriage tab numbered
  · subst quote
    exact ⟨false, readText_escape rfl guarded read rfl⟩
  · subst backslash
    exact ⟨false, readText_escape rfl guarded read rfl⟩
  · subst newline
    exact ⟨false, readText_escape rfl guarded read rfl⟩
  · subst carriage
    exact ⟨false, readText_escape rfl guarded read rfl⟩
  · subst tab
    exact ⟨false, readText_escape rfl guarded read rfl⟩
  · have number : c.toNat < 0x20 ∨ c.toNat ∈ [0x3C, 0x3E, 0x26, 0x2028, 0x2029] := by
      rcases numbered with control | rfl | rfl | rfl | rfl | rfl
      · exact .inl control
      all_goals exact .inr (by decide)
    have meant := readEscape_numbered number rest
    rw [Char.ofNat_toNat] at meant
    exact ⟨false, readText_escape meant guarded read rfl⟩
  · exact ⟨guarded,
      readText_plain (isPlain_of_ne quote backslash (not_or.1 numbered).1) guarded read rest⟩

theorem readText_chars (cs : List Char) (guarded : Bool) (read rest : List UInt8) :
    readText guarded read (utf8 (cs.flatMap escape) ++ '"'.toUInt8 :: rest) =
      some (read.reverse ++ utf8 cs, rest) := by
  induction cs generalizing guarded read with
  | nil =>
    unfold readText
    rw [List.flatMap_nil, utf8_nil, List.nil_append, List.append_nil]
    exact if_pos rfl
  | cons c cs ih =>
    have chars : utf8 (c :: cs) = utf8 [c] ++ utf8 cs := utf8_append [c] cs
    rw [List.flatMap_cons, utf8_append, List.append_assoc]
    obtain ⟨guarded', first⟩ := readText_char c guarded read
      (utf8 (cs.flatMap escape) ++ '"'.toUInt8 :: rest)
    rw [first, ih, List.reverse_append, List.reverse_reverse, List.append_assoc, chars]

section Values

variable {bytes middle rest : List UInt8}

/-- The bytes of a text in quotes. -/
theorem utf8_quoted (s : String) : utf8 (quoted s).toList =
    '"'.toUInt8 :: (utf8 (s.toList.flatMap escape) ++ ['"'.toUInt8]) := by
  have chars : (quoted s).toList = ['"'] ++ (s.toList.flatMap escape ++ ['"']) := by
    rw [quoted, String.toList_ofList]
    rfl
  rw [chars, utf8_append, utf8_append]
  rfl

theorem takes_textBody (s : String) (guarded : Bool) (rest : List UInt8) :
    Takes (textBody guarded) (utf8 (s.toList.flatMap escape) ++ '"'.toUInt8 :: rest)
      (RawText.ofString s) rest := by
  have body := readText_chars s.toList guarded [] rest
  rw [List.reverse_nil, List.nil_append] at body
  unfold Takes textBody
  split
  · rename_i none
    cases none.symm.trans body
  · rename_i text rest' found
    cases found.symm.trans body
    refine ⟨_, rfl, ?_, rfl⟩
    rw [RawText.ofString, toUTF8_eq]

/-- No blank is part of a text, so blanks in front of it are passed over and no more. -/
theorem dropSpace_quoted {blanks : List UInt8} (blank : ∀ b ∈ blanks, isSpace b = true) (s : String)
    (rest : List UInt8) : (blanks ++ (utf8 (quoted s).toList ++ rest)).dropWhile isSpace =
      utf8 (quoted s).toList ++ rest := by
  rw [utf8_quoted, List.cons_append, dropSpace_append blank _ (by decide)]

/-- A text is read as it was written. -/
theorem takes_text {s : String}
    (front : bytes.dropWhile isSpace = utf8 (quoted s).toList ++ rest) :
    Takes text bytes (RawText.ofString s) rest := by
  rw [utf8_quoted, List.cons_append, List.append_assoc, List.singleton_append] at front
  obtain ⟨x, read, value, middle⟩ := takes_token front
  have body := takes_textBody s true rest
  rw [← middle] at body
  rw [Takes, text, read]
  simp only [value, if_true]
  exact body.behind x

/-- The name of a field is read as it was written, with the colon behind it. -/
theorem takes_name {s : String}
    (front : bytes.dropWhile isSpace = utf8 (quoted s).toList ++ ':'.toUInt8 :: rest) :
    Takes name bytes (RawText.ofString s) rest := by
  rw [utf8_quoted, List.cons_append, List.append_assoc, List.singleton_append] at front
  refine (takes_mark front).followed ((takes_textBody s false _).followed ?_)
  exact (takes_mark rfl).map fun _ => RawText.ofString s

/-! ## Integers -/

theorem extendNumber_append (value : ℕ) (first second : List UInt8) :
    extendNumber value (first ++ second) =
      (extendNumber value first).bind (extendNumber · second) := by
  induction first generalizing value with
  | nil => rfl
  | cons b first ih =>
    rw [List.cons_append, extendNumber, extendNumber]
    split
    · rfl
    · exact ih _

theorem extendNumber_digit (value : ℕ) {d : ℕ} (digit : d < 10) (small : value * 10 + d < 2 ^ 64) :
    extendNumber value (utf8 [Nat.digitChar d]) = some (value * 10 + d) := by
  have bytes : ∀ d < 10, utf8 [Nat.digitChar d] = [UInt8.ofNat (48 + d)] := by decide
  have size : (UInt8.ofNat (48 + d)).toNat - '0'.toNat = d := by
    have zero : '0'.toNat = 48 := rfl
    rw [UInt8.toNat_ofNat', zero]
    omega
  have power : Nat.pow 2 64 = 2 ^ 64 := rfl
  rw [bytes d digit, extendNumber, size, power, Nat.mod_eq_of_lt small, if_neg (by omega),
    extendNumber]

/-- The digits of a number of 64 bits are read as the number. -/
theorem extendNumber_toDigits {n : ℕ} (small : n < 2 ^ 64) :
    extendNumber 0 (utf8 (Nat.toDigits 10 n)) = some n := by
  induction n using Nat.strong_induction_on with
  | _ n ih =>
    rw [Nat.toDigits_eq_if (by decide)]
    split
    · rename_i digit
      have alone := extendNumber_digit 0 digit (by omega)
      rwa [Nat.zero_mul, Nat.zero_add] at alone
    · rename_i large
      have parts := Nat.div_add_mod' n 10
      have front := ih (n / 10) (by omega) (by omega)
      have last := extendNumber_digit (n / 10) (Nat.mod_lt n (by decide)) (by omega)
      rw [utf8_append, extendNumber_append, front, Option.bind_some, last, parts]

theorem isDigit_of_mem {n : ℕ} {b : UInt8} (mem : b ∈ utf8 (Nat.toDigits 10 n)) :
    isDigit b = true := by
  have bytes : ∀ d < 10, (String.utf8EncodeChar (Nat.digitChar d)).all isDigit = true := by decide
  obtain ⟨c, here, mem⟩ := List.mem_flatMap.1 mem
  obtain ⟨d, small, rfl⟩ := Text.exists_digit_of_mem (by decide) here
  exact List.all_eq_true.1 (bytes d small) b mem

/-- The digits of a number end where no digit follows. -/
theorem spanDigits_toDigits (n : ℕ) (ends : ∀ b ∈ rest.head?, isDigit b = false) :
    spanDigits (utf8 (Nat.toDigits 10 n) ++ rest) = (utf8 (Nat.toDigits 10 n), rest) := by
  rcases Text.toDigits_ten_cases n with ⟨-, zero⟩ | ⟨c, cs, digits, first⟩
  · rw [zero]
    rfl
  · have all : ∀ b ∈ utf8 (c :: cs), isDigit b = true := fun b mem => isDigit_of_mem (digits ▸ mem)
    have head : ∃ b, utf8 [c] = [b] ∧ b ≠ '0'.toUInt8 := by
      simp only [List.mem_cons, List.not_mem_nil, or_false] at first
      rcases first with rfl | rfl | rfl | rfl | rfl | rfl | rfl | rfl | rfl
      all_goals exact ⟨_, rfl, by decide⟩
    obtain ⟨b, single, nonzero⟩ := head
    have chars : utf8 (c :: cs) = b :: utf8 cs := by
      rw [← List.singleton_append, utf8_append, single, List.singleton_append]
    rw [digits]
    rw [chars] at all ⊢
    obtain ⟨digit, later⟩ := List.forall_mem_cons.1 all
    obtain ⟨taken, left⟩ := Text.span_run later ends
    rw [List.cons_append, spanDigits, if_neg nonzero, if_pos digit, taken, left]

theorem utf8_toDigits_ne_nil (n : ℕ) : utf8 (Nat.toDigits 10 n) ≠ [] := by
  obtain ⟨c, cs, digits⟩ := List.exists_cons_of_ne_nil (Nat.toDigits_ne_nil (n := n) (b := 10))
  have := String.length_utf8EncodeChar c
  have := c.utf8Size_pos
  rw [digits]
  intro empty
  have size := congrArg List.length empty
  rw [utf8, List.flatMap_cons, List.length_append, List.length_nil] at size
  omega

theorem takes_wholeNumber {n : ℕ} (small : n < 2 ^ 64)
    (ends : ∀ b ∈ rest.head?, isDigit b = false ∧ b ≠ '.'.toUInt8) :
    Takes wholeNumber (utf8 (Nat.toDigits 10 n) ++ rest) n rest := by
  have span := spanDigits_toDigits n fun b mem => (ends b mem).1
  have number := extendNumber_toDigits small
  have point : ¬rest.head? = some '.'.toUInt8 := fun here => (ends _ here).2 rfl
  have filled := utf8_toDigits_ne_nil n
  unfold Takes wholeNumber
  split
  · rename_i none
    rw [span] at none
    exact absurd none filled
  · split
    · rename_i none
      rw [span, number] at none
      cases none
    · rename_i m found
      rw [span, number] at found
      cases found
      split
      · rename_i dot
        rw [span] at dot
        exact absurd dot point
      · exact ⟨_, rfl, rfl, congrArg Prod.snd span⟩

/-- A number begins with a digit. -/
theorem exists_first_digit (n : ℕ) (rest : List UInt8) :
    ∃ b more, utf8 (Nat.toDigits 10 n) ++ rest = b :: more ∧ isDigit b = true := by
  cases written : utf8 (Nat.toDigits 10 n) with
  | nil => exact absurd written (utf8_toDigits_ne_nil n)
  | cons b more =>
    exact ⟨b, more ++ rest, rfl, isDigit_of_mem (n := n) (written ▸ List.mem_cons_self)⟩

/-- A digit is neither a sign nor a blank nor the beginning of a word. -/
theorem ne_of_isDigit {b : UInt8} (digit : isDigit b = true) :
    b ≠ 'n'.toUInt8 ∧ b ≠ '-'.toUInt8 ∧ isSpace b = false := by
  have other : ∀ c, isDigit c = false → b ≠ c := by
    rintro c none rfl
    exact Bool.false_ne_true (none.symm.trans digit)
  refine ⟨other _ (by decide), other _ (by decide), ?_⟩
  simp only [isSpace, Bool.or_eq_false_iff, beq_eq_false_iff_ne]
  exact ⟨⟨⟨other _ (by decide), other _ (by decide)⟩, other _ (by decide)⟩, other _ (by decide)⟩

theorem dropSpace_decimal {blanks : List UInt8} (blank : ∀ b ∈ blanks, isSpace b = true) (n : ℤ)
    (rest : List UInt8) : (blanks ++ (utf8 (Text.decimal 0 n).toList ++ rest)).dropWhile isSpace =
      utf8 (Text.decimal 0 n).toList ++ rest := by
  have first : ∃ b more, utf8 (Text.decimal 0 n).toList ++ rest = b :: more ∧ isSpace b = false := by
    by_cases negative : n < 0
    · rw [Text.toList_decimal_of_neg negative]
      exact ⟨_, _, rfl, by decide⟩
    · rw [Text.toList_decimal_of_nonneg (Int.not_lt.1 negative)]
      obtain ⟨b, more, split, digit⟩ := exists_first_digit n.toNat rest
      exact ⟨b, more, split, (ne_of_isDigit digit).2.2⟩
  obtain ⟨b, more, split, solid⟩ := first
  rw [split, dropSpace_append blank b solid]

/-- An integer of 64 bits is read as it was written. -/
theorem takes_integer {n : ℤ} (low : -2 ^ 63 ≤ n) (high : n < 2 ^ 63) (before : ℤ)
    (front : bytes.dropWhile isSpace = utf8 (Text.decimal 0 n).toList ++ rest)
    (ends : ∀ b ∈ rest.head?, isDigit b = false ∧ b ≠ '.'.toUInt8) :
    Takes (integer before) bytes n rest := by
  have size := takes_wholeNumber (n := n.natAbs) (by omega) ends
  have power : Nat.pow 2 63 = 2 ^ 63 := rfl
  by_cases negative : n < 0
  · have signed : bytes.dropWhile isSpace =
        '-'.toUInt8 :: (utf8 (Nat.toDigits 10 n.natAbs) ++ rest) := by
      rw [front, Text.toList_decimal_of_neg negative]
      rfl
    obtain ⟨x, read, value, middle⟩ := takes_token signed
    rw [← middle] at size
    obtain ⟨y, read', value', rest'⟩ := size
    rw [Takes, integer, read]
    simp only [value]
    rw [if_neg (by decide), if_pos trivial, read']
    simp only [signedNumber?, value', power, if_true]
    rw [if_pos (by omega)]
    refine ⟨_, rfl, ?_, rest'⟩
    show -(n.natAbs : ℤ) = n
    omega
  · have plain : bytes.dropWhile isSpace = utf8 (Nat.toDigits 10 n.natAbs) ++ rest := by
      rw [front, Text.toList_decimal_of_nonneg (Int.not_lt.1 negative)]
      congr 3
      omega
    obtain ⟨b, more, split, digit⟩ := exists_first_digit n.natAbs rest
    obtain ⟨word, sign, -⟩ := ne_of_isDigit digit
    obtain ⟨x, read, value, -⟩ := takes_token (plain.trans split)
    rw [← plain] at size
    obtain ⟨y, read', value', rest'⟩ := size
    rw [Takes, integer, read]
    simp only [value]
    rw [if_neg word, if_neg sign, read']
    simp only [signedNumber?, value', power]
    rw [if_neg (by decide), if_pos (by omega)]
    refine ⟨_, rfl, ?_, rest'⟩
    show (n.natAbs : ℤ) = n
    omega

end Values

/-! ## Containers -/

section Containers

variable {α : Type} {bytes middle more rest : List UInt8}

theorem takes_fields_cons {field : α → RawText → Reader α} {a a' value : α}
    (first : Takes (name.followed (field a)) bytes a' middle)
    (comma : middle.dropWhile isSpace = ','.toUInt8 :: more)
    (later : Takes (fields field a') more value rest) :
    Takes (fields field a) bytes value rest := by
  obtain ⟨x, read, rfl, rfl⟩ := first
  obtain ⟨y, read', sign, rfl⟩ := takes_token comma
  obtain ⟨z, read'', value, rest⟩ := later
  unfold Takes fields
  rw [read]
  simp only [read', if_pos sign, read'']
  exact ⟨_, rfl, value, rest⟩

theorem takes_fields_last {field : α → RawText → Reader α} {a value : α}
    (last : Takes (name.followed (field a)) bytes value middle)
    (close : middle.dropWhile isSpace = '\x7d'.toUInt8 :: rest) :
    Takes (fields field a) bytes value rest := by
  obtain ⟨x, read, rfl, rfl⟩ := last
  obtain ⟨y, read', sign, rfl⟩ := takes_token close
  have other : ¬y.value = ','.toUInt8 := by
    rw [sign]
    decide
  unfold Takes fields
  rw [read]
  simp only [read', if_neg other, if_pos sign]
  exact ⟨_, rfl, rfl, rfl⟩

/-- An object is read with its fields, the first of which has its name in quotes. -/
theorem takes_object {field : α → RawText → Reader α} {a value : α}
    (brace : bytes.dropWhile isSpace = '\x7b'.toUInt8 :: middle)
    (filled : middle.dropWhile isSpace = '"'.toUInt8 :: more)
    (takes : Takes (fields field a) middle value rest) :
    Takes (object field a) bytes value rest := by
  obtain ⟨x, read, sign, rfl⟩ := takes_token brace
  have inside : mark '\x7d' x.rest = none := mark_eq_none filled (by decide)
  unfold Takes object
  rw [read]
  simp only [if_pos sign, inside]
  exact takes.behind x

theorem takes_items_cons {item : α → Reader α} {fresh value : α} {before values : List α}
    (first : Takes (item (before.headD fresh)) bytes value middle)
    (comma : middle.dropWhile isSpace = ','.toUInt8 :: more)
    (later : Takes (items item fresh before.tail) more values rest) :
    Takes (items item fresh before) bytes (value :: values) rest := by
  obtain ⟨x, read, rfl, rfl⟩ := first
  obtain ⟨y, read', sign, rfl⟩ := takes_token comma
  obtain ⟨z, read'', rfl, rest⟩ := later
  unfold Takes items
  rw [read]
  simp only [read', if_pos sign, read'']
  exact ⟨_, rfl, rfl, rest⟩

theorem takes_items_last {item : α → Reader α} {fresh value : α} {before : List α}
    (last : Takes (item (before.headD fresh)) bytes value middle)
    (close : middle.dropWhile isSpace = ']'.toUInt8 :: rest) :
    Takes (items item fresh before) bytes [value] rest := by
  obtain ⟨x, read, rfl, rfl⟩ := last
  obtain ⟨y, read', sign, rfl⟩ := takes_token close
  have other : ¬y.value = ','.toUInt8 := by
    rw [sign]
    decide
  unfold Takes items
  rw [read]
  simp only [read', if_neg other, if_pos sign]
  exact ⟨_, rfl, rfl, rfl⟩

/-- A list is read with its items, if the first does not begin like the end of the list. -/
theorem takes_list {item : α → Reader α} {fresh : α} {before values : List α} {b : UInt8}
    (bracket : bytes.dropWhile isSpace = '['.toUInt8 :: middle)
    (filled : middle.dropWhile isSpace = b :: more) (other : b ≠ ']'.toUInt8)
    (takes : Takes (items item fresh before) middle values rest) :
    Takes (list item fresh before) bytes values rest := by
  obtain ⟨x, read, sign, rfl⟩ := takes_token bracket
  have inside : mark ']' x.rest = none := mark_eq_none filled other
  unfold Takes list
  rw [read]
  simp only [if_pos sign, inside]
  exact takes.behind x

/-- `null` is read as the empty list. -/
theorem takes_list_null {item : α → Reader α} {fresh : α} {before : List α}
    (front : bytes.dropWhile isSpace = utf8 "null".toList ++ rest) :
    Takes (list item fresh before) bytes [] rest := by
  have chars : utf8 "null".toList = 'n'.toUInt8 :: utf8 "ull".toList := by decide
  have word : dropWord? "ull" (utf8 "ull".toList ++ rest) = some rest := by
    have bytes : "ull".toUTF8.toList = utf8 "ull".toList := by decide +kernel
    rw [dropWord?, bytes, if_pos (by simp), List.drop_left]
  rw [chars, List.cons_append] at front
  obtain ⟨x, read, sign, after⟩ := takes_token front
  have other : ¬x.value = '['.toUInt8 := by
    rw [sign]
    decide
  unfold Takes list
  rw [read]
  simp only [if_neg other, if_pos sign]
  unfold Taken.word
  split
  · rename_i none
    rw [after, word] at none
    cases none
  · rename_i rest' found
    rw [after, word] at found
    cases found
    exact ⟨_, rfl, rfl, rfl⟩

/-- A document of one value with white space behind it is read as the value. -/
theorem whole?_of_takes {r : Reader α} {value : α} (takes : Takes r bytes value rest)
    (blank : ∀ b ∈ rest, isSpace b = true) : whole? r bytes = some value := by
  obtain ⟨x, read, rfl, rfl⟩ := takes
  have ends : token x.rest = none := by
    unfold token
    split
    · rfl
    · rename_i b rest found
      have none : x.rest.dropWhile isSpace = [] := List.dropWhile_eq_nil_iff.2 blank
      cases none.symm.trans found
  rw [whole?, read]
  simp only [ends]

/-! ## Values as they stand -/

/-- A text is passed over up to its closing quote. -/
theorem passed?_text (depth : ℕ) (s : String) (rest : List UInt8) :
    passed? depth '"'.toUInt8 (utf8 (s.toList.flatMap escape) ++ '"'.toUInt8 :: rest) =
      some rest := by
  have body := readText_chars s.toList true [] rest
  have scalar : passScalar? '"'.toUInt8 (utf8 (s.toList.flatMap escape) ++ '"'.toUInt8 :: rest) =
      some rest := by
    rw [passScalar?, if_pos rfl, body]
    rfl
  rw [passed?, beginValue, if_neg (by decide), scalar, Option.map_some, Option.bind_some]
  unfold passFrom
  exact if_pos ⟨rfl, rfl⟩

/-- The bytes of a text are those with which it was written. -/
theorem takes_value {s : String} (depth : ℕ)
    (front : bytes.dropWhile isSpace = utf8 (quoted s).toList ++ rest) :
    Takes (value depth) bytes (utf8 (quoted s).toList) rest := by
  have start := front
  rw [utf8_quoted, List.cons_append, List.append_assoc, List.singleton_append] at start
  have passed : Takes (pass depth) bytes () rest := by
    obtain ⟨x, read, sign, after⟩ := takes_token start
    have inside := passed?_text depth s rest
    unfold Takes pass
    rw [read]
    dsimp only
    split
    · rename_i none
      rw [sign, after, inside] at none
      cases none
    · rename_i rest' found
      rw [sign, after, inside] at found
      cases found
      exact ⟨_, rfl, rfl, rfl⟩
  obtain ⟨x, read, -, rfl⟩ := passed
  rw [Takes, value, read]
  refine ⟨_, rfl, ?_, rfl⟩
  show (bytes.dropWhile isSpace).take _ = _
  rw [front, List.length_append, Nat.add_sub_cancel, List.take_left]

end Containers

end RoomScript.Json
