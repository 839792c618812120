import Mathlib.Data.List.TakeWhile
import RoomScript.Proofs.Text.Number
import RoomScript.Timestamp

/-!
# Timestamps read back

A timestamp that a calendar and a clock can show is read as it was written.

* `fixedDigits` gives the digits of a number at their places, as they stand in a timestamp;
* `fraction_append` and `zone?_zoneText` read the parts of variable length;
* `parse?_text` puts them together;
* `isShown_text` says which characters stand in a timestamp.
-/

namespace RoomScript

namespace Text

/-- The last `width` digits of a number. -/
def fixedDigits : ℕ → ℕ → List Char
  | 0, _ => []
  | width + 1, n => fixedDigits width (n / 10) ++ [Nat.digitChar (n % 10)]

@[simp] theorem length_fixedDigits (width n : ℕ) : (fixedDigits width n).length = width := by
  induction width generalizing n with
  | zero => rfl
  | succ width ih => rw [fixedDigits, List.length_append, ih, List.length_singleton]

theorem fixedDigits_add (width width' n : ℕ) :
    fixedDigits (width + width') n =
      fixedDigits width (n / 10 ^ width') ++ fixedDigits width' n := by
  induction width' generalizing n with
  | zero => simp [fixedDigits]
  | succ width' ih =>
    rw [← Nat.add_assoc, fixedDigits, ih, fixedDigits, Nat.div_div_eq_div_mul, Nat.pow_succ',
      List.append_assoc]

theorem mem_fixedDigits {width n : ℕ} {c : Char} (mem : c ∈ fixedDigits width n) :
    ∃ d < 10, c = Nat.digitChar d := by
  induction width generalizing n with
  | zero => cases mem
  | succ width ih =>
    rcases List.mem_append.1 mem with mem | mem
    · exact ih mem
    · exact ⟨n % 10, Nat.mod_lt n (by decide), List.mem_singleton.1 mem⟩

/-- Filled with zeros, a number has its digits at their places. -/
theorem replicate_append_toDigits {width n : ℕ} (small : n < 10 ^ (width + 1)) :
    List.replicate (width + 1 - (Nat.toDigits 10 n).length) '0' ++ Nat.toDigits 10 n =
      fixedDigits (width + 1) n := by
  induction width generalizing n with
  | zero =>
    rw [Nat.toDigits_of_lt_base (by omega)]
    simp [fixedDigits, Nat.mod_eq_of_lt (show n < 10 by omega)]
  | succ width ih =>
    rw [fixedDigits]
    by_cases digit : n < 10
    · have zero : n / 10 = 0 := by omega
      rw [zero, ← ih (Nat.pow_pos (by decide)), Nat.toDigits_of_lt_base digit,
        Nat.mod_eq_of_lt digit]
      simp [List.replicate_succ']
    · have front : n / 10 < 10 ^ (width + 1) := by
        rw [Nat.div_lt_iff_lt_mul (by decide)]
        exact small
      rw [Nat.toDigits_eq_if (by decide), if_neg digit, List.length_append, List.length_singleton,
        Nat.add_sub_add_right, ← List.append_assoc, ih front]

theorem toList_decimal_of_lt {width n : ℕ} (small : n < 10 ^ (width + 1)) :
    (decimal (width + 1) n).toList = fixedDigits (width + 1) n := by
  have sign : ¬(n : ℤ) < 0 := by omega
  rw [← replicate_append_toDigits small]
  simp [decimal, signed, sign]

end Text

namespace Timestamp

open Text

/-- The date is one of the calendar, the time one of the clock, and the distance from universal time
has no more than 24 whole hours. -/
structure Valid (t : Timestamp) : Prop where
  year : t.year < 10000
  month : 1 ≤ t.month ∧ t.month ≤ 12
  day : 1 ≤ t.day ∧ t.day ≤ daysIn t.year t.month
  hour : t.hour < 24
  minute : t.minute < 60
  second : t.second < 60
  nanosecond : t.nanosecond < 10 ^ 9
  offset : t.offset.natAbs < 25 * 60

/-! ## Digits -/

theorem digit?_digitChar {d : ℕ} (digit : d < 10) : digit? (Nat.digitChar d) = some d := by
  have all : ∀ d < 10, digit? (Nat.digitChar d) = some d := by decide
  exact all d digit

theorem isDigit_of_mem {width n : ℕ} {c : Char} (mem : c ∈ fixedDigits width n) :
    c.isDigit = true := by
  have all : ∀ d < 10, (Nat.digitChar d).isDigit = true := by decide
  obtain ⟨d, digit, rfl⟩ := mem_fixedDigits mem
  exact all d digit

theorem twoDigits?_fixedDigits (n : ℕ) (rest : List Char) :
    twoDigits? (fixedDigits 2 n ++ rest) = some (n % 100, rest) := by
  have first := digit?_digitChar (Nat.mod_lt (n / 10) (by decide))
  have second := digit?_digitChar (Nat.mod_lt n (show 10 > 0 by decide))
  have value : n / 10 % 10 * 10 + n % 10 = n % 100 := by omega
  simp only [fixedDigits, List.nil_append, List.cons_append, twoDigits?, first,
    second, value]

theorem twoDigits?_padded {n : ℕ} (small : n < 100) (rest : List Char) :
    twoDigits? ((padded n).toList ++ rest) = some (n, rest) := by
  have digits : (padded n).toList = fixedDigits 2 n := toList_decimal_of_lt small
  rw [digits, twoDigits?_fixedDigits, Nat.mod_eq_of_lt small]

/-! ## Fractions -/

/-- The number that digits are. -/
theorem foldl_fixedDigits (width n value : ℕ) :
    (fixedDigits width n).foldl (fun n c => n * 10 + (c.toNat - '0'.toNat)) value =
      value * 10 ^ width + n % 10 ^ width := by
  have digit : ∀ d < 10, (Nat.digitChar d).toNat - '0'.toNat = d := by decide
  induction width generalizing n with
  | zero => simp [fixedDigits, Nat.mod_one]
  | succ width ih =>
    have last := digit (n % 10) (Nat.mod_lt n (by decide))
    rw [fixedDigits, List.foldl_append, ih, List.foldl_cons, List.foldl_nil, last, Nat.add_mul,
      Nat.mul_assoc, ← Nat.pow_succ, Nat.pow_succ', Nat.mod_mul, Nat.mul_comm 10 (n / 10 % _)]
    omega

/-- Zeros at the end of a fraction do not count. -/
theorem exists_eq_append_zeros (ds : List Char) :
    ∃ zeros, (ds.reverse.dropWhile (· == '0')).reverse ++ List.replicate zeros '0' = ds := by
  have zeros : ds.reverse.takeWhile (· == '0') =
      List.replicate (ds.reverse.takeWhile (· == '0')).length '0' := by
    refine List.eq_replicate_iff.2 ⟨rfl, fun c mem => ?_⟩
    simpa using List.mem_takeWhile_imp mem
  refine ⟨(ds.reverse.takeWhile (· == '0')).length, ?_⟩
  rw [← List.reverse_replicate, ← zeros, ← List.reverse_append, List.takeWhile_append_dropWhile,
    List.reverse_reverse]

/-- The digits of a fraction without the zeros at its end. -/
def fractionDigits (nanosecond : ℕ) : List Char :=
  ((fixedDigits 9 nanosecond).reverse.dropWhile (· == '0')).reverse

theorem nanoseconds_fractionDigits {n : ℕ} (small : n < 10 ^ 9) :
    nanoseconds (fractionDigits n) = n := by
  obtain ⟨zeros, digits⟩ := exists_eq_append_zeros (fixedDigits 9 n)
  have size := congrArg List.length digits
  rw [List.length_append, List.length_replicate, length_fixedDigits] at size
  have count : 9 - (fractionDigits n).length = zeros := by
    rw [fractionDigits]
    omega
  have whole : (fractionDigits n).take 9 = fractionDigits n := by
    rw [List.take_of_length_le]
    rw [fractionDigits]
    omega
  rw [nanoseconds, whole, count, fractionDigits, digits, foldl_fixedDigits, Nat.zero_mul,
    Nat.zero_add, Nat.mod_eq_of_lt small]

/-- A fraction is read up to where no digit follows. -/
theorem fraction_append {n : ℕ} (small : n < 10 ^ 9) {rest : List Char}
    (ends : ∀ c ∈ rest.head?, c.isDigit = false ∧ c ≠ '.' ∧ c ≠ ',') :
    fraction ((fractionText n).toList ++ rest) = (n, rest) := by
  by_cases none : n = 0
  · rw [none, fractionText, if_pos rfl]
    show fraction rest = (0, rest)
    unfold fraction
    split
    · rename_i c d rest
      obtain ⟨-, point, comma⟩ := ends c rfl
      rw [if_neg (by simp [point, comma])]
    · rfl
  · have written : (fractionText n).toList = '.' :: fractionDigits n := by
      have digits : (Text.decimal 9 n).toList = fixedDigits 9 n := toList_decimal_of_lt small
      rw [fractionText, if_neg none]
      simp only [digits, String.toList_ofList]
      rfl
    have all : ∀ c ∈ fractionDigits n, c.isDigit = true := by
      intro c mem
      have mem := (List.dropWhile_sublist _).subset (List.mem_reverse.1 mem)
      exact isDigit_of_mem (List.mem_reverse.1 mem)
    have filled : fractionDigits n ≠ [] := by
      intro empty
      have value := nanoseconds_fractionDigits small
      rw [empty] at value
      exact none value.symm
    obtain ⟨taken, after⟩ := Text.span_run all fun c mem => (ends c mem).1
    have digits : nanoseconds ((fractionDigits n ++ rest).takeWhile Char.isDigit) = n := by
      rw [taken, nanoseconds_fractionDigits small]
    rw [written]
    generalize fractionDigits n = ds at all filled digits after
    cases ds with
    | nil => exact absurd rfl filled
    | cons d ds =>
      rw [List.cons_append] at digits after ⊢
      rw [List.cons_append, fraction, if_pos ⟨.inl rfl, all d List.mem_cons_self⟩, digits, after]

/-! ## Distances -/

theorem toList_zoneText {offset : ℤ} (away : offset ≠ 0) :
    ∃ sign, (zoneText offset).toList = sign :: ((padded (offset.natAbs / 60)).toList ++
      ':' :: (padded (offset.natAbs % 60)).toList) ∧
      (sign = '-' ∧ offset < 0 ∨ sign = '+' ∧ 0 ≤ offset) := by
  rw [zoneText, if_neg away]
  by_cases behind : offset < 0
  · exact ⟨'-', by simp [behind], .inl ⟨rfl, behind⟩⟩
  · exact ⟨'+', by simp [behind], .inr ⟨rfl, Int.not_lt.1 behind⟩⟩

theorem zone?_zoneText {offset : ℤ} (small : offset.natAbs < 25 * 60) :
    zone? (zoneText offset).toList = some offset := by
  by_cases none : offset = 0
  · rw [none]
    rfl
  · obtain ⟨sign, written, which⟩ := toList_zoneText none
    have hours : offset.natAbs / 60 < 100 := by omega
    have minutes : offset.natAbs % 60 < 100 := by omega
    have more : (padded (offset.natAbs / 60)).toList ++
        ':' :: (padded (offset.natAbs % 60)).toList ≠ [] := by simp
    have last := twoDigits?_padded minutes []
    rw [List.append_nil] at last
    rw [written, zone?]
    · simp only [twoDigits?_padded hours, mark?, if_true, last, Option.bind_eq_bind,
        Option.bind_some]
      rw [if_neg (by simp; omega)]
      rcases which with ⟨rfl, negative⟩ | ⟨rfl, positive⟩
      · rw [if_neg (by decide), if_pos rfl]
        exact congrArg some (by omega)
      · rw [if_pos rfl]
        exact congrArg some (by omega)
    · rintro rfl same
      exact more same

theorem head?_zoneText (offset : ℤ) :
    ∀ c ∈ (zoneText offset).toList.head?, c.isDigit = false ∧ c ≠ '.' ∧ c ≠ ',' := by
  have marks : ∀ c ∈ ['Z', '+', '-'], c.isDigit = false ∧ c ≠ '.' ∧ c ≠ ',' :=
    List.forall_mem_cons.2 ⟨by decide, List.forall_mem_cons.2 ⟨by decide,
      List.forall_mem_singleton.2 (by decide)⟩⟩
  intro c first
  refine marks c ?_
  by_cases none : offset = 0
  · rw [none] at first
    cases first
    decide
  · obtain ⟨sign, written, which⟩ := toList_zoneText none
    rw [written] at first
    cases first
    rcases which with ⟨rfl, -⟩ | ⟨rfl, -⟩
    all_goals decide

theorem daysIn_le (year month : ℕ) : daysIn year month ≤ 31 := by
  unfold daysIn
  split_ifs
  all_goals decide

/-- A timestamp is read as it was written. -/
theorem parse?_text {t : Timestamp} (valid : t.Valid) : parse? t.text = some t := by
  have years : (Text.decimal 4 t.year).toList =
      fixedDigits 2 (t.year / 100) ++ fixedDigits 2 t.year :=
    (toList_decimal_of_lt valid.year).trans (fixedDigits_add 2 2 t.year)
  have written : t.text.toList =
      fixedDigits 2 (t.year / 100) ++ (fixedDigits 2 t.year ++ '-' :: ((padded t.month).toList ++
        '-' :: ((padded t.day).toList ++ 'T' :: ((padded t.hour).toList ++ ':' ::
          ((padded t.minute).toList ++ ':' :: ((padded t.second).toList ++
            ((fractionText t.nanosecond).toList ++ (zoneText t.offset).toList))))))) := by
    simp [text, years]
  have month := valid.month
  have day := valid.day
  have days := daysIn_le t.year t.month
  have hour := valid.hour
  have minute := valid.minute
  have second := valid.second
  have year := valid.year
  have century : t.year / 100 % 100 * 100 + t.year % 100 = t.year := by omega
  have hours : ∀ rest, oneOrTwoDigits? ((padded t.hour).toList ++ rest) = some (t.hour, rest) := by
    intro rest
    unfold oneOrTwoDigits?
    rw [twoDigits?_padded (hour.trans (by decide))]
  have mark : ∀ c rest, mark? c (c :: rest) = some rest := fun c rest => if_pos rfl
  rw [parse?, written]
  refine Option.bind_eq_some_iff.2 ⟨_, twoDigits?_fixedDigits _ _, ?_⟩
  refine Option.bind_eq_some_iff.2 ⟨_, twoDigits?_fixedDigits _ _, ?_⟩
  refine Option.bind_eq_some_iff.2 ⟨_, mark _ _, ?_⟩
  refine Option.bind_eq_some_iff.2 ⟨_, twoDigits?_padded (by omega) _, ?_⟩
  refine Option.bind_eq_some_iff.2 ⟨_, mark _ _, ?_⟩
  refine Option.bind_eq_some_iff.2 ⟨_, twoDigits?_padded (by omega) _, ?_⟩
  refine Option.bind_eq_some_iff.2 ⟨_, mark _ _, ?_⟩
  refine Option.bind_eq_some_iff.2 ⟨_, hours _, ?_⟩
  refine Option.bind_eq_some_iff.2 ⟨_, mark _ _, ?_⟩
  refine Option.bind_eq_some_iff.2 ⟨_, twoDigits?_padded (by omega) _, ?_⟩
  refine Option.bind_eq_some_iff.2 ⟨_, mark _ _, ?_⟩
  refine Option.bind_eq_some_iff.2 ⟨_, twoDigits?_padded (by omega) _, ?_⟩
  simp only [fraction_append valid.nanosecond (head?_zoneText _)]
  refine Option.bind_eq_some_iff.2 ⟨_, zone?_zoneText valid.offset, ?_⟩
  simp only [century]
  rw [if_neg (by omega)]

/-! ## Characters -/

theorem mem_decimal {width n : ℕ} {c : Char} (mem : c ∈ (Text.decimal width n).toList) :
    ∃ d < 10, c = Nat.digitChar d := by
  obtain ⟨zeros, written⟩ := toList_decimal_eq_append width (Int.natCast_nonneg n)
  rw [written] at mem
  rcases List.mem_append.1 mem with mem | mem
  · exact ⟨0, by decide, (List.mem_replicate.1 mem).2⟩
  · exact exists_digit_of_mem (by decide) mem

/-- The characters of a timestamp: digits and a few marks. -/
def IsShown (c : Char) : Prop :=
  (∃ d < 10, c = Nat.digitChar d) ∨ c ∈ ['-', 'T', ':', '.', 'Z', '+']

theorem isShown_fractionText (n : ℕ) : ∀ c ∈ (fractionText n).toList, IsShown c := by
  intro c mem
  unfold fractionText at mem
  split_ifs at mem with none
  · cases mem
  · rw [String.toList_ofList] at mem
    rcases List.mem_cons.1 mem with rfl | mem
    · exact .inr (by decide)
    · have mem := (List.dropWhile_sublist _).subset (List.mem_reverse.1 mem)
      exact .inl (mem_decimal (List.mem_reverse.1 mem))

theorem isShown_zoneText (offset : ℤ) : ∀ c ∈ (zoneText offset).toList, IsShown c := by
  intro c mem
  by_cases none : offset = 0
  · rw [none] at mem
    cases List.mem_singleton.1 mem
    exact .inr (by decide)
  · obtain ⟨sign, written, which⟩ := toList_zoneText none
    rw [written] at mem
    simp only [List.mem_cons, List.mem_append] at mem
    rcases mem with rfl | mem | rfl | mem
    · rcases which with ⟨rfl, -⟩ | ⟨rfl, -⟩
      all_goals exact .inr (by decide)
    · exact .inl (mem_decimal mem)
    · exact .inr (by decide)
    · exact .inl (mem_decimal mem)

theorem isShown_text (t : Timestamp) : ∀ c ∈ t.text.toList, IsShown c := by
  have number : ∀ width n : ℕ, ∀ c ∈ (Text.decimal width n).toList, IsShown c :=
    fun _ _ c mem => .inl (mem_decimal mem)
  have mark : ∀ m ∈ ["-", "T", ":"], ∀ c ∈ m.toList, IsShown c := by
    intro m mem c here
    simp only [List.mem_cons, List.not_mem_nil, or_false] at mem
    rcases mem with rfl | rfl | rfl
    all_goals
      cases List.mem_singleton.1 here
      exact .inr (by decide)
  unfold text
  simp only [String.toList_append, List.forall_mem_append, and_assoc]
  exact ⟨number _ _, mark _ (by decide), number _ _, mark _ (by decide), number _ _,
    mark _ (by decide), number _ _, mark _ (by decide), number _ _, mark _ (by decide), number _ _,
    isShown_fractionText _, isShown_zoneText _⟩

end Timestamp

end RoomScript
