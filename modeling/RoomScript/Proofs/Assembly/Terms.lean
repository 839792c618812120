import RoomScript.Proofs.Assembly.Reading
import RoomScript.Proofs.Opcode.Names

/-!
# What operands stand for

An operand is written as one term, as a negated term, or as terms joined by bars.  Its value does
not depend on which procedures are declared, as long as these have their default names.

* `Term.symbol` and `Term.number` are the single terms;
* `Written` is an operand with its characters, its tokens and its value, and `Denotes` says that a
  text can be read as one;
* `encodeOperands_written` encodes operands to the bytes of their values.
-/

namespace RoomScript

/-- The digits of a number are one token. -/
theorem Phrase.digits (n : ℕ) :
    Phrase (Nat.toDigits 10 n) [.ofChars .number (Nat.toDigits 10 n)] := by
  have part : ∀ c ∈ Nat.toDigits 10 n, ('0' ≤ c && c ≤ '9') = true := by
    intro c hc
    obtain ⟨d, small, rfl⟩ := Text.exists_digit_of_mem (by decide) hc
    clear hc
    revert d
    decide
  obtain ⟨c, cs, chars⟩ := List.exists_cons_of_ne_nil (Nat.toDigits_ne_nil (n := n) (b := 10))
  rw [chars] at part ⊢
  obtain ⟨digit, digits⟩ := List.forall_mem_cons.1 part
  refine .number digit fun d hd => ?_
  rw [isIdentPart, digits d hd, Bool.or_true]

namespace Assembly

/-! ## Unions -/

theorem union_assoc (a b c : ℤ) : union (union a b) c = union a (union b c) := by
  simp only [union, BitVec.ofInt_toInt, BitVec.or_assoc]

theorem zero_union {v : ℤ} (low : -2 ^ 63 ≤ v) (high : v < 2 ^ 63) : union 0 v = v := by
  have zero : BitVec.ofInt 64 0 = 0#64 := rfl
  rw [union, zero, BitVec.zero_or, BitVec.toInt_ofInt, Int.bmod_eq_of_le] <;> omega

theorem union_union_zero (a b : ℤ) : union a (union b 0) = union a b := by
  have zero : BitVec.ofInt 64 0 = 0#64 := rfl
  rw [union, union, zero, BitVec.or_zero, BitVec.ofInt_toInt, union]

/-! ## Terms -/

/-- Main procedures have their default names. -/
def Consistent (procedures : List String) : Prop :=
  ∀ (i : ℕ) (name : String), procedures[i]? = some name → name = Procedure.defaultName .main i

/-- A single number or name with its token and its value. -/
structure Term (text : List Char) (t : Token) (v : ℤ) : Prop where
  phrase : Phrase text [t]
  kind : t.kind = .symbol ∨ t.kind = .number
  value : ∀ {procedures : List String}, Consistent procedures → termValue procedures t = .ok v

namespace Term

/-- A name that stands for a value, also where procedures have names. -/
theorem symbol {name : String} {v : ℤ} (h : Opcode.IsSymbol name v) :
    Term name.toList (.ofChars .symbol name.toList) v where
  phrase := .word h.word
  kind := .inl rfl
  value := by
    intro procedures consistent
    simp only [termValue, Token.ofChars_kind, Token.ofChars_lexeme, String.ofList_toList]
    cases found : procedures.idxOf? name with
    | none => rw [h.value]
    | some i =>
      obtain ⟨small, here, -⟩ := List.idxOf?_eq_some_iff.1 found
      have default := consistent i name (List.getElem?_eq_some_iff.2 ⟨small, here⟩)
      have value := h.value
      rw [default] at value
      rw [Opcode.eq_of_symbolValue?_defaultName value]

theorem number {s : String} {v : ℤ} (phrase : Phrase s.toList [.ofChars .number s.toList])
    (literal : Text.int32? s = some v) : Term s.toList (.ofChars .number s.toList) v where
  phrase := phrase
  kind := .inr rfl
  value := by
    intro procedures _
    simp only [termValue, Token.ofChars_kind, Token.ofChars_lexeme, String.ofList_toList, literal]

theorem digits {n : ℕ} (fits : n < 2 ^ 31) :
    Term (Nat.toDigits 10 n) (.ofChars .number (Nat.toDigits 10 n)) n := by
  have literal := Text.int32?_toDigits fits
  have term := number (s := String.ofList (Nat.toDigits 10 n)) (v := n)
    (by rw [String.toList_ofList]; exact .digits n) literal
  rwa [String.toList_ofList] at term

/-- A byte with its base mark. -/
theorem hexByte (b : UInt8) :
    ∃ t, Term ("0x" ++ Text.hex 2 b.toNat).toList t b.toNat := by
  refine ⟨_, number ?_ (Text.int32?_hexByte b)⟩
  rw [String.toList_append]
  refine .number (by decide) (List.forall_mem_cons.2 ⟨by decide, ?_⟩)
  exact Opcode.isIdentPart_of_mem_hex (by omega)

variable {text : List Char} {t : Token} {v : ℤ}

theorem signedTerm_eq (h : Term text t v) (rest : List Token) :
    signedTerm t rest = ((false, t), rest) := by
  have noMinus : isPunct t "-" = false := by
    rcases h.kind with kind | kind <;> simp [isPunct, kind]
  cases rest with
  | nil => rfl
  | cons u after => simp [signedTerm, noMinus]

theorem noComma (h : Term text t v) : t.kind ≠ .comma := by
  rcases h.kind with kind | kind <;> simp [kind]

end Term

/-- An operand as it is written. -/
structure Written where
  text : List Char
  tokens : List Token
  value : ℤ
  phrase : Phrase text tokens
  filled : tokens ≠ []
  noComma : ∀ t ∈ tokens, t.kind ≠ .comma
  joined : ∀ {procedures : List String}, Consistent procedures → ∀ (last : Token) (before : ℤ),
    joinTerms procedures last before tokens = .ok (union before value)

/-- A text can be read as an operand with a value. -/
def Denotes (text : List Char) (v : ℤ) : Prop :=
  ∃ w : Written, w.text = text ∧ w.value = v

namespace Denotes

variable {text text' : List Char} {t : Token} {v v' : ℤ}

theorem term (h : Term text t v) : Denotes text v := by
  refine ⟨⟨text, [t], v, h.phrase, by simp, by simpa using h.noComma, ?_⟩, rfl, rfl⟩
  intro procedures consistent last before
  have eq := h.signedTerm_eq []
  rw [joinTerms_of_nil (v := v) (by rw [eq]; exact h.value consistent) (by rw [eq]), eq]
  rfl

theorem negated (h : Term text t v) : Denotes ('-' :: text) (-v) := by
  have noComma : ∀ u ∈ [.ofChars .punct ['-'], t], u.kind ≠ Token.Kind.comma := by
    simpa using h.noComma
  refine ⟨⟨'-' :: text, [.ofChars .punct ['-'], t], -v, h.phrase.minus, by simp, noComma, ?_⟩,
    rfl, rfl⟩
  intro procedures consistent last before
  have eq : signedTerm (.ofChars .punct ['-']) [t] = ((true, t), []) := rfl
  rw [joinTerms_of_nil (v := v) (by rw [eq]; exact h.value consistent) (by rw [eq]), eq]
  rfl

theorem join (h : Term text t v) (h' : Denotes text' v') :
    Denotes (text ++ (" | ".toList ++ text')) (union v v') := by
  obtain ⟨w, rfl, rfl⟩ := h'
  refine ⟨⟨_, _, union v w.value, h.phrase.bar w.phrase, by simp, ?_, ?_⟩, rfl, rfl⟩
  · intro u hu
    simp only [List.cons_append, List.nil_append, List.mem_cons] at hu
    rcases hu with rfl | rfl | hu
    · exact h.noComma
    · decide
    · exact w.noComma u hu
  · intro procedures consistent last before
    have eq := h.signedTerm_eq (.ofChars .punct ['|'] :: w.tokens)
    have isBar : isPunct (.ofChars .punct ['|']) "|" = true := by decide
    rw [List.cons_append, List.nil_append, List.cons_append, List.nil_append,
      joinTerms_of_cons (v := v) (by rw [eq]; exact h.value consistent) (by rw [eq]), eq,
      if_pos isBar, w.joined consistent, ← union_assoc]
    rfl

theorem congr (h : Denotes text v) (same : ∀ before, union before v = union before v') :
    Denotes text v' := by
  obtain ⟨w, rfl, rfl⟩ := h
  refine ⟨⟨w.text, w.tokens, v', w.phrase, w.filled, w.noComma, ?_⟩, rfl, rfl⟩
  intro procedures consistent last before
  rw [w.joined consistent, same]

/-- A number in decimal. -/
theorem decimal {n : ℤ} (low : -2 ^ 31 < n) (high : n < 2 ^ 31) :
    Denotes (Text.decimal 0 n).toList n := by
  by_cases nonneg : 0 ≤ n
  · have term := Term.digits (n := n.toNat) (by omega)
    rw [Int.toNat_of_nonneg nonneg] at term
    rw [Text.toList_decimal_of_nonneg nonneg]
    exact .term term
  · have term := Denotes.negated (Term.digits (n := n.natAbs) (by omega))
    rw [show -(n.natAbs : ℤ) = n by omega] at term
    rwa [Text.toList_decimal_of_neg (by omega)]

end Denotes

/-! ## Masks -/

/-- The words for the bits of an actor mask. -/
def bitWords : List (String × ℤ) :=
  Opcode.maskWords.tail ++ [("0x80", 128)]

/-- The bit that a word stands for. -/
def bitValue (name : String) : ℤ :=
  (bitWords.lookup name).getD 0

theorem bitWords_sound : ∀ e ∈ bitWords, bitValue e.1 = e.2 := by
  decide +kernel

theorem term_of_mem_bitWords {e : String × ℤ} (mem : e ∈ bitWords) :
    ∃ t, Term e.1.toList t e.2 := by
  rcases List.mem_append.1 mem with mem | mem
  · exact ⟨_, .symbol (Opcode.isSymbol_of_mem_maskWords e (List.mem_of_mem_tail mem))⟩
  · rw [List.mem_singleton.1 mem]
    exact ⟨_, .number (.number (by decide) (List.all_eq_true.1 (by decide))) (by decide +kernel)⟩

/-- Words for bits, joined by bars. -/
theorem denotes_bits (names : List String) (filled : names ≠ [])
    (known : ∀ name ∈ names, ∃ e ∈ bitWords, e.1 = name) :
    Denotes (List.intercalate " | ".toList (names.map String.toList))
      ((names.map bitValue).foldr union 0) := by
  induction names with
  | nil => exact absurd rfl filled
  | cons name names ih =>
    obtain ⟨⟨e, mem, rfl⟩, later⟩ := List.forall_mem_cons.1 known
    obtain ⟨t, term⟩ := term_of_mem_bitWords mem
    rw [← bitWords_sound e mem] at term
    cases names with
    | nil =>
      rw [List.map_singleton, List.intercalate_singleton]
      exact (Denotes.term term).congr fun before => (union_union_zero before _).symm
    | cons next names =>
      have joined := Denotes.join term (ih (by simp) later)
      simpa using joined

/-- The name of an actor mask stands for the mask. -/
theorem denotes_actorMask {v : ℤ} {name : String} (nonneg : 0 ≤ v)
    (named : Opcode.actorMask? v = some name) : Denotes name.toList v := by
  have masks : ∀ n ∈ List.range 256,
      ((Opcode.bitNames Opcode.actorBits n).map bitValue).foldr union 0 = (n : ℤ) ∧
        (Opcode.bitNames Opcode.actorBits n).all
          (fun name => bitWords.any fun e => e.1 == name) = true := by decide +kernel
  unfold Opcode.actorMask? at named
  split at named
  · rename_i zero
    rw [zero, ← Option.some.inj named]
    exact .term (.symbol (Opcode.isSymbol_of_mem_maskWords ("SAT_AUTO", 0) (by decide)))
  split at named
  · cases named
  · rename_i nonzero within
    -- No bit would mean no value but zero, so there is a first word.
    obtain ⟨value, known⟩ := masks v.toNat (List.mem_range.2 (by omega))
    rw [Int.toNat_of_nonneg nonneg] at value
    have bits := denotes_bits (Opcode.bitNames Opcode.actorBits v.toNat) ?_ ?_
    · rw [value] at bits
      rwa [← Option.some.inj named, String.toList_intercalate]
    · intro empty
      rw [empty] at value
      exact nonzero value.symm
    · intro name mem
      obtain ⟨e, he, same⟩ := List.any_eq_true.1 (List.all_eq_true.1 known name mem)
      exact ⟨e, he, by simpa using same⟩

/-! ## Operands -/

/-- The comma between operands. -/
def commaToken : Token := .ofChars .comma [',']

/-- Operands as they stand on a line. -/
theorem phrase_operands {ws : List Written} (filled : ws ≠ []) :
    Phrase (List.intercalate ", ".toList (ws.map Written.text))
      (List.intercalate [commaToken] (ws.map Written.tokens)) := by
  induction ws with
  | nil => exact absurd rfl filled
  | cons w ws ih =>
    cases ws with
    | nil => simpa using w.phrase
    | cons next ws =>
      have joined := w.phrase.comma (ih (by simp))
      simpa [commaToken] using joined

theorem splitOnP_operands {ws : List Written} (filled : ws ≠ []) :
    (List.intercalate [commaToken] (ws.map Written.tokens)).splitOnP (·.kind == .comma) =
      ws.map Written.tokens := by
  induction ws with
  | nil => exact absurd rfl filled
  | cons w ws ih =>
    have plain : ∀ t ∈ w.tokens, (t.kind == .comma) = false := by simpa using w.noComma
    cases ws with
    | nil =>
      rw [List.map_singleton, List.intercalate_singleton, List.splitOnP_eq_singleton plain]
    | cons next ws =>
      rw [List.map_cons, List.map_cons, List.intercalate_cons_cons, List.append_assoc,
        List.singleton_append, List.splitOnP_append_cons_of_forall_mem plain commaToken rfl,
        ← List.map_cons, ih (by simp)]

/-- A line of a first token and operands. -/
theorem ofTokens?_operands (head : Token) {ws : List Written} (filled : ws ≠ []) :
    Line.ofTokens? (head :: List.intercalate [commaToken] (ws.map Written.tokens)) =
      some ⟨head, ws.map Written.tokens⟩ := by
  have split := splitOnP_operands filled
  have some : List.intercalate [commaToken] (ws.map Written.tokens) ≠ [] := by
    obtain ⟨w, ws, rfl⟩ := List.exists_cons_of_ne_nil filled
    have first := w.filled
    cases ws <;> simp [first]
  obtain ⟨t, rest, tokens⟩ := List.exists_cons_of_ne_nil some
  rw [tokens] at split ⊢
  rw [← split]
  rfl

section Encoding

variable {procedures : List String}

/-- An operand that is written has its value. -/
theorem operandValue_written (consistent : Consistent procedures) (head : Token) {o : Operand}
    {w : Written} (fits : o.low ≤ w.value ∧ w.value ≤ o.high) :
    operandValue procedures head o w.tokens = .ok w.value := by
  have low : -2 ^ 63 ≤ o.low := by
    unfold Operand.low
    split <;> decide
  have high : o.high < 2 ^ 63 := by
    unfold Operand.high
    split <;> decide
  have joined := w.joined consistent head 0
  rw [zero_union (by omega) (by omega)] at joined
  obtain ⟨t, rest, tokens⟩ := List.exists_cons_of_ne_nil w.filled
  rw [tokens] at joined ⊢
  simp only [operandValue, joined, if_pos fits]

/-- Operands that are written are encoded to the bytes of their values. -/
theorem encodeOperands_written (consistent : Consistent procedures) (head : Token)
    (operands : List (Operand × Written))
    (fits : ∀ p ∈ operands, p.1.low ≤ p.2.value ∧ p.2.value ≤ p.1.high) :
    Line.encodeOperands procedures head (operands.map fun p => (p.1, p.2.tokens)) =
      (operands.flatMap fun p => p.1.encode p.2.value, []) := by
  induction operands with
  | nil => rfl
  | cons p operands ih =>
    obtain ⟨first, later⟩ := List.forall_mem_cons.1 fits
    simp only [List.map_cons, Line.encodeOperands, ih later, operandValue_written consistent head
      first, List.flatMap_cons]

end Encoding

end Assembly

end RoomScript
