import RoomScript.Proofs.Assembly.Framing

/-!
# The grammar of operands

An operand is read as terms joined by bars.  A term is a number or a name, with or without a minus
sign in front, and the value of the operand is the bitwise union of its terms.

* `Valued` are the numbers and names with their values, `Signed` the terms, and `Joined` the
  operands with the values of their terms;
* `joinTerms_eq_ok_iff` says that the terms are read by exactly this grammar;
* `operandValue_eq_ok_iff` adds the range of the encoding, and the diagnostics of the statement.
-/

namespace RoomScript.Assembly

/-! ## The grammar -/

section Grammar

variable (procedures : List String)

/-- A number or a name, and its value.  A name of a procedure is not looked up in the opcode
table. -/
inductive Valued : Token → ℤ → Prop
  | number {t : Token} {v : ℤ} (kind : t.kind = .number)
    (literal : Text.int32? t.lexeme = some v) : Valued t v
  | procedure {t : Token} {i : ℕ} (kind : t.kind = .symbol)
    (declared : procedures.idxOf? t.lexeme = some i) : Valued t i
  | name {t : Token} {v : ℤ} (kind : t.kind = .symbol) (free : t.lexeme ∉ procedures)
    (known : Opcode.symbolValue? t.lexeme = some v) : Valued t v

/-- A term, and its value. -/
inductive Signed : List Token → ℤ → Prop
  | plain {t : Token} {v : ℤ} (valued : Valued procedures t v) : Signed [t] v
  | negated {minus t : Token} {v : ℤ} (sign : isPunct minus "-" = true)
    (valued : Valued procedures t v) : Signed [minus, t] (-v)

/-- Terms with bars in between, and the values of the terms. -/
inductive Joined : List Token → List ℤ → Prop
  | last {ts : List Token} {v : ℤ} (term : Signed procedures ts v) : Joined ts [v]
  | more {ts us : List Token} {bar : Token} {v : ℤ} {vs : List ℤ} (term : Signed procedures ts v)
    (separator : isPunct bar "|" = true) (rest : Joined us vs) : Joined (ts ++ bar :: us) (v :: vs)

end Grammar

/-- The bitwise union of numbers in 64-bit two's complement. -/
def unionOf (vs : List ℤ) : ℤ :=
  ((vs.map (BitVec.ofInt 64)).foldr (· ||| ·) 0).toInt

theorem unionOf_union (a b : ℤ) (vs : List ℤ) :
    unionOf (union a b :: vs) = unionOf (a :: b :: vs) := by
  simp only [unionOf, union, List.map_cons, List.foldr_cons, BitVec.ofInt_toInt, BitVec.or_assoc]

theorem unionOf_pair (a b : ℤ) : unionOf [a, b] = union a b := by
  simp [unionOf, union]

theorem unionOf_zero_cons (vs : List ℤ) : unionOf (0 :: vs) = unionOf vs := by
  simp [unionOf]

/-! ## Terms -/

section Terms

variable {procedures : List String} {last t : Token} {value v : ℤ} {ts rest : List Token}

theorem termValue_eq_ok_iff : termValue procedures t = .ok v ↔ Valued procedures t v := by
  constructor
  · intro found
    unfold termValue at found
    split at found
    · rename_i kind
      split at found <;> cases found
      rename_i literal
      exact .number kind literal
    · rename_i kind
      split at found
      · rename_i declared
        cases found
        exact .procedure kind declared
      · rename_i free
        split at found <;> cases found
        rename_i known
        exact .name kind (List.idxOf?_eq_none_iff.1 free) known
    · cases found
  · rintro (⟨kind, literal⟩ | ⟨kind, declared⟩ | ⟨kind, free, known⟩)
    · simp only [termValue, kind, literal]
    · simp only [termValue, kind, declared]
    · simp only [termValue, kind, List.idxOf?_eq_none_iff.2 free, known]

/-- A number or a name is no minus sign. -/
theorem Valued.isPunct_eq_false (valued : Valued procedures t v) (lexeme : String) :
    isPunct t lexeme = false := by
  rcases valued with ⟨kind, -⟩ | ⟨kind, -⟩ | ⟨kind, -, -⟩ <;> simp [isPunct, kind]

/-- The tokens that are taken for the first term are one, when the number or name has a value. -/
theorem exists_signed (found : termValue procedures (signedTerm t rest).1.2 = .ok v) :
    ∃ ts, t :: rest = ts ++ (signedTerm t rest).2 ∧
      Signed procedures ts (if (signedTerm t rest).1.1 then -v else v) := by
  cases rest with
  | nil => exact ⟨[t], rfl, .plain (termValue_eq_ok_iff.1 found)⟩
  | cons u after =>
    by_cases sign : isPunct t "-" = true
    · simp only [signedTerm, sign, if_true] at found ⊢
      exact ⟨[t, u], rfl, .negated sign (termValue_eq_ok_iff.1 found)⟩
    · simp only [signedTerm, sign, Bool.false_eq_true, if_false] at found ⊢
      exact ⟨[t], rfl, .plain (termValue_eq_ok_iff.1 found)⟩

/-- A term is taken for the first one, whatever follows it. -/
theorem Signed.signedTerm_eq (term : Signed procedures ts v) (behind : List Token) :
    ∃ t rest u w, ts ++ behind = t :: rest ∧ (signedTerm t rest).2 = behind ∧
      (signedTerm t rest).1.2 = u ∧ termValue procedures u = .ok w ∧
      (if (signedTerm t rest).1.1 then -w else w) = v := by
  cases term with
  | @plain t v valued =>
    have alone : signedTerm t behind = ((false, t), behind) := by
      cases behind with
      | nil => rfl
      | cons u after => simp [signedTerm, valued.isPunct_eq_false]
    exact ⟨t, behind, t, v, rfl, by rw [alone], by rw [alone], termValue_eq_ok_iff.2 valued,
      by rw [alone]; rfl⟩
  | @negated minus t v sign valued =>
    have signed : signedTerm minus (t :: behind) = ((true, t), behind) := by
      simp [signedTerm, sign]
    exact ⟨minus, t :: behind, t, v, rfl, by rw [signed], by rw [signed],
      termValue_eq_ok_iff.2 valued, by rw [signed]; rfl⟩

theorem Joined.ne_nil {vs : List ℤ} (joined : Joined procedures ts vs) : ts ≠ [] := by
  cases joined with
  | last term => cases term <;> exact List.cons_ne_nil _ _
  | more => exact List.append_ne_nil_of_right_ne_nil _ (List.cons_ne_nil _ _)

/-- Terms are read by exactly the grammar, and joined to the value in front. -/
theorem joinTerms_eq_ok_iff :
    joinTerms procedures last value ts = .ok v ↔
      ∃ vs, Joined procedures ts vs ∧ v = unionOf (value :: vs) := by
  constructor
  · intro read
    fun_induction joinTerms procedures last value ts with
    | case1 => cases read
    | case2 => cases read
    | case3 last value t rest w found value' left =>
      obtain ⟨ts, tokens, term⟩ := exists_signed found
      rw [left, List.append_nil] at tokens
      exact ⟨_, tokens ▸ .last term, (Except.ok.inj read).symm.trans (unionOf_pair _ _).symm⟩
    | case4 last value t rest w found value' bar more left isBar ih =>
      obtain ⟨ts, tokens, term⟩ := exists_signed found
      obtain ⟨vs, joined, total⟩ := ih read
      rw [left] at tokens
      exact ⟨_, tokens ▸ .more term isBar joined, total.trans (unionOf_union _ _ _)⟩
    | case5 => cases read
  · rintro ⟨vs, joined, rfl⟩
    induction joined generalizing last value with
    | last term =>
      obtain ⟨t, rest, u, w, tokens, left, here, found, signed⟩ := term.signedTerm_eq []
      rw [List.append_nil] at tokens
      rw [tokens, joinTerms_of_nil (here ▸ found) left, signed, unionOf_pair]
    | @more ts us bar v vs term separator _ ih =>
      obtain ⟨t, rest, u, w, tokens, left, here, found, signed⟩ := term.signedTerm_eq (bar :: us)
      rw [tokens, joinTerms_of_cons (here ▸ found) left, if_pos separator, signed, ih,
        unionOf_union]

end Terms

/-! ## Operands -/

/-- **Operands are read by exactly their grammar.**  An operand has a value if and only if it is
made of terms with bars in between and the bitwise union of the terms is in the range of the
encoding; the value is this union then, and the operand adds its bytes and no diagnostic to the
statement.  Otherwise it adds no bytes and exactly one diagnostic. -/
theorem operandValue_eq_ok_iff (procedures : List String) (head : Token) (operand : Operand)
    (tokens : List Token) :
    (∀ v, operandValue procedures head operand tokens = .ok v ↔
      ∃ vs, Joined procedures tokens vs ∧ v = unionOf vs ∧
        operand.low ≤ v ∧ v ≤ operand.high) ∧
    ∀ rest, let later := Line.encodeOperands procedures head rest
      let all := Line.encodeOperands procedures head ((operand, tokens) :: rest)
      (∃ v, operandValue procedures head operand tokens = .ok v ∧
        all = (operand.encode v ++ later.1, later.2)) ∨
      (∃ d, operandValue procedures head operand tokens = .error d ∧
        all = (later.1, d :: later.2)) := by
  refine ⟨fun v => ?_, fun rest => ?_⟩
  · cases tokens with
    | nil =>
      constructor
      · intro read
        cases read
      · rintro ⟨vs, joined, -⟩
        exact absurd rfl joined.ne_nil
    | cons first rest =>
      constructor
      · intro read
        simp only [operandValue] at read
        split at read
        · cases read
        · rename_i w joined
          obtain ⟨vs, grammar, total⟩ := joinTerms_eq_ok_iff.1 joined
          rw [unionOf_zero_cons] at total
          split at read <;> cases read
          rename_i inRange
          exact ⟨vs, grammar, total, inRange⟩
      · rintro ⟨vs, grammar, total, inRange⟩
        have joined : joinTerms procedures head 0 (first :: rest) = .ok v :=
          joinTerms_eq_ok_iff.2 ⟨vs, grammar, total.trans (unionOf_zero_cons vs).symm⟩
        rw [operandValue, joined]
        exact if_pos inRange
  · simp only [Line.encodeOperands]
    cases operandValue procedures head operand tokens with
    | ok v => exact .inl ⟨v, rfl, rfl⟩
    | error d => exact .inr ⟨d, rfl, rfl⟩

end RoomScript.Assembly
