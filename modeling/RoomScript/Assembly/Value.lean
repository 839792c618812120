import RoomScript.Opcode.Names
import RoomScript.Token

/-!
# Operand values

An operand is one or more terms joined by `|`.  A term is a number or a name, with or without a
minus sign.  The value is the bitwise union of the terms in 64-bit two's complement.

An operand that has no value has exactly one diagnostic saying why.
-/

namespace RoomScript.Assembly

/-- The bitwise union of two numbers in 64-bit two's complement. -/
def union (a b : Int) : Int :=
  (BitVec.ofInt 64 a ||| BitVec.ofInt 64 b).toInt

/-- The value of a number or a name.  `procedures` are the names that stand for their positions;
other names are looked up in the opcode table's symbols. -/
def termValue (procedures : List String) (t : Token) : Except Diagnostic Int :=
  match t.kind with
  | .number =>
    match Text.int32? t.lexeme with
    | some v => .ok v
    | none => .error (t.diagnostic (.invalidNumber t.lexeme))
  | .symbol =>
    match procedures.idxOf? t.lexeme with
    | some index => .ok index
    | none =>
      match Opcode.symbolValue? t.lexeme with
      | some v => .ok v
      | none => .error (t.diagnostic (.unknownSymbol t.lexeme))
  | _ => .error (t.diagnostic (.unexpectedToken t.lexeme))

/-- A single character of punctuation. -/
def isPunct (t : Token) (lexeme : String) : Bool :=
  t.kind == .punct && t.lexeme == lexeme

/-- The term that begins with `t`: whether it is negated, its number or name, and what follows.  A
minus sign with nothing after it is taken for the term itself. -/
def signedTerm (t : Token) : List Token → (Bool × Token) × List Token
  | u :: after => if isPunct t "-" then ((true, u), after) else ((false, t), u :: after)
  | [] => ((false, t), [])

theorem length_signedTerm (t : Token) (rest : List Token) :
    (signedTerm t rest).2.length ≤ rest.length := by
  cases rest with
  | nil => simp [signedTerm]
  | cons u after =>
    simp only [signedTerm]
    split <;> simp

/-- The terms joined to `value`, of which the next one begins here.  `last` is the token in front,
where a missing term is reported. -/
def joinTerms (procedures : List String) (last : Token) (value : Int) :
    List Token → Except Diagnostic Int
  | [] => .error (last.diagnostic .expectedOperand)
  | t :: rest =>
    match termValue procedures (signedTerm t rest).1.2 with
    | .error d => .error d
    | .ok v =>
      let value := union value (if (signedTerm t rest).1.1 then -v else v)
      match _left : (signedTerm t rest).2 with
      | [] => .ok value
      | bar :: more =>
        if isPunct bar "|" then joinTerms procedures bar value more
        else .error (bar.diagnostic (.unexpectedToken bar.lexeme))
termination_by ts => ts.length
decreasing_by
  have := length_signedTerm t rest
  rw [_left] at this
  simp at this ⊢
  omega

/-- The value of an operand of the line that begins with `head`.  It has to fit the encoding. -/
def operandValue (procedures : List String) (head : Token) (operand : Operand)
    (tokens : List Token) : Except Diagnostic Int :=
  match tokens with
  | [] => .error (head.diagnostic .expectedOperand)
  | first :: _ =>
    match joinTerms procedures head 0 tokens with
    | .error d => .error d
    | .ok value =>
      if operand.low ≤ value ∧ value ≤ operand.high then .ok value
      else .error (first.diagnostic (.operandOutOfRange value operand.kind))

end RoomScript.Assembly
