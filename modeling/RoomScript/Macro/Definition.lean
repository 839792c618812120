import RoomScript.Macro
import RoomScript.Token.Reader

/-!
# Macro definitions

Reading the rest of a `#define` line: the name, the parameters if a parenthesis follows the name
directly, and the body up to the end of the line.  A backslash continues the body on the next line,
comments are dropped.
-/

namespace RoomScript

namespace Reader

/-! ## Parameters -/

/-- The state of reading a parameter list. -/
structure Parameters where
  names : Array String := #[]
  /-- Whether a name has to come next, rather than a comma or the closing parenthesis. -/
  wantName : Bool := true
  /-- The token that does not fit. -/
  misfit : Option Token := none

/-- Read one token of a parameter list.  Blanks may stand anywhere, and an empty list is one pair
of parentheses; after a comma there has to be a name. -/
def Parameters.judge (p : Parameters) (t : Token) : Verdict Parameters :=
  if t.kind = .whitespace then .more p
  else if p.wantName then
    if t.kind = .rparen ∧ p.names.isEmpty then .last p
    else if t.kind = .symbol then .more { p with names := p.names.push t.lexeme, wantName := false }
    else .last { p with misfit := some t }
  else if t.kind = .comma then .more { p with wantName := true }
  else if t.kind = .rparen then .last p
  else .last { p with misfit := some t }

/-- Read a parameter list after its opening parenthesis.  The token that does not fit is read and
reported. -/
def readParameters (r : Reader) : Option (List String) × Reader :=
  let (p, r) := r.loop Parameters.judge {}
  match p.misfit with
  | none => (some p.names.toList, r)
  | some t => (none, r.report (t.diagnostic .expectedOperand))

theorem readParameters_size_le (r : Reader) : r.readParameters.2.size ≤ r.size := by
  have := loop_size_le Parameters.judge {} r
  unfold readParameters
  simp only
  split <;> exact this

/-! ## Bodies -/

/-- The state of reading a macro body. -/
structure Body where
  tokens : Array Token := #[]
  /-- Whether the line goes on after the next line end. -/
  continued : Bool := false
  /-- The end of the input, where a continued line was to come. -/
  cutShort : Option Token := none

/-- Read one token of a macro body. -/
def Body.judge (b : Body) (t : Token) : Verdict Body :=
  match t.kind with
  | .eof => .stay { b with cutShort := if b.continued then some t else none }
  | .backslash => .more { b with continued := true }
  | .comment => .more b
  | .newline => if b.continued then .more { b with continued := false } else .stay b
  | .whitespace => .more { b with tokens := b.tokens.push t }
  | _ => .more { b with tokens := b.tokens.push t, continued := false }

/-- Read a macro body up to the end of its last line. -/
def readBody (r : Reader) : List Token × Reader :=
  let (b, r) := r.skipWhitespace.loop Body.judge {}
  let r := match b.cutShort with
    | some t => r.report (t.diagnostic .unexpectedEnd)
    | none => r
  (Token.trimBlanks b.tokens.toList, r)

theorem readBody_size_le (r : Reader) : r.readBody.2.size ≤ r.size := by
  have := Nat.le_trans (loop_size_le Body.judge {} r.skipWhitespace) r.skipWhitespace_size_le
  unfold readBody
  simp only
  split <;> exact this

/-! ## Definitions -/

/-- Read the rest of a definition after `#define`.  A definition that is cut off or malformed
defines nothing, and the rest of its line is skipped. -/
def readDefinition (r : Reader) : Option Macro × Reader :=
  let (name, r) := r.skipWhitespace.peek
  if name.kind ≠ .symbol then
    (none, (r.report (name.diagnostic .expectedMacroName)).skipToNewline)
  else
    let (next, r) := r.read.2.peek
    if next.kind = .lparen then
      match r.read.2.readParameters with
      | (none, r) => (none, r.skipToNewline)
      | (some params, r) =>
        let (body, r) := r.readBody
        (some { name := name.lexeme, params, body }, r)
    else
      let (body, r) := r.readBody
      (some { name := name.lexeme, body }, r)

theorem readDefinition_size_le (r : Reader) : r.readDefinition.2.size ≤ r.size := by
  have start := Nat.le_trans r.skipWhitespace.peek_size_le r.skipWhitespace_size_le
  have next := Nat.le_trans r.skipWhitespace.peek.2.read.2.peek_size_le
    (Nat.le_trans r.skipWhitespace.peek.2.read_size_le start)
  unfold readDefinition
  simp only
  split
  · exact Nat.le_trans (skipToNewline_size_le _) start
  · split
    · have params := Nat.le_trans
        (Nat.le_trans r.skipWhitespace.peek.2.read.2.peek.2.read.2.readParameters_size_le
          (read_size_le _)) next
      split <;> rename_i h <;> rw [h] at params
      · exact Nat.le_trans (skipToNewline_size_le _) params
      · exact Nat.le_trans (readBody_size_le _) params
    · exact Nat.le_trans (readBody_size_le _) next

end Reader

end RoomScript
