import RoomScript.Macro.Definition
import RoomScript.Preprocess.Branch

/-!
# Working through a file

A file is expanded turn by turn.  One turn handles the token in front: a directive, a macro call, or
a token that passes through.  Conditionals that are being taken are kept on a stack, so that a turn
never has to look at the lines inside of them.

* `Work` is the state of a file that is being expanded;
* `Work.turn` handles the token in front, and `Work.turn_lt` says that it leaves less to do.
-/

namespace RoomScript

/-- The state of a file that is being expanded. -/
structure Work where
  macros : Macro.Table
  reader : Reader
  /-- The `#if` tokens of the conditionals whose branches are being taken, innermost first. -/
  opened : List Token := []
  /-- Remarks for whoever watches the expansion. -/
  remarks : List String := []
  deriving Repr

/-- What one turn produces. -/
inductive Step where
  /-- Tokens of the expanded text. -/
  | emit (ts : List Token)
  /-- The content of the file `quoted`, which is asked for at `place`. -/
  | enter (place : Token) (quoted : String)
  /-- The end of the file. -/
  | stop (eof : Token)
  deriving Repr

/-- A quoted path, when the string is closed. -/
def Token.quotedPath? (t : Token) : Option String :=
  match t.kind, t.lexeme.toList with
  | .string, _ :: rest@(_ :: _) =>
    if rest.getLast? = some '"' then some (String.ofList rest.dropLast) else none
  | _, _ => none

namespace Work

/-- Order of progress: first what is left to read, then how many conditionals are open. -/
def measure (w : Work) : Nat × Nat :=
  (w.reader.size, w.opened.length)

/-- Replace the reader. -/
def withReader (w : Work) (reader : Reader) : Work :=
  { w with reader }

/-- The next token is the end of the file. -/
def turnEnd (w : Work) (eof : Token) : Step × Work :=
  match w.opened with
  | [] => (.stop eof, w)
  | innermost :: outer =>
    (.emit [], { w with reader := w.reader.report (innermost.diagnostic .missingEndif),
                        opened := outer })

/-- The next token ends a branch. -/
def turnBranchEnd (w : Work) (directive : Token) (stray : Cause) : Step × Work :=
  match w.opened with
  | [] => (.emit [], w.withReader (w.reader.report (directive.diagnostic stray)).skipToNewline)
  | innermost :: outer =>
    (.emit [], { w with reader := w.reader.leaveBranch innermost, opened := outer })

/-- The next token opens a conditional. -/
def turnIf (w : Work) (directive : Token) : Step × Work :=
  match w.reader.read.2.enterBranch w.macros directive with
  | (true, reader) => (.emit [], { w with reader, opened := directive :: w.opened })
  | (false, reader) => (.emit [], { w with reader })

/-- The next token asks for another file. -/
def turnInclude (w : Work) : Step × Work :=
  let (place, reader) := w.reader.read.2.skipWhitespace.peek
  match place.quotedPath? with
  | none => (.emit [], w.withReader (reader.report (place.diagnostic .expectedPath)))
  | some quoted => (.enter place quoted, w.withReader reader.read.2)

/-- The next token defines a macro. -/
def turnDefine (w : Work) : Step × Work :=
  match w.reader.read.2.readDefinition with
  | (none, reader) => (.emit [], { w with reader })
  | (some m, reader) => (.emit [], { w with reader, macros := w.macros.define m })

/-- The next token is a macro call or passes through. -/
def turnToken (w : Work) (t : Token) : Step × Work :=
  match w.reader.call w.macros [] with
  | (.keep, reader) => (.emit [t], w.withReader reader.read.2)
  | (.tokens ts, reader) => (.emit ts, w.withReader reader)
  | (.rescan m ts, reader) =>
    let (expanded, diagnostics) := Macro.expand w.macros false [m.name] ts reader.diagnostics
    (.emit expanded, w.withReader { reader with diagnostics })

/-- Handle the token in front. -/
def turn (w : Work) : Step × Work :=
  let (t, reader) := w.reader.peek
  let w := w.withReader reader
  if t.kind = .eof then w.turnEnd t
  else if t.kind = .directive then
    match t.lexeme with
    | "#elif" => w.turnBranchEnd t .strayElif
    | "#else" => w.turnBranchEnd t .strayElse
    | "#endif" => w.turnBranchEnd t .strayEndif
    | "#if" => w.turnIf t
    | "#include" => w.turnInclude
    | "#define" => w.turnDefine
    | _ => w.turnToken t
  else w.turnToken t

/-! ## Every turn leaves less to do -/

theorem turnBranchEnd_lt {w : Work} {directive : Token} {stray : Cause}
    (front : w.reader.peek.1.kind = .directive) :
    (w.turnBranchEnd directive stray).2.reader.size < w.reader.size := by
  have notEnd : w.reader.peek.1.kind ≠ .eof := by simp [front]
  unfold turnBranchEnd
  split
  · have still : ∀ d, (w.reader.report d).peek.1 = w.reader.peek.1 := by
      intro d
      obtain ⟨_, ⟨source, lookahead, ds⟩, _, _⟩ := w
      cases lookahead <;> rfl
    exact Reader.skipToNewline_size_lt _ (by simp [still, front]) (by simp [still, front])
  · exact w.reader.leaveBranch_size_lt _ notEnd

theorem turnIf_lt {w : Work} {directive : Token} (front : w.reader.peek.1.kind ≠ .eof) :
    (w.turnIf directive).2.reader.size < w.reader.size := by
  have entered := Reader.enterBranch_size_le w.macros directive w.reader.read.2
  have smaller := w.reader.read_size_lt front
  unfold turnIf
  split <;> rename_i h <;> rw [h] at entered <;> exact Nat.lt_of_le_of_lt entered smaller

theorem turnInclude_lt {w : Work} (front : w.reader.peek.1.kind ≠ .eof) :
    w.turnInclude.2.reader.size < w.reader.size := by
  have seen := Nat.le_trans w.reader.read.2.skipWhitespace.peek_size_le
    w.reader.read.2.skipWhitespace_size_le
  have smaller := w.reader.read_size_lt front
  unfold turnInclude
  simp only
  split
  · exact Nat.lt_of_le_of_lt seen smaller
  · exact Nat.lt_of_le_of_lt (Nat.le_trans (Reader.read_size_le _) seen) smaller

theorem turnDefine_lt {w : Work} (front : w.reader.peek.1.kind ≠ .eof) :
    w.turnDefine.2.reader.size < w.reader.size := by
  have defined := Reader.readDefinition_size_le w.reader.read.2
  have smaller := w.reader.read_size_lt front
  unfold turnDefine
  split <;> rename_i h <;> rw [h] at defined <;> exact Nat.lt_of_le_of_lt defined smaller

theorem turnToken_lt {w : Work} {t : Token} (front : w.reader.peek.1.kind ≠ .eof) :
    (w.turnToken t).2.reader.size < w.reader.size := by
  unfold turnToken
  split
  · rename_i reader h
    rw [Reader.peek_of_call_keep h]
    simpa [Work.withReader] using w.reader.read_size_lt front
  · rename_i h
    exact Reader.call_size_lt h (by simp)
  · rename_i h
    have smaller := Reader.call_size_lt h (by simp)
    exact smaller

/-- A turn that does not reach the end of the file leaves less to do. -/
theorem turn_lt (w : Work) (going : ∀ eof, w.turn.1 ≠ .stop eof) :
    Prod.Lex (· < ·) (· < ·) w.turn.2.measure w.measure := by
  have peeked := w.reader.peek_size_le
  have shrink : ∀ {a : Nat} {b c : Nat}, a < (w.withReader w.reader.peek.2).reader.size →
      Prod.Lex (· < ·) (· < ·) (a, b) (w.reader.size, c) := fun h =>
    Prod.Lex.left _ _ (Nat.lt_of_lt_of_le h peeked)
  unfold turn at going ⊢
  simp only at going ⊢
  split at going
  · rename_i atEnd
    simp only [atEnd, if_true]
    unfold turnEnd at going ⊢
    split at going
    · exact absurd rfl (going _)
    · rename_i innermost outer h
      have opened : w.opened = innermost :: outer := h
      simp only [Work.withReader, opened, measure, Reader.size_report, List.length_cons]
      rcases Nat.lt_or_eq_of_le peeked with h | h
      · exact Prod.Lex.left _ _ h
      · rw [h]
        exact Prod.Lex.right _ (Nat.lt_succ_self _)
  · rename_i front
    have ahead : (w.withReader w.reader.peek.2).reader.peek.1.kind ≠ .eof := by
      simpa [Work.withReader] using front
    simp only [front, if_false]
    split
    · rename_i directive
      have atDirective : (w.withReader w.reader.peek.2).reader.peek.1.kind = .directive := by
        simpa [Work.withReader] using directive
      split
      · exact shrink (turnBranchEnd_lt atDirective)
      · exact shrink (turnBranchEnd_lt atDirective)
      · exact shrink (turnBranchEnd_lt atDirective)
      · exact shrink (turnIf_lt ahead)
      · exact shrink (turnInclude_lt ahead)
      · exact shrink (turnDefine_lt ahead)
      · exact shrink (turnToken_lt ahead)
    · exact shrink (turnToken_lt ahead)

end Work

end RoomScript
