import RoomScript.Macro
import RoomScript.Token.Reader

/-!
# Macro calls

Reading a macro call from the tokens ahead.  A call is the name of a macro, followed by arguments in
parentheses when the macro has parameters.  A macro that is being expanded already is not expanded
again: its name is reported and dropped, together with its arguments.

* `Reader.readArguments` splits an argument list at its outer commas;
* `Reader.call` decides what becomes of the next token;
* `Reader.replace` also answers `defined(name)`, which is known in conditions only.
-/

namespace RoomScript

/-- What becomes of the token in front of a reader. -/
inductive Replacement where
  /-- The token stands for itself and has not been read. -/
  | keep
  /-- The tokens take the place of what has been read. -/
  | tokens (ts : List Token)
  /-- The tokens take the place of a call to `m`, after they have been expanded themselves. -/
  | rescan (m : Macro) (ts : List Token)
  deriving Repr

namespace Reader

/-! ## Arguments -/

/-- The state of reading an argument list. -/
structure Arguments where
  /-- Finished arguments. -/
  finished : Array (List Token) := #[]
  /-- The argument being read. -/
  current : Array Token := #[]
  /-- How many parentheses are open. -/
  depth : Nat := 1
  /-- Whether the closing parenthesis has been seen. -/
  closed : Bool := false

namespace Arguments

/-- Add a token to the argument being read. -/
def push (a : Arguments) (t : Token) : Arguments :=
  { a with current := a.current.push t }

/-- End the argument being read. -/
def finish (a : Arguments) : Arguments :=
  { a with finished := a.finished.push (Token.trimBlanks a.current.toList), current := #[] }

/-- An empty list has no argument; after a comma there is always one more. -/
def close (a : Arguments) : Arguments :=
  if (Token.trimBlanks a.current.toList).isEmpty && a.finished.isEmpty then
    { a with closed := true }
  else { a.finish with closed := true }

/-- Read one token of an argument list.  Line ends and comments count as blanks, so a call over
several lines still expands within one statement. -/
def judge (a : Arguments) (t : Token) : Verdict Arguments :=
  match t.kind with
  | .eof => .stay a
  | .lparen => .more { a.push t with depth := a.depth + 1 }
  | .rparen => if a.depth = 1 then .last a.close else .more { a.push t with depth := a.depth - 1 }
  | .comma => if a.depth = 1 then .more a.finish else .more (a.push t)
  | .newline | .comment => .more (a.push { t with kind := .whitespace, lexeme := " " })
  | _ => .more (a.push t)

end Arguments

/-- Read an argument list after its opening parenthesis.  There is none when the input ends before
the closing one. -/
def readArguments (r : Reader) : Option (List (List Token)) × Reader :=
  let (a, r) := r.loop Arguments.judge {}
  (if a.closed then some a.finished.toList else none, r)

theorem readArguments_size_le (r : Reader) : r.readArguments.2.size ≤ r.size :=
  loop_size_le ..

/-! ## Calls -/

/-- What becomes of a call to `m`, whose name token has been read. -/
def callBody (m : Macro) (name : Token) (r : Reader) : Replacement × Reader :=
  let ((next, blanks), r) := r.peekNoWhitespace
  if next.kind ≠ .lparen then
    if m.params.isEmpty then (.rescan m m.body, r)
    else (.tokens [], r.report (next.diagnostic .expectedOpenParen))
  else
    match (r.skip (blanks + 1)).readArguments with
    | (none, r) => (.tokens [], r.report (name.diagnostic .expectedCloseParen))
    | (some args, r) =>
      if args.length ≠ m.params.length then
        (.tokens [], r.report (name.diagnostic (.wrongOperandCount m.params.length args.length)))
      else (.rescan m (m.substitute args), r)

/-- Drop a call to `m`, whose name token has been read, because `m` is being expanded. -/
def refuseCall (m : Macro) (name : Token) (r : Reader) : Reader :=
  let ((next, blanks), r) := (r.report (name.diagnostic (.recursiveMacro m.name))).peekNoWhitespace
  if ¬m.params.isEmpty ∧ next.kind = .lparen then (r.skip (blanks + 1)).readArguments.2 else r

/-- What becomes of the next token, outside of conditions. -/
def call (table : Macro.Table) (active : List String) (r : Reader) : Replacement × Reader :=
  let seen := r.peek
  match if seen.1.kind = .symbol then table.find? seen.1.lexeme else none with
  | none => (.keep, seen.2)
  | some m =>
    if m.name ∈ active then (.tokens [], seen.2.read.2.refuseCall m seen.1)
    else seen.2.read.2.callBody m seen.1

/-! ## Conditions -/

/-- Answer `defined(name)`, whose first token has been read. -/
def readDefined (table : Macro.Table) (r : Reader) : List Token × Reader :=
  let (opening, r) := r.readNoWhitespace
  if opening.kind ≠ .lparen then ([], r.report (opening.diagnostic .expectedOpenParen))
  else
    let (name, r) := r.readNoWhitespace
    if name.kind ≠ .symbol then ([], r.report (name.diagnostic .expectedMacroName))
    else
      let (closing, r) := r.readNoWhitespace
      if closing.kind ≠ .rparen then ([], r.report (closing.diagnostic .expectedCloseParen))
      else
        let answer := if table.isDefined name.lexeme then "1" else "0"
        ([{ name with kind := .number, lexeme := answer }], r)

/-- What becomes of the next token. -/
def replace (table : Macro.Table) (condition : Bool) (active : List String) (r : Reader) :
    Replacement × Reader :=
  let seen := r.peek
  if condition ∧ seen.1.kind = .symbol ∧ seen.1.lexeme = "defined" then
    match seen.2.read.2.readDefined table with
    | (ts, r) => (.tokens ts, r)
  else seen.2.call table active

/-! ## Calls consume their name -/

theorem callBody_size_le (m : Macro) (name : Token) (r : Reader) :
    (r.callBody m name).2.size ≤ r.size := by
  have peeked := r.peekNoWhitespace_size_le
  have args := Nat.le_trans
    (r.peekNoWhitespace.2.skip (r.peekNoWhitespace.1.2 + 1)).readArguments_size_le
    (Nat.le_trans (r.peekNoWhitespace.2.skip_size_le (r.peekNoWhitespace.1.2 + 1)) peeked)
  unfold callBody
  simp only
  split
  · split
    · exact peeked
    · exact peeked
  · split <;> rename_i h <;> rw [h] at args
    · exact args
    · split
      · exact args
      · exact args

theorem refuseCall_size_le (m : Macro) (name : Token) (r : Reader) :
    (r.refuseCall m name).size ≤ r.size := by
  unfold refuseCall
  generalize hs : r.report _ = s
  have same : s.size = r.size := by rw [← hs, size_report]
  have peeked := s.peekNoWhitespace_size_le
  have args := Nat.le_trans
    (s.peekNoWhitespace.2.skip (s.peekNoWhitespace.1.2 + 1)).readArguments_size_le
    (Nat.le_trans (s.peekNoWhitespace.2.skip_size_le (s.peekNoWhitespace.1.2 + 1)) peeked)
  rw [same] at peeked args
  simp only
  split
  · exact args
  · exact peeked

/-- A token that is kept is still there. -/
theorem peek_of_call_keep {table : Macro.Table} {active : List String} {r after : Reader}
    (h : r.call table active = (.keep, after)) : after = r.peek.2 := by
  unfold call at h
  simp only at h
  split at h
  · simpa using h.symm
  · rename_i m _
    split at h
    · simp at h
    · unfold callBody at h
      simp only at h
      split at h
      · split at h <;> simp at h
      · split at h
        · simp at h
        · split at h <;> simp at h

/-- The macro of a call is a known one that is not active. -/
theorem known_of_call_rescan {table : Macro.Table} {active : List String} {r after : Reader}
    {m : Macro} {ts : List Token} (h : r.call table active = (.rescan m ts, after)) :
    m ∈ table ∧ m.name ∉ active := by
  unfold call at h
  simp only at h
  split at h
  · simp at h
  · rename_i k found
    split at h
    · simp at h
    · rename_i idle
      have known : k ∈ table := by
        split at found
        · exact Macro.Table.mem_of_find? found
        · simp at found
      suffices k = m by subst this; exact ⟨known, idle⟩
      unfold callBody at h
      simp only at h
      split at h
      · split at h <;> simp at h
        exact h.1.1
      · split at h
        · simp at h
        · split at h <;> simp at h
          exact h.1.1

/-- A call that is not kept has consumed something. -/
theorem call_size_lt {table : Macro.Table} {active : List String} {r after : Reader}
    {what : Replacement} (h : r.call table active = (what, after)) (read : what ≠ .keep) :
    after.size < r.size := by
  unfold call at h
  simp only [read_peek] at h
  split at h
  · simp at h
    exact absurd h.1.symm read
  · rename_i k found
    have symbol : r.peek.1.kind ≠ .eof := by
      intro he
      simp [he] at found
    have smaller := r.read_size_lt symbol
    split at h
    · injection h with _ h
      subst h
      exact Nat.lt_of_le_of_lt (refuseCall_size_le ..) smaller
    · have body := callBody_size_le k r.peek.1 r.read.2
      rw [h] at body
      exact Nat.lt_of_le_of_lt body smaller

theorem readDefined_size_le (table : Macro.Table) (r : Reader) :
    (r.readDefined table).2.size ≤ r.size := by
  have first := r.readNoWhitespace_size_le
  have second := r.readNoWhitespace.2.readNoWhitespace_size_le
  have third := r.readNoWhitespace.2.readNoWhitespace.2.readNoWhitespace_size_le
  unfold readDefined
  simp only
  split
  · exact first
  · split
    · simp only [size_report]; omega
    · split
      · simp only [size_report]; omega
      · simp only; omega

theorem replace_size_lt {table : Macro.Table} {condition : Bool} {active : List String}
    {r after : Reader} {what : Replacement} (h : r.replace table condition active = (what, after))
    (read : what ≠ .keep) : after.size < r.size := by
  unfold replace at h
  simp only [read_peek] at h
  split at h
  · rename_i word
    injection h with _ h
    subst h
    exact Nat.lt_of_le_of_lt (readDefined_size_le ..) (r.read_size_lt (by simp [word.2.1]))
  · exact Nat.lt_of_lt_of_le (call_size_lt h read) r.peek_size_le

theorem known_of_replace_rescan {table : Macro.Table} {condition : Bool} {active : List String}
    {r after : Reader} {m : Macro} {ts : List Token}
    (h : r.replace table condition active = (.rescan m ts, after)) :
    m ∈ table ∧ m.name ∉ active := by
  unfold replace at h
  simp only at h
  split at h
  · simp at h
  · exact known_of_call_rescan h

end Reader

end RoomScript
