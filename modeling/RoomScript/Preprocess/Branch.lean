import RoomScript.Macro.Expand

/-!
# Conditional branches

The lines between `#if` and `#endif` are branches, of which at most one is taken: the first whose
condition holds, or the one after `#else`.  The others are skipped without being looked into, apart
from counting the conditionals inside them.

* `Reader.condition` reads and evaluates a condition;
* `Reader.skipBranch` passes over a branch that is not taken;
* `Reader.findBranch` looks for the branch to take, and `Reader.leaveBranch` goes from the end of a
  branch that was taken to the end of its conditional.
-/

namespace RoomScript

/-- A directive that ends a branch. -/
def Token.endsBranch (t : Token) : Bool :=
  t.isDirective "#elif" || t.isDirective "#else" || t.isDirective "#endif"

namespace Reader

/-- One token of a branch that is not taken, at a depth of inner conditionals. -/
def skipBranch.judge (depth : Nat) (t : Token) : Verdict Nat :=
  if t.kind = .eof then .stay depth
  else if t.isDirective "#if" then .more (depth + 1)
  else if t.endsBranch && depth == 0 then .stay depth
  else if t.isDirective "#endif" then .more (depth - 1)
  else .more depth

/-- Pass over a branch that is not taken, to the directive that ends it. -/
def skipBranch (r : Reader) : Reader :=
  (r.loop skipBranch.judge 0).2

theorem skipBranch_size_le (r : Reader) : r.skipBranch.size ≤ r.size :=
  loop_size_le ..

/-- One token after `#else` or `#endif`.  The state becomes the token that should not be there. -/
def endOfDirective.judge (_ : Option Token) (t : Token) : Verdict (Option Token) :=
  if t.isLayout then .more none
  else if t.kind = .newline ∨ t.kind = .eof then .last none
  else .last (some t)

/-- Read the rest of an `#else` or `#endif` line, where only layout may stand. -/
def endOfDirective (r : Reader) : Reader :=
  match r.loop endOfDirective.judge none with
  | (none, r) => r
  | (some t, r) => (r.report (t.diagnostic .invalidSyntax)).skipLine

theorem endOfDirective_size_le (r : Reader) : r.endOfDirective.size ≤ r.size := by
  have := loop_size_le endOfDirective.judge none r
  unfold endOfDirective
  split <;> rename_i h <;> rw [h] at this
  · exact this
  · exact Nat.le_trans (skipLine_size_le _) this

/-- Read the rest of a line as a condition.  It has to expand to one token, layout apart, and it
holds unless that token is `0`.  `directive` is the token a missing condition is reported at. -/
def condition (table : Macro.Table) (directive : Token) (r : Reader) : Bool × Reader :=
  let (line, r) := r.readLine
  let (expanded, diagnostics) := Macro.expand table true [] line r.diagnostics
  let r := { r with diagnostics }
  match expanded.filter (! ·.isLayout) with
  | [] => (false, r.report (directive.diagnostic .invalidExpression))
  | [t] => (t.lexeme != "0", r)
  | t :: _ => (false, r.report (t.diagnostic .invalidExpression))

theorem condition_size_le (table : Macro.Table) (directive : Token) (r : Reader) :
    (r.condition table directive).2.size ≤ r.size := by
  have := r.readLine_size_le
  unfold condition
  simp only
  split <;> exact this

/-- From the end of a branch that is not taken, look for one to take.  The answer is whether there
is one; `opened` is the `#if` of the conditional. -/
def findBranch (table : Macro.Table) (opened : Token) (r : Reader) : Bool × Reader :=
  let seen := r.peek.1
  if seen.isDirective "#elif" then
    match _evaluation : r.read.2.condition table seen with
    | (true, r') => (true, r')
    | (false, r') => findBranch table opened r'.skipBranch
  else if seen.isDirective "#else" then (true, r.read.2.endOfDirective)
  else if seen.isDirective "#endif" then (false, r.read.2.endOfDirective)
  else (false, r.read.2.report (opened.diagnostic .missingEndif))
termination_by r.size
decreasing_by
  rename_i isElif
  have directive : r.peek.1.kind ≠ .eof := by
    intro he
    simp [seen, Token.isDirective, he] at isElif
  have evaluated := condition_size_le table seen r.read.2
  rw [_evaluation] at evaluated
  exact Nat.lt_of_le_of_lt (Nat.le_trans r'.skipBranch_size_le evaluated) (r.read_size_lt directive)

theorem findBranch_size_le (table : Macro.Table) (opened : Token) (r : Reader) :
    (r.findBranch table opened).2.size ≤ r.size := by
  fun_induction findBranch table opened r with
  | case1 r seen _ r' h =>
    have := condition_size_le table seen r.read.2
    rw [h] at this
    exact Nat.le_trans this r.read_size_le
  | case2 r seen _ r' h ih =>
    have := condition_size_le table seen r.read.2
    rw [h] at this
    exact Nat.le_trans ih (Nat.le_trans r'.skipBranch_size_le (Nat.le_trans this r.read_size_le))
  | case3 r seen _ _ => exact Nat.le_trans (endOfDirective_size_le _) r.read_size_le
  | case4 r seen _ _ _ => exact Nat.le_trans (endOfDirective_size_le _) r.read_size_le
  | case5 r seen _ _ _ => exact r.read_size_le

/-- Read the condition of `opened` and find the branch to take. -/
def enterBranch (table : Macro.Table) (opened : Token) (r : Reader) : Bool × Reader :=
  match r.condition table opened with
  | (true, r) => (true, r)
  | (false, r) => r.skipBranch.findBranch table opened

theorem enterBranch_size_le (table : Macro.Table) (opened : Token) (r : Reader) :
    (r.enterBranch table opened).2.size ≤ r.size := by
  have evaluated := condition_size_le table opened r
  unfold enterBranch
  split <;> rename_i h <;> rw [h] at evaluated
  · exact evaluated
  · exact Nat.le_trans (findBranch_size_le ..) (Nat.le_trans (skipBranch_size_le _) evaluated)

/-- From the end of a branch that was taken, pass over all other branches and the `#endif`. -/
def leaveBranch (opened : Token) (r : Reader) : Reader :=
  let seen := r.peek.1
  if seen.isDirective "#elif" then leaveBranch opened r.read.2.skipLine.skipBranch
  else if seen.isDirective "#else" then leaveBranch opened r.read.2.endOfDirective.skipBranch
  else if seen.isDirective "#endif" then r.read.2.endOfDirective
  else r.read.2.report (opened.diagnostic .missingEndif)
termination_by r.size
decreasing_by
  all_goals
    rename_i isDirective
    have directive : r.peek.1.kind ≠ .eof := by
      intro he
      simp [seen, Token.isDirective, he] at isDirective
    refine Nat.lt_of_le_of_lt (Nat.le_trans (skipBranch_size_le _) ?_) (r.read_size_lt directive)
  · exact skipLine_size_le _
  · exact endOfDirective_size_le _

theorem leaveBranch_size_le (opened : Token) (r : Reader) :
    (r.leaveBranch opened).size ≤ r.size := by
  fun_induction leaveBranch opened r with
  | case1 r seen _ ih =>
    exact Nat.le_trans ih (Nat.le_trans (skipBranch_size_le _)
      (Nat.le_trans (skipLine_size_le _) r.read_size_le))
  | case2 r seen _ _ ih =>
    exact Nat.le_trans ih (Nat.le_trans (skipBranch_size_le _)
      (Nat.le_trans (endOfDirective_size_le _) r.read_size_le))
  | case3 r seen _ _ _ => exact Nat.le_trans (endOfDirective_size_le _) r.read_size_le
  | case4 r seen _ _ _ => exact r.read_size_le

/-- A branch that ends at a directive is left by reading that directive. -/
theorem leaveBranch_size_lt (opened : Token) (r : Reader) (h : r.peek.1.kind ≠ .eof) :
    (r.leaveBranch opened).size < r.size := by
  have smaller := r.read_size_lt h
  rw [leaveBranch]
  split
  · exact Nat.lt_of_le_of_lt (Nat.le_trans (leaveBranch_size_le ..)
      (Nat.le_trans (skipBranch_size_le _) (skipLine_size_le _))) smaller
  · split
    · exact Nat.lt_of_le_of_lt (Nat.le_trans (leaveBranch_size_le ..)
        (Nat.le_trans (skipBranch_size_le _) (endOfDirective_size_le _))) smaller
    · split
      · exact Nat.lt_of_le_of_lt (endOfDirective_size_le _) smaller
      · exact smaller

/-- Skipping a line that has something on it consumes something. -/
theorem skipToNewline_size_lt (r : Reader) (h : r.peek.1.kind ≠ .newline)
    (he : r.peek.1.kind ≠ .eof) : r.skipToNewline.size < r.size := by
  have smaller := r.read_size_lt he
  unfold skipToNewline
  rw [loop]
  simp only [h, he, or_self, if_false, read_peek]
  exact Nat.lt_of_le_of_lt (loop_size_le ..) smaller

end Reader

end RoomScript
