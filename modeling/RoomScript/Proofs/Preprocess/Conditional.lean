import RoomScript.Proofs.Preprocess.Lines

/-!
# Conditionals

A conditional runs from `#if` to its `#endif`.  Its branches are passed over one by one until one of
them is taken, and after that one the rest is passed over too.

* `Balanced` says that a text opens and closes its own conditionals, and `skipBranch_of_balanced`
  that such a text is skipped to the directive after it;
* `Conditional` is a conditional as it is written, and `Conditional.taken`, `Conditional.untaken`
  and `Conditional.reports` say which branch counts, which do not, and what its conditions report;
* `Reader.findBranch_of_refused` and `Reader.leaveBranch_of_later` pass over the branches before the
  one that is taken and over those after it.
-/

namespace RoomScript

/-! ## Balanced text -/

/-- The number of conditionals that are opened. -/
def openings (ts : List Token) : Nat :=
  ts.countP (·.isDirective "#if")

/-- The number of conditionals that are closed. -/
def closings (ts : List Token) : Nat :=
  ts.countP (·.isDirective "#endif")

/-- As many conditionals are opened as closed, and no `#elif`, `#else` or `#endif` stands outside of
all of them. -/
structure Balanced (ts : List Token) : Prop where
  even : openings ts = closings ts
  deep : ∀ i (h : i < ts.length), ts[i].endsBranch → closings (ts.take i) < openings (ts.take i)

instance : DecidablePred Balanced := fun ts =>
  decidable_of_iff (openings ts = closings ts ∧ ∀ i (h : i < ts.length), ts[i].endsBranch →
      closings (ts.take i) < openings (ts.take i))
    ⟨fun h => ⟨h.1, h.2⟩, fun h => ⟨h.even, h.deep⟩⟩

namespace Reader

/-- A token of a branch that is skipped changes the depth by the conditionals it opens and
closes. -/
theorem skipBranch.judge_of_deep {t : Token} {depth : Nat} (going : t.kind ≠ .eof)
    (deep : t.endsBranch → 0 < depth) : ∃ next, skipBranch.judge depth t = .more next ∧
      openings [t] + depth = next + closings [t] := by
  by_cases isIf : t.isDirective "#if"
  · have noEndif := Token.not_isDirective isIf (by decide : _ ≠ "#endif")
    refine ⟨depth + 1, by simp [judge, going, isIf], ?_⟩
    simp [openings, closings, isIf, noEndif]
    omega
  · by_cases isEndif : t.isDirective "#endif"
    · have inside := deep (by simp [Token.endsBranch, isEndif])
      have notZero : depth ≠ 0 := by omega
      refine ⟨depth - 1, by simp [judge, going, isIf, isEndif, notZero], ?_⟩
      simp [openings, closings, isIf, isEndif]
      omega
    · refine ⟨depth, ?_, by simp [openings, closings, isIf, isEndif]⟩
      have stays : (t.endsBranch && depth == 0) = false := by
        by_cases ends : t.endsBranch
        · have := deep ends
          simp
          omega
        · simp [ends]
      simp [judge, going, isIf, isEndif, stays]

/-- Skipping counts the conditionals, as long as no branch ends at depth zero. -/
theorem track_skipBranch {ts : List Token} (going : ∀ t ∈ ts, t.kind ≠ .eof) {depth : Nat}
    (deep : ∀ i (h : i < ts.length), ts[i].endsBranch →
      closings (ts.take i) < openings (ts.take i) + depth) :
    ∃ final, track skipBranch.judge depth ts = (final, none) ∧
      final + closings ts = openings ts + depth := by
  induction ts generalizing depth with
  | nil => exact ⟨depth, rfl, by simp [openings, closings]⟩
  | cons t ts ih =>
    obtain ⟨front, going⟩ := List.forall_mem_cons.1 going
    have first : t.endsBranch → 0 < depth := by
      intro ends
      simpa [openings, closings] using deep 0 (by simp) ends
    -- What is asked of the rest, from the depth after the first token.
    have later : ∀ next, openings [t] + depth = next + closings [t] →
        ∀ i (h : i < ts.length), ts[i].endsBranch →
          closings (ts.take i) < openings (ts.take i) + next := by
      intro next step i h ends
      have := deep (i + 1) (by simpa using h) (by simpa using ends)
      simp only [openings, closings, List.take_succ_cons, List.countP_cons, List.countP_nil] at *
      omega
    obtain ⟨next, verdict, step⟩ := skipBranch.judge_of_deep front first
    obtain ⟨final, passes, count⟩ := ih going (later next step)
    refine ⟨final, by rw [track, verdict]; exact passes, ?_⟩
    simp only [openings, closings, List.countP_cons, List.countP_nil] at *
    omega

/-- At depth zero a directive that ends the branch is not passed. -/
theorem skipBranch.judge_of_endsBranch {t : Token} (ends : t.endsBranch) :
    skipBranch.judge 0 t = .stay 0 := by
  have kind : t.kind ≠ .eof := by
    intro atEnd
    simp [Token.endsBranch, Token.isDirective, atEnd] at ends
  have noIf : t.isDirective "#if" = false := by
    simp only [Token.endsBranch, Bool.or_eq_true] at ends
    rcases ends with (h | h) | h <;> exact Token.not_isDirective h (by decide)
  simp [judge, kind, noIf, ends]

/-- A balanced text is skipped up to the directive after it that ends the branch. -/
theorem skipBranch_of_balanced {r r' : Reader} {ts : List Token} (balanced : Balanced ts)
    (leads : r.Leads ts r') (ends : r'.peek.1.endsBranch) : r.skipBranch = r'.peek.2 := by
  obtain ⟨final, passes, count⟩ : ∃ final, track skipBranch.judge 0 ts = (final, none) ∧
      final + closings ts = openings ts + 0 :=
    track_skipBranch leads.going fun i h inside => balanced.deep i h inside
  have zero : final = 0 := by
    have := balanced.even
    omega
  subst zero
  have stays : skipBranch.judge 0 r'.peek.1 = .stay 0 := skipBranch.judge_of_endsBranch ends
  rw [skipBranch, loop_of_pass passes leads, loop]
  simp [stays]

end Reader

/-! ## Conditionals -/

/-- A branch of a conditional: the directive and the rest of its line, and the lines up to the next
directive of the conditional. -/
structure Clause where
  directive : Token
  line : List Token
  lineEnd : Token
  body : List Token
  inside : ∀ t ∈ line, t.kind ≠ .newline
  ends : lineEnd.kind = .newline
  lined : Lined body

namespace Clause

/-- The line of the directive. -/
def head (b : Clause) : List Token :=
  b.directive :: (b.line ++ [b.lineEnd])

/-- All tokens of the branch. -/
def tokens (b : Clause) : List Token :=
  b.head ++ b.body

/-- Whether the condition on the line holds. -/
def holds (table : Macro.Table) (b : Clause) : Bool :=
  ((Reader.ofTokens b.line).condition table b.directive).1

/-- What is reported when the condition is evaluated. -/
def reports (table : Macro.Table) (b : Clause) : List Diagnostic :=
  ((Reader.ofTokens b.line).condition table b.directive).2.diagnostics

end Clause

/-- A conditional: branches with conditions, perhaps one without, and the line that closes it.  The
closing line may be the last one of a file and have no end. -/
structure Conditional where
  first : Clause
  others : List Clause
  otherwise : Option Clause
  closing : Token
  layout : List Token
  lineEnd : Option Token
  opens : first.directive.isDirective "#if"
  continues : ∀ b ∈ others, b.directive.isDirective "#elif"
  falls : ∀ b ∈ otherwise, b.directive.isDirective "#else" ∧ ∀ t ∈ b.line, t.isLayout
  closes : closing.isDirective "#endif"
  bare : ∀ t ∈ layout, t.isLayout
  ends : ∀ t ∈ lineEnd, t.kind = .newline

namespace Conditional

variable (c : Conditional) (table : Macro.Table)

/-- The branches that have conditions. -/
def conditions : List Clause :=
  c.first :: c.others

/-- The closing line. -/
def close : List Token :=
  c.closing :: (c.layout ++ c.lineEnd.toList)

/-- What follows the branches that have conditions. -/
def ending : List Token :=
  c.otherwise.toList.flatMap Clause.tokens ++ c.close

/-- All tokens of the conditional. -/
def tokens : List Token :=
  c.conditions.flatMap Clause.tokens ++ c.ending

/-- The place of the first condition that holds, or the number of conditions. -/
def index : Nat :=
  c.conditions.findIdx (Clause.holds table)

/-- The text of the branch that is taken: the one with the first condition that holds, otherwise the
one after `#else`, otherwise none. -/
def taken : List Token :=
  (c.conditions[c.index table]?.or c.otherwise).elim [] Clause.body

/-- The branches that are not taken. -/
def untaken : List Clause :=
  c.conditions.eraseIdx (c.index table) ++
    if c.index table < c.conditions.length then c.otherwise.toList else []

/-- What is reported by the conditions up to the first that holds. -/
def reports : List Diagnostic :=
  (c.conditions.take (c.index table + 1)).flatMap (Clause.reports table)

/-- The reader behind the conditional.  When the file ends with the closing line, its end has been
looked at. -/
def land (after : Reader) : Reader :=
  if c.lineEnd.isSome then after else after.peek.2

theorem endsBranch_closing : c.closing.endsBranch := by
  simp [Token.endsBranch, c.closes]

/-- What follows the branches with conditions begins with the end of a branch. -/
theorem exists_ending : ∃ u us, c.ending = u :: us ∧ u.endsBranch := by
  unfold ending
  cases last : c.otherwise with
  | none => exact ⟨c.closing, _, rfl, c.endsBranch_closing⟩
  | some b =>
    refine ⟨b.directive, _, rfl, ?_⟩
    simp [Token.endsBranch, (c.falls b last).1]

end Conditional

/-! ## Reading conditionals -/

namespace Reader

variable {r r' : Reader} {t opened : Token} {ts : List Token} {table : Macro.Table}

theorem track_endOfDirective {layout : List Token} (bare : ∀ t ∈ layout, t.isLayout) :
    track endOfDirective.judge none layout = (none, none) := by
  induction layout with
  | nil => rfl
  | cons t layout ih =>
    obtain ⟨first, others⟩ := List.forall_mem_cons.1 bare
    simp [track, endOfDirective.judge, first, ih others]

/-- A line of nothing but layout is passed over. -/
theorem endOfDirective_of_layout {layout : List Token} (bare : ∀ t ∈ layout, t.isLayout)
    (ends : t.kind = .newline) (leads : r.Leads (layout ++ t :: ts) r') :
    r.endOfDirective.Leads ts r' := by
  have stops : track endOfDirective.judge none (layout ++ t :: ts) = (none, some ts) := by
    rw [track_append_of_pass (track_endOfDirective bare)]
    simp [track, endOfDirective.judge, Token.isLayout, ends]
  obtain ⟨s, found, leads⟩ := loop_of_stop stops leads
  simpa [endOfDirective, found] using leads

/-- The last line of a file may end without a line end. -/
theorem endOfDirective_of_end (bare : ∀ t ∈ ts, t.isLayout) (leads : r.Leads ts r')
    (atEnd : r'.peek.1.kind = .eof) : r.endOfDirective = r'.peek.2 := by
  have found : loop endOfDirective.judge none r = (none, r'.peek.2) := by
    rw [loop_of_pass (track_endOfDirective bare) leads, loop]
    simp [endOfDirective.judge, Token.isLayout, atEnd, read_of_end atEnd]
  simp [endOfDirective, found]

/-- The closing line leads behind the conditional. -/
theorem endOfDirective_of_close (c : Conditional) (leads : r.Leads c.close r')
    (ended : c.lineEnd = none → r'.peek.1.kind = .eof) : r.read.2.endOfDirective = c.land r' := by
  obtain ⟨-, -, leads⟩ := leads_cons.1 leads
  cases last : c.lineEnd with
  | none =>
    rw [last, Option.toList_none, List.append_nil] at leads
    rw [endOfDirective_of_end c.bare leads (ended last)]
    simp [Conditional.land, last]
  | some t =>
    rw [last, Option.toList_some] at leads
    have landed := endOfDirective_of_layout c.bare (c.ends t last) leads
    rw [leads_nil.1 landed]
    simp [Conditional.land, last]

/-- Looking ahead does not change which branch is found. -/
theorem findBranch_peek (r : Reader) :
    r.peek.2.findBranch table opened = r.findBranch table opened := by
  by_cases isElif : r.peek.1.isDirective "#elif"
  · rw [findBranch_elif (by rwa [peek_peek]), findBranch_elif isElif, peek_peek, read_peek]
  · rw [findBranch, findBranch.eq_def table opened r]
    simp [isElif]

theorem leaveBranch_peek (r : Reader) : r.peek.2.leaveBranch opened = r.leaveBranch opened := by
  rw [leaveBranch, leaveBranch.eq_def opened r]
  simp

/-- The condition of a branch is read with its line. -/
theorem condition_of_clause (b : Clause) (leads : r.Leads (b.tokens ++ ts) r') :
    ∃ s last, r.read.2.condition table b.directive = (b.holds table, s) ∧
      r.Advances b.head (b.reports table) s ∧ s.Leads (b.body ++ ts) last := by
  have shape : b.tokens ++ ts = b.directive :: ((b.line ++ [b.lineEnd]) ++ (b.body ++ ts)) := by
    simp [Clause.tokens, Clause.head]
  rw [shape] at leads
  have whole : ∀ u ∈ b.line, u.kind ≠ .newline ∧ u.kind ≠ .eof := fun u hu =>
    ⟨b.inside u hu, leads.going u (by simp [hu])⟩
  obtain ⟨front, going, after⟩ := leads_cons.1 leads
  obtain ⟨s, line, rest⟩ := leads_append.1 after
  obtain ⟨s', read, same⟩ := readLine_of_leads b.inside b.ends line
  obtain rfl := leads_nil.1 same
  obtain ⟨last, rest⟩ := rest.with_diagnostics (s'.diagnostics ++ b.reports table)
  refine ⟨{ s' with diagnostics := s'.diagnostics ++ b.reports table }, last,
    condition_of_readLine whole read, .read front going ?_, rest⟩
  simpa using line.append (advances_reports s' (b.reports table))

/-! ## Branches that are not taken -/

/-- A balanced branch is skipped to the directive that follows. -/
theorem skipBranch_of_clause (b : Clause) (balanced : Balanced b.body) (ends : t.endsBranch)
    (leads : r.Leads (b.body ++ t :: ts) r') :
    ∃ s, r.skipBranch = s.peek.2 ∧ r.Leads b.body s ∧ s.Leads (t :: ts) r' := by
  obtain ⟨s, body, rest⟩ := leads_append.1 leads
  refine ⟨s, skipBranch_of_balanced balanced body ?_, body, rest⟩
  rw [(leads_cons.1 rest).1]
  exact ends

/-- Branches that begin with `#elif`, or what follows them, begin with the end of a branch. -/
theorem exists_ends {bs : List Clause} (elif : ∀ b ∈ bs, b.directive.isDirective "#elif")
    (ends : t.endsBranch) (ts : List Token) :
    ∃ u us, bs.flatMap Clause.tokens ++ t :: ts = u :: us ∧ u.endsBranch := by
  cases bs with
  | nil => exact ⟨t, ts, rfl, ends⟩
  | cons b bs =>
    refine ⟨b.directive, _, rfl, ?_⟩
    simp [Token.endsBranch, elif b List.mem_cons_self]

/-- A branch whose condition does not hold is skipped. -/
theorem refused_of_clause (b : Clause) (refused : b.holds table = false)
    (balanced : Balanced b.body) (ends : t.endsBranch)
    (leads : r.Leads (b.tokens ++ t :: ts) r') :
    ∃ s last, (r.read.2.condition table b.directive).1 = false ∧
      (r.read.2.condition table b.directive).2.skipBranch = s.peek.2 ∧
      r.Advances b.tokens (b.reports table) s ∧ s.Leads (t :: ts) last := by
  obtain ⟨s, last, evaluated, head, after⟩ := condition_of_clause b leads
  obtain ⟨s', skipped, body, rest⟩ := skipBranch_of_clause b balanced ends after
  refine ⟨s', last, by rw [evaluated, refused], by rw [evaluated, skipped], ?_, rest⟩
  simpa [Clause.tokens] using head.append body

/-- The search for a branch passes over those whose conditions do not hold. -/
theorem findBranch_of_refused {bs : List Clause}
    (elif : ∀ b ∈ bs, b.directive.isDirective "#elif")
    (refused : ∀ b ∈ bs, b.holds table = false) (balanced : ∀ b ∈ bs, Balanced b.body)
    (ends : t.endsBranch) (leads : r.Leads (bs.flatMap Clause.tokens ++ t :: ts) r') :
    ∃ s last, r.findBranch table opened = s.findBranch table opened ∧
      r.Advances (bs.flatMap Clause.tokens) (bs.flatMap (Clause.reports table)) s ∧
      s.Leads (t :: ts) last := by
  induction bs generalizing r r' with
  | nil => exact ⟨r, r', rfl, .here, leads⟩
  | cons b bs ih =>
    obtain ⟨isElif, elif⟩ := List.forall_mem_cons.1 elif
    obtain ⟨no, refused⟩ := List.forall_mem_cons.1 refused
    obtain ⟨even, balanced⟩ := List.forall_mem_cons.1 balanced
    obtain ⟨u, us, next, ends'⟩ := exists_ends elif ends ts
    rw [List.flatMap_cons, List.append_assoc, next] at leads
    have front : r.peek.1 = b.directive := (leads_cons.1 leads).1
    obtain ⟨s, last, no, skipped, first, rest⟩ := refused_of_clause b no even ends' leads
    rw [← next] at rest
    obtain ⟨s', last', found, others, rest⟩ := ih elif refused balanced rest
    refine ⟨s', last', ?_, first.append others, rest⟩
    rw [findBranch_elif (by rw [front]; exact isElif), front, no, skipped, findBranch_peek, found]
    rfl

/-- The way out of a conditional passes over the branches after the one that was taken. -/
theorem leaveBranch_of_later {bs : List Clause}
    (elif : ∀ b ∈ bs, b.directive.isDirective "#elif") (balanced : ∀ b ∈ bs, Balanced b.body)
    (ends : t.endsBranch) (leads : r.Leads (bs.flatMap Clause.tokens ++ t :: ts) r') :
    ∃ s : Reader, r.leaveBranch opened = s.leaveBranch opened ∧ s.Leads (t :: ts) r' := by
  induction bs generalizing r with
  | nil => exact ⟨r, rfl, leads⟩
  | cons b bs ih =>
    obtain ⟨isElif, elif⟩ := List.forall_mem_cons.1 elif
    obtain ⟨even, balanced⟩ := List.forall_mem_cons.1 balanced
    obtain ⟨u, us, next, ends'⟩ := exists_ends elif ends ts
    have shape : (b :: bs).flatMap Clause.tokens ++ t :: ts =
        b.directive :: (b.line ++ b.lineEnd :: (b.body ++ u :: us)) := by
      simp [Clause.tokens, Clause.head, ← next]
    rw [shape] at leads
    obtain ⟨front, -, line⟩ := leads_cons.1 leads
    obtain ⟨s, skipped, -, rest⟩ := skipBranch_of_clause b even ends'
      (skipLine_of_leads b.inside b.ends line)
    rw [← next] at rest
    obtain ⟨s', left, rest⟩ := ih elif balanced rest
    refine ⟨s', ?_, rest⟩
    rw [leaveBranch_elif (by rw [front]; exact isElif), skipped, leaveBranch_peek, left]

end Reader

end RoomScript
