import Mathlib.Tactic
import RoomScript.Disk
import RoomScript.Proofs.Preprocess.Conditional

/-!
# Conditionals select one branch

The first branch whose condition holds is expanded, or the one after `#else`, and all others are
inert: they change neither the text nor the macros, and nothing is reported about them.

* `Conditional.Entered` says how a run comes to the branch that is taken and gets out of it;
* `Work.Yields` says what every run from some work puts out and where it comes to;
* `Work.run_conditional` says that a run gets behind a conditional with what the branch that is
  taken gives when it stands alone.
-/

namespace RoomScript

namespace Reader

variable {r r' : Reader} {t opened : Token} {ts : List Token} {table : Macro.Table}

/-! ## The way into a conditional and out of it -/

/-- At the closing line a conditional is left. -/
theorem leaveBranch_of_close (c : Conditional) (leads : r.Leads c.close r')
    (ended : c.lineEnd = none → r'.peek.1.kind = .eof) : r.leaveBranch opened = c.land r' := by
  have front : r.peek.1 = c.closing := (leads_cons.1 leads).1
  rw [leaveBranch_endif (by rw [front]; exact c.closes)]
  exact endOfDirective_of_close c leads ended

/-- From the line of `#else` the way out passes over its branch. -/
theorem leaveBranch_of_ending (c : Conditional) (balanced : ∀ b ∈ c.otherwise, Balanced b.body)
    (leads : r.Leads c.ending r') (ended : c.lineEnd = none → r'.peek.1.kind = .eof) :
    r.leaveBranch opened = c.land r' := by
  unfold Conditional.ending at leads
  cases last : c.otherwise with
  | none =>
    rw [last] at leads
    exact leaveBranch_of_close c leads ended
  | some b =>
    obtain ⟨isElse, bare⟩ := c.falls b last
    have shape : c.otherwise.toList.flatMap Clause.tokens ++ c.close =
        b.directive :: (b.line ++ b.lineEnd :: (b.body ++ c.close)) := by
      simp [last, Clause.tokens, Clause.head]
    rw [shape] at leads
    obtain ⟨front, -, line⟩ := leads_cons.1 leads
    obtain ⟨s, skipped, -, rest⟩ := skipBranch_of_clause b (balanced b last) c.endsBranch_closing
      (endOfDirective_of_layout bare b.ends line)
    rw [leaveBranch_else (by rw [front]; exact isElse), skipped, leaveBranch_peek]
    exact leaveBranch_of_close c rest ended

/-- The way out of a conditional passes over all branches after the one that was taken. -/
theorem leaveBranch_of_rest (c : Conditional) {later : List Clause}
    (elif : ∀ b ∈ later, b.directive.isDirective "#elif") (balanced : ∀ b ∈ later, Balanced b.body)
    (balanced' : ∀ b ∈ c.otherwise, Balanced b.body)
    (leads : r.Leads (later.flatMap Clause.tokens ++ c.ending) r')
    (ended : c.lineEnd = none → r'.peek.1.kind = .eof) : r.leaveBranch opened = c.land r' := by
  obtain ⟨u, us, next, ends⟩ := c.exists_ending
  rw [next] at leads
  obtain ⟨s, left, rest⟩ := leaveBranch_of_later elif balanced ends leads
  rw [← next] at rest
  rw [left]
  exact leaveBranch_of_ending c balanced' rest ended

/-- Branches whose conditions do not hold are passed over, from the `#if` on. -/
theorem enterBranch_of_refused {first : Clause} {bs : List Clause}
    (elif : ∀ b ∈ bs, b.directive.isDirective "#elif")
    (refused : ∀ b ∈ first :: bs, b.holds table = false)
    (balanced : ∀ b ∈ first :: bs, Balanced b.body) (ends : t.endsBranch)
    (leads : r.Leads ((first :: bs).flatMap Clause.tokens ++ t :: ts) r') :
    ∃ s last, r.read.2.enterBranch table first.directive = s.findBranch table first.directive ∧
      r.Advances ((first :: bs).flatMap Clause.tokens)
        ((first :: bs).flatMap (Clause.reports table)) s ∧
      s.Leads (t :: ts) last := by
  obtain ⟨no, refused⟩ := List.forall_mem_cons.1 refused
  obtain ⟨even, balanced⟩ := List.forall_mem_cons.1 balanced
  obtain ⟨u, us, next, ends'⟩ := exists_ends elif ends ts
  rw [List.flatMap_cons, List.append_assoc, next] at leads
  obtain ⟨s, last, no, skipped, head, rest⟩ := refused_of_clause first no even ends' leads
  rw [← next] at rest
  obtain ⟨s', last', found, others, rest⟩ := findBranch_of_refused elif refused balanced ends rest
  refine ⟨s', last', ?_, head.append others, rest⟩
  rcases evaluated : r.read.2.condition table first.directive with ⟨x, after⟩
  rw [evaluated] at no skipped
  obtain rfl : x = false := no
  have skipped : after.skipBranch = s.peek.2 := skipped
  simp only [enterBranch, evaluated]
  rw [skipped, findBranch_peek, found]

/-- The first branch whose condition holds is entered. -/
theorem enterBranch_of_holds {first b : Clause} {others before later : List Clause}
    (shape : first :: others = before ++ b :: later)
    (elif : ∀ a ∈ others, a.directive.isDirective "#elif")
    (refused : ∀ a ∈ before, a.holds table = false) (balanced : ∀ a ∈ before, Balanced a.body)
    (holds : b.holds table)
    (leads : r.Leads (before.flatMap Clause.tokens ++ (b.tokens ++ ts)) r') :
    ∃ s last, r.read.2.enterBranch table first.directive = (true, s) ∧
      r.Advances (before.flatMap Clause.tokens ++ b.head)
        ((before ++ [b]).flatMap (Clause.reports table)) s ∧
      s.Leads (b.body ++ ts) last := by
  cases before with
  | nil =>
    obtain ⟨rfl, -⟩ := List.cons.inj shape
    obtain ⟨s, last, evaluated, head, ahead⟩ := condition_of_clause first leads
    rw [holds] at evaluated
    exact ⟨s, last, by rw [enterBranch, evaluated], by simpa using head, ahead⟩
  | cons a before =>
    obtain ⟨rfl, rfl⟩ := List.cons.inj shape
    have isElif : b.directive.isDirective "#elif" := elif b (by simp)
    obtain ⟨s, last, entered, passed, rest⟩ := enterBranch_of_refused
      (fun a ha => elif a (by simp [ha])) refused balanced (by simp [Token.endsBranch, isElif]) leads
    have rest : s.Leads (b.tokens ++ ts) last := rest
    have front : s.peek.1 = b.directive := (leads_cons.1 rest).1
    obtain ⟨s', last', evaluated, head, ahead⟩ := condition_of_clause b rest
    rw [holds] at evaluated
    refine ⟨s', last', ?_, by simpa using passed.append head, ahead⟩
    rw [entered, findBranch_elif (by rw [front]; exact isElif), front, evaluated]
    rfl

end Reader

namespace Conditional

variable (c : Conditional) {table : Macro.Table}

/-- The choice when some condition holds. -/
theorem choice_of_holds {before later : List Clause} {b : Clause}
    (shape : c.conditions = before ++ b :: later) (refused : ∀ a ∈ before, a.holds table = false)
    (holds : b.holds table) :
    c.taken table = b.body ∧ c.untaken table = before ++ later ++ c.otherwise.toList ∧
      c.reports table = (before ++ [b]).flatMap (Clause.reports table) := by
  have index : c.index table = before.length := by
    rw [Conditional.index, shape, List.findIdx_append, List.findIdx_eq_length_of_false refused]
    simp [List.findIdx_cons, holds]
  refine ⟨?_, ?_, ?_⟩
  · simp [taken, index, shape]
  · simp [untaken, index, shape, List.eraseIdx_append_of_length_le]
  · simp [Conditional.reports, index, shape, List.take_append, List.take_of_length_le]

/-- The choice when no condition holds. -/
theorem choice_of_refused (refused : ∀ b ∈ c.conditions, b.holds table = false) :
    c.taken table = c.otherwise.elim [] Clause.body ∧ c.untaken table = c.conditions ∧
      c.reports table = c.conditions.flatMap (Clause.reports table) := by
  have index : c.index table = c.conditions.length := List.findIdx_eq_length_of_false refused
  refine ⟨?_, ?_, ?_⟩
  · simp [taken, index]
  · simp [untaken, index, List.eraseIdx_of_length_le]
  · simp [Conditional.reports, index, List.take_of_length_le]

/-- The branch that is taken has been entered: `s` is the reader at its text, `after` the tokens of
the conditional behind it, and `last` the reader behind all of them. -/
structure Entered (c : Conditional) (table : Macro.Table) (r s : Reader) (after : List Token)
    (last : Reader) : Prop where
  enter : r.read.2.enterBranch table c.first.directive = (true, s)
  way : ∃ before, c.tokens = before ++ (c.taken table ++ after) ∧
    r.Advances before (c.reports table) s
  ahead : s.Leads (c.taken table ++ after) last
  lined : Lined (c.taken table)
  ends : ∃ u us, after = u :: us ∧ u.endsBranch
  leave : ∀ m : Reader, m.Leads after last → (c.lineEnd = none → last.peek.1.kind = .eof) →
    m.leaveBranch c.first.directive = c.land last

theorem Entered.advances {c : Conditional} {r s last : Reader} {after : List Token}
    (entered : c.Entered table r s after last) : r.Advances c.tokens (c.reports table) last := by
  obtain ⟨before, tokens, way⟩ := entered.way
  rw [tokens]
  simpa using way.append entered.ahead

/-- A conditional with a condition that holds is entered at its branch. -/
theorem entered_of_holds {r r' : Reader} {before later : List Clause} {b : Clause}
    (shape : c.conditions = before ++ b :: later) (refused : ∀ a ∈ before, a.holds table = false)
    (holds : b.holds table) (inert : ∀ a ∈ c.untaken table, Balanced a.body)
    (leads : r.Leads c.tokens r') :
    ∃ s after last, c.Entered table r s after last := by
  obtain ⟨taken, untaken, reports⟩ := c.choice_of_holds shape refused holds
  rw [untaken] at inert
  have elif : ∀ a ∈ later, a.directive.isDirective "#elif" := by
    have tail : ∀ a ∈ c.conditions.tail, a.directive.isDirective "#elif" := c.continues
    intro a ha
    refine tail a ?_
    cases before <;> simp [shape, ha]
  have tokens : c.tokens = before.flatMap Clause.tokens ++
      (b.tokens ++ (later.flatMap Clause.tokens ++ c.ending)) := by
    simp [Conditional.tokens, shape]
  rw [tokens] at leads
  obtain ⟨s, last, entered, way, ahead⟩ := Reader.enterBranch_of_holds shape c.continues refused
    (fun a ha => inert a (by simp [ha])) holds leads
  refine ⟨s, later.flatMap Clause.tokens ++ c.ending, last, entered,
    ⟨before.flatMap Clause.tokens ++ b.head, ?_, ?_⟩, ?_, ?_, ?_, ?_⟩
  · rw [tokens, taken]
    simp [Clause.tokens]
  · rwa [reports]
  · rwa [taken]
  · rw [taken]
    exact b.lined
  · obtain ⟨u, us, next, ends⟩ := c.exists_ending
    rw [next]
    exact Reader.exists_ends elif ends us
  · intro m leads ended
    exact Reader.leaveBranch_of_rest c elif (fun a ha => inert a (by simp [ha]))
      (fun a ha => inert a (List.mem_append_right _ (Option.mem_toList.2 ha))) leads ended

/-- A conditional without a condition that holds is entered at `#else`. -/
theorem entered_of_otherwise {r r' : Reader} {b : Clause} (last : c.otherwise = some b)
    (refused : ∀ a ∈ c.conditions, a.holds table = false)
    (inert : ∀ a ∈ c.untaken table, Balanced a.body) (leads : r.Leads c.tokens r') :
    ∃ s after last, c.Entered table r s after last := by
  obtain ⟨taken, untaken, reports⟩ := c.choice_of_refused refused
  rw [untaken] at inert
  rw [last, Option.elim_some] at taken
  obtain ⟨isElse, bare⟩ := c.falls b last
  have tokens : c.tokens = c.conditions.flatMap Clause.tokens ++
      b.directive :: ((b.line ++ [b.lineEnd]) ++ (b.body ++ c.close)) := by
    simp [Conditional.tokens, Conditional.ending, last, Clause.tokens, Clause.head]
  rw [tokens] at leads
  obtain ⟨s, last', entered, passed, rest⟩ := Reader.enterBranch_of_refused c.continues refused inert
    (by simp [Token.endsBranch, isElse]) leads
  obtain ⟨front, going, rest⟩ := Reader.leads_cons.1 rest
  obtain ⟨m, line, ahead⟩ := Reader.leads_append.1 rest
  have landed : s.read.2.endOfDirective = m :=
    Reader.leads_nil.1 (Reader.endOfDirective_of_layout bare b.ends line)
  refine ⟨m, c.close, last', ?_, ⟨c.conditions.flatMap Clause.tokens ++ b.head, ?_, ?_⟩, ?_, ?_,
    ⟨c.closing, _, rfl, c.endsBranch_closing⟩, fun m => Reader.leaveBranch_of_close c⟩
  · rw [entered, Reader.findBranch_else (by rw [front]; exact isElse), landed]
  · rw [tokens, taken]
    simp [Clause.head]
  · have whole := passed.append (Reader.Advances.read front going line)
    rw [List.append_nil] at whole
    rw [reports]
    exact whole
  · rwa [taken]
  · rw [taken]
    exact b.lined

/-- A conditional without a branch to take is passed over. -/
theorem enterBranch_of_none {r r' : Reader} (last : c.otherwise = none)
    (refused : ∀ a ∈ c.conditions, a.holds table = false)
    (inert : ∀ a ∈ c.untaken table, Balanced a.body) (leads : r.Leads c.tokens r') :
    ∃ after, r.Advances c.tokens (c.reports table) after ∧
      ((c.lineEnd = none → after.peek.1.kind = .eof) →
        r.read.2.enterBranch table c.first.directive = (false, c.land after)) := by
  obtain ⟨-, untaken, reports⟩ := c.choice_of_refused refused
  rw [untaken] at inert
  have tokens : c.tokens = c.conditions.flatMap Clause.tokens ++ c.close := by
    simp [Conditional.tokens, Conditional.ending, last]
  rw [tokens] at leads
  obtain ⟨s, after, entered, passed, rest⟩ := Reader.enterBranch_of_refused c.continues refused inert
    c.endsBranch_closing leads
  have front : s.peek.1 = c.closing := (Reader.leads_cons.1 rest).1
  refine ⟨after, ?_, fun ended => ?_⟩
  · have whole := passed.append rest
    rw [List.append_nil] at whole
    rw [tokens, reports]
    exact whole
  · rw [entered, Reader.findBranch_endif (by rw [front]; exact c.closes),
      Reader.endOfDirective_of_close c rest ended]

/-- The branch that is taken, expanded as a text of its own. -/
def alone (c : Conditional) (lib : Library) (chain : List String) (w : Work) :
    Array Token × Option Token × Work :=
  Work.run lib chain true
    { macros := w.macros, reader := .ofTokens (c.taken w.macros), remarks := w.remarks } #[]

/-- A branch without tokens expands to nothing. -/
theorem alone_of_nil (c : Conditional) (lib : Library) (chain : List String) {w : Work}
    (nothing : c.taken w.macros = []) :
    (c.alone lib chain w).1 = #[] ∧ (c.alone lib chain w).2.2.macros = w.macros ∧
      (c.alone lib chain w).2.2.remarks = w.remarks := by
  have stopped : Work.turn { macros := w.macros, reader := .ofTokens [], remarks := w.remarks } =
      (.stop (EndPlace.token {}),
        ⟨w.macros, (Reader.ofTokens []).peek.2, [], w.remarks⟩) := rfl
  rw [alone, nothing, Work.run_of_stop stopped]
  exact ⟨rfl, rfl, rfl⟩

/-- The work behind the conditional, at a reader behind it. -/
def behind (c : Conditional) (lib : Library) (chain : List String) (w : Work) (after : Reader) :
    Work :=
  { macros := (c.alone lib chain w).2.2.macros, reader := c.land after, opened := w.opened,
    remarks := (c.alone lib chain w).2.2.remarks }

end Conditional

/-! ## The run over a conditional -/

namespace Work

variable {lib : Library} {chain : List String} {w : Work} {c : Conditional} {rest : Reader}

/-- Every run from `w` puts out `ts` and comes to `w'`.  There it ends when only one statement is
wanted and no conditional is open. -/
def Yields (w : Work) (lib : Library) (chain : List String) (ts : Array Token) (w' : Work) : Prop :=
  ∀ (whole : Bool) (out : Array Token), run lib chain whole w out =
    if w'.opened.isEmpty && !whole then (out ++ ts, none, w')
    else run lib chain whole w' (out ++ ts)

/-- The end of a file is the same with other diagnostics. -/
theorem atEnd_of_advances {ds : List Diagnostic} {after : Reader}
    (ahead : w.reader.Leads c.tokens rest) (advances : w.reader.Advances c.tokens ds after)
    (ended : c.lineEnd = none → rest.peek.1.kind = .eof) :
    c.lineEnd = none → after.peek.1.kind = .eof := by
  intro last
  obtain ⟨same, -⟩ := advances.beside ahead rfl
  rw [same, Reader.peek_with_diagnostics]
  exact ended last

/-- A run enters the branch that is taken, expands it as if it stood alone, and leaves it. -/
theorem yields_of_entered {s after : Reader} {tail : List Token}
    (entered : c.Entered w.macros w.reader s tail after)
    (front : w.reader.peek.1 = c.first.directive)
    (ended : c.lineEnd = none → after.peek.1.kind = .eof)
    (plain : ∀ t ∈ c.taken w.macros, t.kind ≠ .backslash)
    (quiet : (c.alone lib chain w).2.2.reader.diagnostics = []) :
    w.Yields lib chain (c.alone lib chain w).1 (c.behind lib chain w after) := by
  intro whole out
  have opening : w.turn =
      (.emit [], ⟨w.macros, s, [] ++ c.first.directive :: w.opened, w.remarks⟩) := by
    rw [turn_of_if c.opens w front]
    simp [turnIf, withReader, entered.enter]
  obtain ⟨m, body, tail⟩ := Reader.leads_append.1 entered.ahead
  have own : (Reader.ofTokens (c.taken w.macros)).Holds (c.taken w.macros) :=
    ⟨_, Reader.leads_ofTokens body.going [], rfl⟩
  have among : run lib chain whole ⟨w.macros, s, [] ++ c.first.directive :: w.opened, w.remarks⟩
      (out ++ #[]) = run lib chain whole ⟨(c.alone lib chain w).2.2.macros, m,
        c.first.directive :: w.opened, (c.alone lib chain w).2.2.remarks⟩
          (out ++ (c.alone lib chain w).1) :=
    run_within lib chain entered.lined plain own quiet body (List.cons_ne_nil _ _) whole out
  -- Behind the branch stands a directive that ends it, with the conditional still open.
  obtain ⟨u, us, rfl, ends⟩ := entered.ends
  have leaving : turn ⟨(c.alone lib chain w).2.2.macros, m, c.first.directive :: w.opened,
      (c.alone lib chain w).2.2.remarks⟩ = (.emit [], c.behind lib chain w after) := by
    obtain ⟨stray, turned⟩ := turn_of_endsBranch ends
    rw [turned _ (Reader.leads_cons.1 tail).1]
    simp only [turnBranchEnd, withReader, Conditional.behind, Reader.leaveBranch_peek,
      entered.leave m tail ended]
  rw [run_of_emit opening, if_neg (by simp)]
  rw [Array.append_empty] at among
  simp only [Array.appendList_nil]
  rw [among, run_of_emit leaving]
  simp [Conditional.behind]

/-- **A conditional selects one branch, and the others are inert.**  Let the tokens of a conditional
be ahead, and let every branch that is not taken be balanced.  When the branch that is taken has no
backslash and reports nothing as a text of its own, a run gets behind exactly the conditional, with
the tokens, the macros and the remarks that the branch gives alone.  What is reported on the way are
the reports of the conditions up to the first one that holds, besides the faults that reading the
tokens finds in any case. -/
theorem run_conditional (lib : Library) (chain : List String) (w : Work) (c : Conditional)
    (rest : Reader) (ahead : w.reader.Leads c.tokens rest)
    (ended : c.lineEnd = none → rest.peek.1.kind = .eof)
    (inert : ∀ b ∈ c.untaken w.macros, Balanced b.body)
    (plain : ∀ t ∈ c.taken w.macros, t.kind ≠ .backslash)
    (quiet : (c.alone lib chain w).2.2.reader.diagnostics = []) :
    ∃ after, w.reader.Advances c.tokens (c.reports w.macros) after ∧
      after = { rest with diagnostics := after.diagnostics } ∧
      (rest.diagnostics = w.reader.diagnostics →
        after.diagnostics = w.reader.diagnostics ++ c.reports w.macros) ∧
      w.Yields lib chain (c.alone lib chain w).1 (c.behind lib chain w after) := by
  have front : w.reader.peek.1 = c.first.directive := (Reader.leads_cons.1 ahead).1
  -- It is enough to find the reader behind the conditional and to follow the run to it.
  suffices ∃ after, w.reader.Advances c.tokens (c.reports w.macros) after ∧
      w.Yields lib chain (c.alone lib chain w).1 (c.behind lib chain w after) by
    obtain ⟨after, advances, runs⟩ := this
    obtain ⟨same, added, faults, found, scanned, only⟩ := advances.beside ahead rfl
    refine ⟨after, advances, same, fun clean => ?_, runs⟩
    rw [found, only]
    simpa [clean] using scanned
  have through : ∀ s tail after, c.Entered w.macros w.reader s tail after →
      ∃ after, w.reader.Advances c.tokens (c.reports w.macros) after ∧
        w.Yields lib chain (c.alone lib chain w).1 (c.behind lib chain w after) := by
    intro s tail after entered
    have advances := entered.advances
    exact ⟨after, advances, yields_of_entered entered front (atEnd_of_advances ahead advances ended)
      plain quiet⟩
  cases found : c.conditions.find? (Clause.holds w.macros) with
  | some b =>
    obtain ⟨holds, before, later, shape, refused⟩ := List.find?_eq_some_iff_append.1 found
    obtain ⟨s, tail, after, entered⟩ := c.entered_of_holds shape
      (fun a ha => by simpa using refused a ha) holds inert ahead
    exact through s tail after entered
  | none =>
    have refused : ∀ b ∈ c.conditions, b.holds w.macros = false := fun b hb => by
      simpa using List.find?_eq_none.1 found b hb
    cases last : c.otherwise with
    | some b =>
      obtain ⟨s, tail, after, entered⟩ := c.entered_of_otherwise last refused inert ahead
      exact through s tail after entered
    | none =>
      obtain ⟨after, advances, entered⟩ := c.enterBranch_of_none last refused inert ahead
      have entered := entered (atEnd_of_advances ahead advances ended)
      refine ⟨after, advances, fun whole out => ?_⟩
      have nothing : c.taken w.macros = [] := by
        rw [(c.choice_of_refused refused).1, last]
        rfl
      obtain ⟨tokens, macros, remarks⟩ := c.alone_of_nil lib chain nothing
      have opening : w.turn = (.emit [], c.behind lib chain w after) := by
        rw [turn_of_if c.opens w front]
        simp [turnIf, withReader, entered, Conditional.behind, macros, remarks]
      rw [run_of_emit opening, tokens]
      simp [Conditional.behind]

end Work

/-! ## An example -/

namespace Conditional

/-- A token of the example. -/
def piece (kind : Token.Kind) (lexeme : String) : Token :=
  ⟨kind, lexeme, "main.scd", 1, 1⟩

/-- A line of the example: a directive and what follows it. -/
def row (word : String) (rest : List Token) : List Token :=
  piece .directive word :: (rest ++ [piece .newline "\n"])

/-- `#if 0`, then `#elif 1` with a definition, then `#else` with another conditional inside. -/
def sample : Conditional where
  first :=
    { directive := piece .directive "#if", line := [piece .number "0"],
      lineEnd := piece .newline "\n", body := [piece .symbol "nop", piece .newline "\n"],
      inside := by decide, ends := rfl, lined := by decide }
  others := [
    { directive := piece .directive "#elif", line := [piece .number "1"],
      lineEnd := piece .newline "\n", body := row "#define" [piece .symbol "door"],
      inside := by decide, ends := rfl, lined := by decide }]
  otherwise := some
    { directive := piece .directive "#else", line := [], lineEnd := piece .newline "\n",
      body := row "#if" [piece .number "1"] ++ row "#else" [] ++ row "#endif" [],
      inside := by decide, ends := rfl, lined := by decide }
  closing := piece .directive "#endif"
  layout := []
  lineEnd := some (piece .newline "\n")
  opens := rfl
  continues := by decide
  falls := by
    rintro _ ⟨⟩
    exact ⟨rfl, by decide⟩
  closes := rfl
  bare := by decide
  ends := by decide

/-- The start of a file that consists of the example. -/
def sampleWork : Work :=
  { macros := [], reader := .ofTokens sample.tokens }

/-- The branch of the example that is taken defines a macro and leaves a line end. -/
theorem alone_sample : sample.alone (Disk.library {}) ["main.scd"] sampleWork =
    (#[piece .newline "\n"], some ⟨.eof, "", "main.scd", 1, 2⟩,
      ⟨[{ name := "door", body := [] }],
        ⟨.replay [] ⟨"main.scd", 1, 2⟩, [⟨.eof, "", "main.scd", 1, 2⟩], []⟩, [], []⟩) := by
  have taken : sample.taken [] = row "#define" [piece .symbol "door"] := by cbv
  have first : Work.turn ⟨[], .ofTokens (row "#define" [piece .symbol "door"]), [], []⟩ =
      (.emit [], ⟨[{ name := "door", body := [] }],
        ⟨.replay [] ⟨"main.scd", 1, 2⟩, [piece .newline "\n"], []⟩, [], []⟩) := by cbv
  have second : Work.turn ⟨[{ name := "door", body := [] }],
        ⟨.replay [] ⟨"main.scd", 1, 2⟩, [piece .newline "\n"], []⟩, [], []⟩ =
      (.emit [piece .newline "\n"], ⟨[{ name := "door", body := [] }],
        ⟨.replay [] ⟨"main.scd", 1, 2⟩, [], []⟩, [], []⟩) := by cbv
  have third : Work.turn ⟨[{ name := "door", body := [] }],
        ⟨.replay [] ⟨"main.scd", 1, 2⟩, [], []⟩, [], []⟩ =
      (.stop ⟨.eof, "", "main.scd", 1, 2⟩, ⟨[{ name := "door", body := [] }],
        ⟨.replay [] ⟨"main.scd", 1, 2⟩, [⟨.eof, "", "main.scd", 1, 2⟩], []⟩, [], []⟩) := by cbv
  change Work.run _ _ true ⟨[], .ofTokens (sample.taken []), [], []⟩ #[] = _
  rw [taken, Work.run_of_emit first, if_neg (by simp), Work.run_of_emit second, if_neg (by simp),
    Work.run_of_stop third]
  rfl

end Conditional

namespace Work

/-- In the example only the branch after `#elif` counts. -/
theorem run_conditional_sample :
    run (Disk.library {}) ["main.scd"] false Conditional.sampleWork #[] =
      (#[Conditional.piece .newline "\n"], none,
        ⟨[{ name := "door", body := [] }],
          ⟨.replay [] (.ofTokens Conditional.sample.tokens), [], []⟩, [], []⟩) := by
  have untaken : Conditional.sample.untaken [] =
      [Conditional.sample.first, Conditional.sample.otherwise.get rfl] := by cbv
  have taken : Conditional.sample.taken [] =
      Conditional.row "#define" [Conditional.piece .symbol "door"] := by cbv
  have reports : Conditional.sample.reports [] = [] := by cbv
  have inert : ∀ b ∈ Conditional.sample.untaken [], Balanced b.body := by
    rw [untaken]
    decide
  have plain : ∀ t ∈ Conditional.sample.taken [], t.kind ≠ .backslash := by
    rw [taken]
    decide
  obtain ⟨after, -, same, clean, runs⟩ := run_conditional (Disk.library {}) ["main.scd"]
    Conditional.sampleWork Conditional.sample _ (Reader.leads_ofTokens (by decide) [])
    (by simp [Conditional.sample]) inert plain (by rw [Conditional.alone_sample])
  have silent : after.diagnostics = [] := by
    rw [clean rfl]
    exact reports
  rw [silent] at same
  rw [runs, Conditional.behind, Conditional.alone_sample, same]
  rfl

end Work

end RoomScript
