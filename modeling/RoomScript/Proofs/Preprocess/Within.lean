import RoomScript.Proofs.Preprocess.Earlier

/-!
# Whole lines and what is around them

Whole lines that expand without diagnostics as a text of their own expand in the same way when more
tokens follow them.  An operation that would look beyond the lines meets the end of the text when
they stand alone, and there it reports something.

* `Reader.Holds` says that some tokens are all that is left to read;
* `Reader.Settles` and `Reader.Moves` say that an operation stops among the tokens ahead, with the
  same result for all readers that have them ahead; `Moves.settles` and `Moves.trans` put two
  operations together;
* there is one lemma for each operation: it settles unless it reports something on a reader that
  holds just these tokens.
-/

namespace RoomScript

namespace Reader

variable {α : Type} {o r r' : Reader} {t : Token} {ts us vs : List Token}

/-- The tokens are all that is left to read. -/
def Holds (r : Reader) (ts : List Token) : Prop :=
  ∃ r', r.Leads ts r' ∧ r'.peek.1.kind = .eof

/-- With `ts` ahead the operation gives `x`, and `us` are left of them. -/
def Settles (f : Reader → α × Reader) (ts : List Token) (x : α) (us : List Token) : Prop :=
  us <:+ ts ∧ ∀ r r', r.Leads ts r' → ∃ s, f r = (x, s) ∧ s.Leads us r'

/-- With `ts` ahead the operation leaves `us` of them. -/
def Moves (f : Reader → Reader) (ts us : List Token) : Prop :=
  us <:+ ts ∧ ∀ r r', r.Leads ts r' → (f r).Leads us r'

theorem Holds.settle {f : Reader → α × Reader} {x : α} (own : o.Holds ts)
    (settles : Settles f ts x us) : ∃ s, f o = (x, s) ∧ s.Holds us := by
  obtain ⟨o', leads, atEnd⟩ := own
  obtain ⟨s, found, leads⟩ := settles.2 o o' leads
  exact ⟨s, found, o', leads, atEnd⟩

theorem Holds.move {f : Reader → Reader} (own : o.Holds ts) (moves : Moves f ts us) :
    (f o).Holds us := by
  obtain ⟨o', leads, atEnd⟩ := own
  exact ⟨o', moves.2 o o' leads, atEnd⟩

/-- What moves on and then settles, settles. -/
theorem Moves.settles {f : Reader → Reader} {g : Reader → α × Reader} {x : α}
    (moves : Moves f ts us) (settles : Settles g us x vs) : Settles (fun r => g (f r)) ts x vs :=
  ⟨settles.1.trans moves.1, fun r r' leads => settles.2 _ r' (moves.2 r r' leads)⟩

theorem Moves.trans {f g : Reader → Reader} (first : Moves f ts us) (second : Moves g us vs) :
    Moves (fun r => g (f r)) ts vs :=
  ⟨second.1.trans first.1, fun r r' leads => second.2 _ r' (first.2 r r' leads)⟩

theorem Moves.give {f : Reader → Reader} (moves : Moves f ts us) (x : α) :
    Settles (fun r => (x, f r)) ts x us :=
  ⟨moves.1, fun r r' leads => ⟨f r, rfl, moves.2 r r' leads⟩⟩

/-- What comes to the same with `ts` ahead settles alike. -/
theorem Settles.congr {f g : Reader → α × Reader} {x : α} (settles : Settles f ts x us)
    (same : ∀ r r', r.Leads ts r' → g r = f r) : Settles g ts x us := by
  refine ⟨settles.1, fun r r' leads => ?_⟩
  rw [same r r' leads]
  exact settles.2 r r' leads

theorem Moves.congr {f g : Reader → Reader} (moves : Moves f ts us)
    (same : ∀ r r', r.Leads ts r' → g r = f r) : Moves g ts us := by
  refine ⟨moves.1, fun r r' leads => ?_⟩
  rw [same r r' leads]
  exact moves.2 r r' leads

theorem moves_read : Moves (fun r => r.read.2) (t :: ts) ts :=
  ⟨List.suffix_cons t ts, fun _ _ leads => (leads_cons.1 leads).2.2⟩

theorem moves_peek : Moves (fun r => r.peek.2) (t :: ts) (t :: ts) :=
  ⟨List.suffix_refl _, fun _ _ leads => leads.peek⟩

theorem peek_of_leads (leads : r.Leads (t :: ts) r') : r.peek.1 = t :=
  (leads_cons.1 leads).1

theorem holds_nil : o.Holds [] ↔ o.peek.1.kind = .eof := by
  constructor
  · rintro ⟨o', leads, atEnd⟩
    rwa [leads_nil.1 leads]
  · intro atEnd
    exact ⟨o, .here, atEnd⟩

theorem Holds.read (own : o.Holds (t :: ts)) : o.read.2.Holds ts := by
  obtain ⟨o', leads, atEnd⟩ := own
  exact ⟨o', (leads_cons.1 leads).2.2, atEnd⟩

theorem Holds.front (own : o.Holds (t :: ts)) : o.peek.1 = t ∧ t.kind ≠ .eof := by
  obtain ⟨o', leads, -⟩ := own
  exact ⟨(leads_cons.1 leads).1, (leads_cons.1 leads).2.1⟩

/-! ## Loops -/

theorem settles_loop {σ : Type} {judge : σ → Token → Verdict σ} {a b : σ}
    (stops : track judge a ts = (b, some us)) : Settles (loop judge a) ts b us :=
  ⟨suffix_of_stop stops, fun _ _ leads => loop_of_stop stops leads⟩

theorem moves_of_settles {σ : Type} {f : Reader → σ × Reader} {a : σ} (h : Settles f ts a us) :
    Moves (fun r => (f r).2) ts us := by
  refine ⟨h.1, fun r r' leads => ?_⟩
  obtain ⟨s, found, leads⟩ := h.2 r r' leads
  simpa [found] using leads

/-- Whole lines begin with tokens of a kind that does not end lines, up to one of another kind. -/
theorem exists_split {p : Token → Prop} (inside : ∀ t, p t → t.kind ≠ .newline) (lined : Lined ts)
    (nonempty : ts ≠ []) :
    ∃ before t after, ts = before ++ t :: after ∧ (∀ b ∈ before, p b) ∧ ¬p t := by
  induction ts with
  | nil => exact absurd rfl nonempty
  | cons t ts ih =>
    by_cases h : p t
    · obtain ⟨before, u, after, rfl, all, other⟩ :=
        ih (lined.of_suffix (List.suffix_cons t ts)) (lined.ne_nil (inside t h))
      exact ⟨t :: before, u, after, rfl, List.forall_mem_cons.2 ⟨h, all⟩, other⟩
    · exact ⟨[], t, ts, rfl, by simp, h⟩

/-- Blanks end before the line does. -/
theorem exists_moves_skipWhitespace (lined : Lined ts) (nonempty : ts ≠ []) :
    ∃ u us, Moves skipWhitespace ts (u :: us) := by
  have stops : ∃ b us, track (fun _ t => if t.kind = .whitespace then .more () else .stay ()) () ts =
      (b, some us) := by
    refine exists_stop (P := fun _ => True) trivial lined nonempty ?_
    intro t _ b c _ goes
    split at goes
    · rename_i blank
      simp [blank]
    · cases goes
  obtain ⟨b, us, stops⟩ := stops
  obtain ⟨c, before, t, after, -, ⟨-, rfl⟩ | ⟨last, -⟩⟩ := exists_of_stop stops
  · exact ⟨t, after, moves_of_settles (settles_loop stops)⟩
  · split at last <;> cases last

/-- Reading a line collects the tokens before its end. -/
theorem track_line {line : List Token} (inside : ∀ u ∈ line, u.kind ≠ .newline ∧ u.kind ≠ .eof)
    (read : List Token) :
    track (fun read t => if t.kind = .newline ∨ t.kind = .eof then .last read
      else .more (t :: read)) read line = (line.reverse ++ read, none) := by
  induction line generalizing read with
  | nil => rfl
  | cons u line ih =>
    obtain ⟨first, others⟩ := List.forall_mem_cons.1 inside
    simp [track, first, ih others]

/-- Reading a line gives the tokens before its end. -/
theorem readLine_of_leads {line : List Token} (inside : ∀ u ∈ line, u.kind ≠ .newline)
    (ends : t.kind = .newline) (h : r.Leads (line ++ t :: ts) r') :
    ∃ s, r.readLine = (line, s) ∧ s.Leads ts r' := by
  have whole : ∀ u ∈ line, u.kind ≠ .newline ∧ u.kind ≠ .eof := fun u hu =>
    ⟨inside u hu, h.going u (List.mem_append_left _ hu)⟩
  have stops : track (fun read t => if t.kind = .newline ∨ t.kind = .eof then .last read
      else .more (t :: read)) [] (line ++ t :: ts) = (line.reverse, some ts) := by
    rw [track_append_of_pass (track_line whole [])]
    simp [track, ends]
  obtain ⟨s, found, leads⟩ := loop_of_stop stops h
  exact ⟨s, by simp [readLine, found], leads⟩

/-- The last line of a captured list needs no end. -/
theorem readLine_ofTokens {line : List Token}
    (inside : ∀ u ∈ line, u.kind ≠ .newline ∧ u.kind ≠ .eof) :
    ∃ s, (ofTokens line).readLine = (line, s) ∧ s.diagnostics = [] := by
  have leads := leads_ofTokens (fun u hu => (inside u hu).2) []
  refine ⟨(Reader.read ⟨.replay [] (.ofTokens line), [], []⟩).2, ?_, ?_⟩
  · rw [readLine, loop_of_pass (track_line inside []) leads, loop]
    simp [Reader.peek, Reader.read, Source.next, EndPlace.token]
  · simp [Reader.read, Source.next]

/-- Skipping a line is reading it and forgetting its tokens. -/
theorem skipLine_eq (r : Reader) : r.skipLine = r.readLine.2 := by
  have same : ∀ (u : Unit) (read : List Token), (r.loop (fun _ t =>
      if t.kind = .newline ∨ t.kind = .eof then .last () else .more ()) u).2 =
        (r.loop (fun read t => if t.kind = .newline ∨ t.kind = .eof then .last read
          else .more (t :: read)) read).2 := by
    intro u read
    fun_induction loop _ u r generalizing read with
    | case1 u r seen u' verdict => split at verdict <;> cases verdict
    | case2 u r seen u' verdict =>
      split at verdict <;> cases verdict
      rename_i ends
      rw [loop]
      simp [seen, ends]
    | case3 u r seen u' verdict atEnd => simp [atEnd] at verdict
    | case4 u r seen u' verdict going ih =>
      split at verdict <;> cases verdict
      rename_i inside
      have inside : r.peek.1.kind ≠ .newline := fun ends => inside (.inl ends)
      have going : r.peek.1.kind ≠ .eof := going
      rw [ih (seen.1 :: read), loop.eq_def _ read r]
      simp [seen, inside, going]
  exact same () []

theorem skipLine_of_leads {line : List Token} (inside : ∀ u ∈ line, u.kind ≠ .newline)
    (ends : t.kind = .newline) (h : r.Leads (line ++ t :: ts) r') : r.skipLine.Leads ts r' := by
  obtain ⟨s, read, leads⟩ := readLine_of_leads inside ends h
  rw [skipLine_eq, read]
  exact leads

/-- Whole lines begin with a line. -/
theorem exists_line (lined : Lined ts) (nonempty : ts ≠ []) :
    ∃ line t rest, ts = line ++ t :: rest ∧ (∀ u ∈ line, u.kind ≠ .newline) ∧
      t.kind = .newline := by
  obtain ⟨line, t, rest, shape, inside, ends⟩ :=
    exists_split (p := fun t => t.kind ≠ .newline) (by simp) lined nonempty
  exact ⟨line, t, rest, shape, inside, Decidable.not_not.1 ends⟩

theorem exists_moves_skipLine (lined : Lined ts) (nonempty : ts ≠ []) :
    ∃ us, Moves skipLine ts us := by
  obtain ⟨line, t, rest, rfl, inside, ends⟩ := exists_line lined nonempty
  exact ⟨rest, (List.suffix_cons t rest).trans (List.suffix_append _ _),
    fun r r' leads => skipLine_of_leads inside ends leads⟩

/-! ## Macro calls -/

/-- An argument list is closed by nothing but its closing parenthesis. -/
theorem Arguments.closed_of_more {a b : Arguments} (h : a.judge t = .more b) :
    b.closed = a.closed := by
  unfold judge at h
  split at h
  · cases h
  · cases h
    rfl
  · split at h <;> cases h
    rfl
  · split at h <;> cases h <;> rfl
  · cases h
    rfl
  · cases h
    rfl
  · cases h
    rfl

/-- An argument list that is closed in a text of its own is closed within that text. -/
theorem exists_settles_readArguments (own : o.Holds ts) (closed : o.readArguments.1 ≠ none) :
    ∃ args us, Settles readArguments ts args us := by
  rcases stops : track Arguments.judge {} ts with ⟨a, _ | us⟩
  · -- The end of the text is met before the closing parenthesis.
    obtain ⟨o', leads, atEnd⟩ := own
    have still : a.closed = false := invariant_of_pass (P := fun a => a.closed = false)
      (fun a t b opened more => (Arguments.closed_of_more more).trans opened) rfl stops
    have verdict : a.judge o'.peek.1 = .stay a := by simp [Arguments.judge, atEnd]
    refine absurd ?_ closed
    rw [readArguments, loop_of_pass stops leads, loop]
    simp [verdict, still]
  · obtain ⟨part, settles⟩ := settles_loop stops
    refine ⟨if a.closed then some a.finished.toList else none, us, part, fun r r' leads => ?_⟩
    obtain ⟨s, found, leads⟩ := settles r r' leads
    exact ⟨s, by simp [readArguments, found], leads⟩

/-- A call that reports nothing in a text of its own ends within that text. -/
theorem exists_settles_callBody {m : Macro} {name : Token} (lined : Lined ts) (nonempty : ts ≠ [])
    (own : o.Holds ts) (quiet : (o.callBody m name).2.diagnostics = []) :
    ∃ x us, Settles (callBody m name) ts x us := by
  obtain ⟨blanks, t, rest, rfl, blank, solid⟩ :=
    exists_split (p := fun t => t.kind = .whitespace) (by simp +contextual) lined nonempty
  have ahead : Settles peekNoWhitespace (blanks ++ t :: rest) (t, blanks.length)
      (blanks ++ t :: rest) :=
    ⟨List.suffix_refl _, fun r r' leads => peekNoWhitespace_of_leads blank solid leads⟩
  obtain ⟨o₁, seen, own₁⟩ := own.settle ahead
  by_cases opens : t.kind = .lparen
  · -- The argument list decides where the call ends.
    have skips : Moves (skip · (blanks.length + 1)) (blanks ++ t :: rest) rest := by
      refine ⟨(List.suffix_cons t rest).trans (List.suffix_append _ _), fun r r' leads => ?_⟩
      have beyond : r.Leads ((blanks ++ [t]) ++ rest) r' := by simpa using leads
      simpa using beyond.skip
    have own₂ := own₁.move skips
    have closed : ((o₁.skip (blanks.length + 1)).readArguments).1 ≠ none := by
      intro none
      rcases read : (o₁.skip (blanks.length + 1)).readArguments with ⟨args, s⟩
      rw [read] at none
      simp only at none
      simp [callBody, seen, opens, read, none, report] at quiet
    obtain ⟨args, us, settles⟩ := exists_settles_readArguments own₂ closed
    obtain ⟨o₃, read, -⟩ := own₂.settle settles
    rw [read] at closed
    obtain ⟨args, rfl⟩ := Option.ne_none_iff_exists'.1 closed
    by_cases count : args.length = m.params.length
    · refine ⟨.rescan m (m.substitute args), us, settles.1.trans skips.1, fun r r' leads => ?_⟩
      obtain ⟨s₁, seen, leads⟩ := ahead.2 r r' leads
      obtain ⟨s₂, read, leads⟩ := settles.2 _ r' (skips.2 s₁ r' leads)
      exact ⟨s₂, by simp [callBody, seen, opens, read, count], leads⟩
    · simp [callBody, seen, opens, read, count, report] at quiet
  · by_cases free : m.params.isEmpty
    · refine ⟨.rescan m m.body, _, List.suffix_refl _, fun r r' leads => ?_⟩
      obtain ⟨s, seen, leads⟩ := ahead.2 r r' leads
      exact ⟨s, by simp [callBody, seen, opens, free], leads⟩
    · simp [callBody, seen, opens, free, report] at quiet

/-- What becomes of a token is decided within whole lines. -/
theorem exists_settles_call {table : Macro.Table} (lined : Lined (t :: ts))
    (own : o.Holds (t :: ts)) (quiet : (o.call table []).2.diagnostics = []) :
    ∃ x us, Settles (call table []) (t :: ts) x us ∧ (x = .keep ∨ us <:+ ts) := by
  cases found : if t.kind = .symbol then table.find? t.lexeme else none with
  | none =>
    refine ⟨.keep, t :: ts, ⟨List.suffix_refl _, fun r r' leads => ?_⟩, .inl rfl⟩
    refine ⟨r.peek.2, ?_, leads.peek⟩
    simp only [call, peek_of_leads leads, found]
  | some m =>
    have symbol : t.kind ≠ .newline := by
      intro line
      simp [line] at found
    have called : ∀ r : Reader, r.peek.1 = t → r.call table [] = r.read.2.callBody m t := by
      intro r front
      simp [call, front, found]
    rw [called o own.front.1] at quiet
    obtain ⟨x, us, settles⟩ := exists_settles_callBody (lined.of_suffix (List.suffix_cons t ts))
      (lined.ne_nil symbol) own.read quiet
    exact ⟨x, us, (moves_read.settles settles).congr fun r r' leads =>
      called r (peek_of_leads leads), .inr settles.1⟩

/-! ## Conditions -/

/-- The answer to a condition and its diagnostics depend on the tokens of its line only. -/
theorem condition_of_readLine {table : Macro.Table} {directive : Token} {line : List Token}
    {s : Reader} (inside : ∀ u ∈ line, u.kind ≠ .newline ∧ u.kind ≠ .eof)
    (read : r.readLine = (line, s)) :
    r.condition table directive = (((ofTokens line).condition table directive).1,
      { s with diagnostics := s.diagnostics ++
          ((ofTokens line).condition table directive).2.diagnostics }) := by
  obtain ⟨s₀, read₀, none⟩ := readLine_ofTokens inside
  have later := Macro.expand_append table true [] line s.diagnostics []
  rw [List.append_nil] at later
  unfold condition
  simp only [read, read₀, none, later]
  split <;> simp [report]

/-- A condition that reports nothing is read up to the end of its line. -/
theorem exists_settles_condition {table : Macro.Table} {directive : Token} (lined : Lined ts)
    (nonempty : ts ≠ []) (own : o.Holds ts)
    (quiet : (o.condition table directive).2.diagnostics = []) :
    ∃ x us, Settles (condition table directive) ts x us := by
  obtain ⟨line, t, rest, rfl, inside, ends⟩ := exists_line lined nonempty
  have read : Settles readLine (line ++ t :: rest) line rest :=
    ⟨(List.suffix_cons t rest).trans (List.suffix_append _ _),
      fun r r' leads => readLine_of_leads inside ends leads⟩
  have whole : ∀ u ∈ line, u.kind ≠ .newline ∧ u.kind ≠ .eof := by
    obtain ⟨o', leads, -⟩ := own
    exact fun u hu => ⟨inside u hu, leads.going u (List.mem_append_left _ hu)⟩
  obtain ⟨s, found, -⟩ := own.settle read
  rw [condition_of_readLine whole found, List.append_eq_nil_iff] at quiet
  refine ⟨((ofTokens line).condition table directive).1, rest, read.1, fun r r' leads => ?_⟩
  obtain ⟨s, found, leads⟩ := read.2 r r' leads
  exact ⟨s, by simp [condition_of_readLine whole found, quiet.2], leads⟩

/-! ## Branches -/

/-- After a directive there is more of its line. -/
theorem after_directive_of_lined {word : String} (lined : Lined (t :: ts))
    (directive : t.isDirective word) : Lined ts ∧ ts ≠ [] := by
  refine ⟨lined.of_suffix (List.suffix_cons t ts), lined.ne_nil fun line => ?_⟩
  simp [Token.isDirective, line] at directive

/-- A branch that is skipped either ends within the text or reaches its end. -/
theorem exists_moves_skipBranch (own : o.Holds ts) :
    (∃ us, Moves skipBranch ts us) ∨ o.skipBranch.Holds [] := by
  rcases stops : track skipBranch.judge 0 ts with ⟨depth, _ | us⟩
  · obtain ⟨o', leads, atEnd⟩ := own
    right
    rw [holds_nil, skipBranch, loop_of_pass stops leads, loop]
    simp [skipBranch.judge, atEnd]
  · exact .inl ⟨us, moves_of_settles (settles_loop stops)⟩

/-- Nothing but layout up to the line end is read over. -/
theorem exists_moves_endOfDirective (lined : Lined ts) (nonempty : ts ≠ []) (own : o.Holds ts)
    (quiet : o.endOfDirective.diagnostics = []) : ∃ us, Moves endOfDirective ts us := by
  have stops : ∃ b us, track endOfDirective.judge none ts = (b, some us) := by
    refine exists_stop (P := fun _ => True) trivial lined nonempty ?_
    intro t _ b c _ goes
    unfold endOfDirective.judge at goes
    split at goes
    · rename_i layout
      refine ⟨fun line => ?_, trivial⟩
      simp [Token.isLayout, line] at layout
    · split at goes <;> cases goes
  obtain ⟨misfit, us, stops⟩ := stops
  obtain ⟨s, found, -⟩ := own.settle (settles_loop stops)
  cases misfit with
  | none =>
    refine ⟨us, suffix_of_stop stops, fun r r' leads => ?_⟩
    obtain ⟨s, found, leads⟩ := loop_of_stop stops leads
    simpa [endOfDirective, found] using leads
  | some t =>
    simp only [endOfDirective, found] at quiet
    have := quiet_before skipLine_earlier quiet
    simp [report] at this

/-- A search for a branch keeps the diagnostics. -/
theorem quiet_before_findBranch {table : Macro.Table} {opened : Token}
    (quiet : (r.skipBranch.findBranch table opened).2.diagnostics = []) : r.diagnostics = [] :=
  quiet_before (f := fun r => (r.skipBranch.findBranch table opened).2)
    (fun ds r => by rw [skipBranch_earlier, findBranch_earlier]) quiet

/-- At the end of a text no branch is found, and that is reported. -/
theorem loud_findBranch {table : Macro.Table} {opened : Token} (own : o.Holds []) :
    (o.findBranch table opened).2.diagnostics ≠ [] := by
  have atEnd := holds_nil.1 own
  rw [findBranch]
  simp [Token.isDirective, atEnd, report]

theorem loud_leaveBranch {opened : Token} (own : o.Holds []) :
    (o.leaveBranch opened).diagnostics ≠ [] := by
  have atEnd := holds_nil.1 own
  rw [leaveBranch]
  simp [Token.isDirective, atEnd, report]

/-- Whether a branch is taken depends on its condition; if it is not, one behind it is looked
for. -/
def takeBranch (table : Macro.Table) (place opened : Token) (r : Reader) : Bool × Reader :=
  if (r.condition table place).1 then (true, (r.condition table place).2)
  else (r.condition table place).2.skipBranch.findBranch table opened

theorem enterBranch_eq (table : Macro.Table) (opened : Token) :
    enterBranch table opened = takeBranch table opened opened := by
  funext r
  unfold enterBranch takeBranch
  split <;> rename_i evaluated <;> simp [evaluated]

/-- The branch is taken or another one is found within the text, if the search that follows ends
there. -/
theorem exists_settles_takeBranch {table : Macro.Table} {place opened : Token} (lined : Lined ts)
    (nonempty : ts ≠ []) (own : o.Holds ts)
    (quiet : (o.takeBranch table place opened).2.diagnostics = [])
    (search : ∀ (s : Reader) us, us <:+ ts → s.Holds us →
      (s.findBranch table opened).2.diagnostics = [] →
      ∃ x vs, Settles (findBranch table opened) us x vs) :
    ∃ x us, Settles (takeBranch table place opened) ts x us := by
  have calm : (o.condition table place).2.diagnostics = [] := by
    unfold takeBranch at quiet
    split at quiet
    · exact quiet
    · exact quiet_before_findBranch quiet
  obtain ⟨x, us, settles⟩ := exists_settles_condition lined nonempty own calm
  obtain ⟨o₁, evaluated, own₁⟩ := own.settle settles
  cases x with
  | true =>
    refine ⟨true, us, settles.1, fun r r' leads => ?_⟩
    obtain ⟨s, evaluated, after⟩ := settles.2 r r' leads
    exact ⟨s, by simp [takeBranch, evaluated], after⟩
  | false =>
    simp only [takeBranch, evaluated, Bool.false_eq_true, if_false] at quiet
    rcases exists_moves_skipBranch own₁ with ⟨vs, moves⟩ | atEnd
    · obtain ⟨x, ws, rest⟩ :=
        search o₁.skipBranch vs (moves.1.trans settles.1) (own₁.move moves) quiet
      refine ⟨x, ws, rest.1.trans (moves.1.trans settles.1), fun r r' leads => ?_⟩
      obtain ⟨s, evaluated, after⟩ := settles.2 r r' leads
      obtain ⟨s', ended, after⟩ := rest.2 _ r' (moves.2 s r' after)
      exact ⟨s', by simp [takeBranch, evaluated, ended], after⟩
    · exact absurd quiet (loud_findBranch atEnd)

/-- A search for a branch that reports nothing in a text of its own ends within that text. -/
theorem exists_settles_findBranch {table : Macro.Table} {opened : Token} (lined : Lined ts)
    (own : o.Holds ts) (quiet : (o.findBranch table opened).2.diagnostics = []) :
    ∃ x us, Settles (findBranch table opened) ts x us := by
  -- A branch that is skipped leads to the search from a shorter rest of the text.
  induction hn : ts.length using Nat.strongRecOn generalizing o ts with
  | _ n ih =>
  cases ts with
  | nil => exact absurd quiet (loud_findBranch own)
  | cons t ts =>
    have seen := own.front.1
    by_cases isElif : t.isDirective "#elif"
    · obtain ⟨lined', nonempty⟩ := after_directive_of_lined lined isElif
      have found : ∀ r : Reader, r.peek.1 = t →
          r.findBranch table opened = r.read.2.takeBranch table t opened := by
        intro r front
        rw [findBranch_elif (by rw [front]; exact isElif), front, takeBranch]
      rw [found o seen] at quiet
      have search : ∀ (s : Reader) us, us <:+ ts → s.Holds us →
          (s.findBranch table opened).2.diagnostics = [] →
          ∃ x vs, Settles (findBranch table opened) us x vs := by
        intro s us part holds quiet
        have shorter : us.length < n := by
          have := part.length_le
          rw [List.length_cons] at hn
          omega
        exact ih us.length shorter (lined'.of_suffix part) holds quiet rfl
      obtain ⟨x, us, settles⟩ := exists_settles_takeBranch lined' nonempty own.read quiet search
      exact ⟨x, us, (moves_read.settles settles).congr fun r r' leads =>
        found r (peek_of_leads leads)⟩
    · by_cases isElse : t.isDirective "#else"
      · obtain ⟨lined', nonempty⟩ := after_directive_of_lined lined isElse
        have found : ∀ r : Reader, r.peek.1 = t →
            r.findBranch table opened = (true, r.read.2.endOfDirective) := fun r front =>
          findBranch_else (by rw [front]; exact isElse)
        rw [found o seen] at quiet
        obtain ⟨us, moves⟩ := exists_moves_endOfDirective lined' nonempty own.read quiet
        exact ⟨true, us, ((moves_read.trans moves).give true).congr fun r r' leads =>
          found r (peek_of_leads leads)⟩
      · by_cases isEndif : t.isDirective "#endif"
        · obtain ⟨lined', nonempty⟩ := after_directive_of_lined lined isEndif
          have found : ∀ r : Reader, r.peek.1 = t →
              r.findBranch table opened = (false, r.read.2.endOfDirective) := fun r front =>
            findBranch_endif (by rw [front]; exact isEndif)
          rw [found o seen] at quiet
          obtain ⟨us, moves⟩ := exists_moves_endOfDirective lined' nonempty own.read quiet
          exact ⟨false, us, ((moves_read.trans moves).give false).congr fun r r' leads =>
            found r (peek_of_leads leads)⟩
        · rw [findBranch] at quiet
          simp [seen, isElif, isElse, isEndif, report] at quiet

/-- Entering a conditional that reports nothing in a text of its own ends within that text. -/
theorem exists_settles_enterBranch {table : Macro.Table} {opened : Token} (lined : Lined ts)
    (nonempty : ts ≠ []) (own : o.Holds ts)
    (quiet : (o.enterBranch table opened).2.diagnostics = []) :
    ∃ x us, Settles (enterBranch table opened) ts x us := by
  rw [enterBranch_eq] at quiet ⊢
  exact exists_settles_takeBranch lined nonempty own quiet fun s us part holds quiet =>
    exists_settles_findBranch (lined.of_suffix part) holds quiet

/-- Leaving a conditional that reports nothing in a text of its own ends within that text. -/
theorem exists_moves_leaveBranch {opened : Token} (lined : Lined ts) (own : o.Holds ts)
    (quiet : (o.leaveBranch opened).diagnostics = []) :
    ∃ us, Moves (leaveBranch opened) ts us ∧ us.length < ts.length := by
  induction hn : ts.length using Nat.strongRecOn generalizing o ts with
  | _ n ih =>
  cases ts with
  | nil => exact absurd quiet (loud_leaveBranch own)
  | cons t ts =>
    have seen := own.front.1
    have shorter : ∀ {us : List Token}, us <:+ ts → us.length < n := by
      intro us part
      have := part.length_le
      rw [List.length_cons] at hn
      omega
    -- After the rest of its line, a branch that comes later is skipped.
    have onward : ∀ f : Reader → Reader, ∀ us, Moves f ts us →
        (∀ r : Reader, r.peek.1 = t →
          r.leaveBranch opened = (f r.read.2).skipBranch.leaveBranch opened) →
        ∃ us, Moves (leaveBranch opened) (t :: ts) us ∧ us.length < n := by
      intro f us line goes
      rw [goes o seen] at quiet
      rcases exists_moves_skipBranch (own.read.move line) with ⟨vs, moves⟩ | atEnd
      · have part := moves.1.trans line.1
        obtain ⟨ws, rest, less⟩ := ih vs.length (shorter part)
          (lined.of_suffix (part.trans (List.suffix_cons t ts))) ((own.read.move line).move moves)
          quiet rfl
        exact ⟨ws, ((moves_read.trans (line.trans moves)).trans rest).congr fun r r' leads =>
          goes r (peek_of_leads leads), shorter (rest.1.trans part)⟩
      · exact absurd quiet (loud_leaveBranch atEnd)
    by_cases isElif : t.isDirective "#elif"
    · obtain ⟨lined', nonempty⟩ := after_directive_of_lined lined isElif
      obtain ⟨us, line⟩ := exists_moves_skipLine lined' nonempty
      exact onward skipLine us line fun r h => leaveBranch_elif (by rw [h]; exact isElif)
    · by_cases isElse : t.isDirective "#else"
      · obtain ⟨lined', nonempty⟩ := after_directive_of_lined lined isElse
        have goes : ∀ r : Reader, r.peek.1 = t → r.leaveBranch opened =
            r.read.2.endOfDirective.skipBranch.leaveBranch opened := fun r h =>
          leaveBranch_else (by rw [h]; exact isElse)
        have calm : o.read.2.endOfDirective.diagnostics = [] := by
          rw [goes o seen] at quiet
          exact quiet_before (f := fun r => r.skipBranch.leaveBranch opened)
            (fun ds r => by rw [skipBranch_earlier, leaveBranch_earlier]) quiet
        obtain ⟨us, line⟩ := exists_moves_endOfDirective lined' nonempty own.read calm
        exact onward endOfDirective us line goes
      · by_cases isEndif : t.isDirective "#endif"
        · obtain ⟨lined', nonempty⟩ := after_directive_of_lined lined isEndif
          have goes : ∀ r : Reader, r.peek.1 = t →
              r.leaveBranch opened = r.read.2.endOfDirective := fun r h =>
            leaveBranch_endif (by rw [h]; exact isEndif)
          rw [goes o seen] at quiet
          obtain ⟨us, moves⟩ := exists_moves_endOfDirective lined' nonempty own.read quiet
          exact ⟨us, (moves_read.trans moves).congr fun r r' leads =>
            goes r (peek_of_leads leads), shorter moves.1⟩
        · rw [leaveBranch] at quiet
          simp [seen, isElif, isElse, isEndif, report] at quiet

/-! ## Definitions -/

/-- A parameter list does not go on over a line end. -/
theorem Parameters.judge_newline {p : Parameters} (line : t.kind = .newline) :
    p.judge t = .last { p with misfit := some t } := by
  cases h : p.wantName <;> simp [judge, line, h]

/-- A parameter list that reports nothing is closed within its line. -/
theorem exists_settles_readParameters (lined : Lined ts) (nonempty : ts ≠ []) (own : o.Holds ts)
    (quiet : o.readParameters.2.diagnostics = []) :
    ∃ params us, Settles readParameters ts (some params) us ∧ us ≠ [] := by
  have stops : ∃ p us, track Parameters.judge {} ts = (p, some us) := by
    refine exists_stop (P := fun _ => True) trivial lined nonempty ?_
    intro t _ b c _ goes
    refine ⟨fun line => ?_, trivial⟩
    rw [Parameters.judge_newline line] at goes
    cases goes
  obtain ⟨p, us, stops⟩ := stops
  obtain ⟨s, found, -⟩ := own.settle (settles_loop stops)
  have fits : p.misfit = none := by
    cases misfit : p.misfit with
    | none => rfl
    | some t => simp [readParameters, found, misfit, report] at quiet
  refine ⟨p.names.toList, us, ⟨suffix_of_stop stops, fun r r' leads => ?_⟩, ?_⟩
  · obtain ⟨s, found, leads⟩ := loop_of_stop stops leads
    exact ⟨s, by simp [readParameters, found, fits], leads⟩
  · obtain ⟨q, before, t, after, rfl, ⟨-, rfl⟩ | ⟨last, rfl⟩⟩ := exists_of_stop stops
    · exact List.cons_ne_nil _ _
    · refine Lined.ne_nil (lined.of_suffix (List.suffix_append _ _)) fun line => ?_
      rw [Parameters.judge_newline line] at last
      cases last
      cases fits

/-- Without a backslash a macro body ends with its line. -/
theorem exists_settles_readBody (lined : Lined ts) (nonempty : ts ≠ [])
    (plain : ∀ t ∈ ts, t.kind ≠ .backslash) (own : o.Holds ts)
    (quiet : o.readBody.2.diagnostics = []) : ∃ body us, Settles readBody ts body us := by
  obtain ⟨u, us, moves⟩ := exists_moves_skipWhitespace lined nonempty
  have stops : ∃ b vs, track Body.judge {} (u :: us) = (b, some vs) := by
    refine exists_stop (P := fun b => b.continued = false) rfl (lined.of_suffix moves.1)
      (List.cons_ne_nil u us) ?_
    intro t ht b c going goes
    have solid := plain t (moves.1.subset ht)
    unfold Body.judge at goes
    split at goes <;> rename_i kind
    · cases goes
    · exact absurd kind solid
    · cases goes
      simp [kind, going]
    · simp [going] at goes
    · cases goes
      simp [kind, going]
    · cases goes
      exact ⟨fun line => by simp_all, rfl⟩
  obtain ⟨b, vs, stops⟩ := stops
  obtain ⟨s, found, -⟩ := (own.move moves).settle (settles_loop stops)
  have complete : b.cutShort = none := by
    cases cut : b.cutShort with
    | none => rfl
    | some t => simp [readBody, found, cut, report] at quiet
  refine ⟨Token.trimBlanks b.tokens.toList, vs, (suffix_of_stop stops).trans moves.1,
    fun r r' leads => ?_⟩
  obtain ⟨s, found, leads⟩ := loop_of_stop stops (moves.2 r r' leads)
  exact ⟨s, by simp [readBody, found, complete], leads⟩

/-- Without a backslash a definition that reports nothing ends with its line. -/
theorem exists_settles_readDefinition (lined : Lined ts) (nonempty : ts ≠ [])
    (plain : ∀ t ∈ ts, t.kind ≠ .backslash) (own : o.Holds ts)
    (quiet : o.readDefinition.2.diagnostics = []) : ∃ m us, Settles readDefinition ts m us := by
  obtain ⟨name, us, moves⟩ := exists_moves_skipWhitespace lined nonempty
  have symbol : name.kind = .symbol := by
    by_cases symbol : name.kind = .symbol
    · exact symbol
    · simp only [readDefinition, (own.move moves).front.1, ne_eq, symbol, not_false_eq_true,
        if_true] at quiet
      have := quiet_before skipToNewline_earlier quiet
      simp [report] at this
  have lined₁ := lined.of_suffix moves.1
  obtain ⟨next, vs, rfl⟩ := List.exists_cons_of_ne_nil (lined₁.ne_nil (by simp [symbol]))
  have lined₂ : Lined (next :: vs) := lined₁.of_suffix (List.suffix_cons _ _)
  have part : next :: vs <:+ ts := (List.suffix_cons _ _).trans moves.1
  -- The name and the token after it decide how the definition goes on.
  have start : Moves (fun r => r.skipWhitespace.read.2.peek.2) ts (next :: vs) :=
    moves.trans (moves_read.trans moves_peek)
  have names : ∀ r r' : Reader, r.Leads ts r' →
      r.skipWhitespace.peek.1 = name ∧ r.skipWhitespace.read.2.peek.1 = next := by
    intro r r' leads
    obtain ⟨first, -, after⟩ := leads_cons.1 (moves.2 r r' leads)
    exact ⟨first, (leads_cons.1 after).1⟩
  have seen : o.skipWhitespace.peek.1 = name ∧ o.skipWhitespace.read.2.peek.1 = next :=
    ⟨(own.move moves).front.1, (own.move moves).read.front.1⟩
  by_cases opens : next.kind = .lparen
  · have opening : Moves (fun r => r.skipWhitespace.read.2.read.2) ts vs :=
      moves.trans (moves_read.trans moves_read)
    have own₁ := own.move opening
    simp only [readDefinition, seen.1, read_peek, seen.2, ne_eq, symbol, opens, not_true_eq_false,
      if_false, if_true] at quiet
    have calm : (o.skipWhitespace.read.2.read.2.readParameters).2.diagnostics = [] := by
      split at quiet <;> rename_i read <;> rw [read]
      · exact quiet_before skipToNewline_earlier quiet
      · exact quiet_before (f := fun r => r.readBody.2) (fun ds r => by rw [readBody_earlier]) quiet
    obtain ⟨params, us, list, more⟩ :=
      exists_settles_readParameters (lined₂.of_suffix (List.suffix_cons _ _))
        (lined₂.ne_nil (by simp [opens])) own₁ calm
    obtain ⟨o₂, read, own₂⟩ := own₁.settle list
    rw [read] at quiet
    have tail : us <:+ ts := list.1.trans opening.1
    obtain ⟨body, ws, settles⟩ := exists_settles_readBody (lined.of_suffix tail) more
      (fun t ht => plain t (tail.subset ht)) own₂ quiet
    refine ⟨some { name := name.lexeme, params, body }, ws, settles.1.trans tail,
      fun r r' leads => ?_⟩
    obtain ⟨s₁, params, after⟩ := list.2 _ r' (opening.2 r r' leads)
    obtain ⟨s₂, read, after⟩ := settles.2 s₁ r' after
    have seen := names r r' leads
    exact ⟨s₂, by simp [readDefinition, seen.1, seen.2, symbol, opens, params, read], after⟩
  · simp only [readDefinition, seen.1, read_peek, seen.2, ne_eq, symbol, opens, not_true_eq_false,
      if_false] at quiet
    obtain ⟨body, ws, settles⟩ := exists_settles_readBody lined₂ (List.cons_ne_nil _ _)
      (fun t ht => plain t (part.subset ht)) (own.move start) quiet
    refine ⟨some { name := name.lexeme, body }, ws, settles.1.trans part, fun r r' leads => ?_⟩
    obtain ⟨s, read, after⟩ := settles.2 _ r' (start.2 r r' leads)
    have seen := names r r' leads
    exact ⟨s, by simp [readDefinition, seen.1, seen.2, symbol, opens, read], after⟩

end Reader

end RoomScript
