import RoomScript.Token.Reader

/-!
# Reading along known tokens

What a reader does depends on the tokens ahead of it and not on where they come from.  When it is
known which tokens come next, an operation that stops among them can be followed on the list.

* `Reader.earlier` puts diagnostics in front of those of a reader; nothing ever looks at the
  diagnostics found so far, so every operation commutes with it;
* `Reader.Advances` says that reading a list of tokens, with some diagnostics reported in between,
  leads from one reader to another, and `Reader.Leads` that reading alone does;
* `Reader.track` is a loop over a list of tokens, and `Reader.loop_of_stop` and
  `Reader.loop_of_pass` say that a reader with these tokens ahead does the same.
-/

namespace RoomScript

/-! ## Whole lines -/

/-- The tokens are whole lines: none at all, or a line end is the last of them. -/
def Lined (ts : List Token) : Prop :=
  ∀ t ∈ ts.getLast?, t.kind = .newline

instance : DecidablePred Lined := fun ts =>
  inferInstanceAs (Decidable (∀ t ∈ ts.getLast?, t.kind = .newline))

theorem Lined.of_suffix {ts us : List Token} (lined : Lined ts) (part : us <:+ ts) : Lined us := by
  obtain ⟨before, rfl⟩ := part
  intro t last
  exact lined t (by simp [List.getLast?_append, Option.mem_def.1 last])

/-- After a token that does not end the line there is more. -/
theorem Lined.ne_nil {t : Token} {ts : List Token} (lined : Lined (t :: ts))
    (inside : t.kind ≠ .newline) : ts ≠ [] := by
  rintro rfl
  exact inside (lined t (by simp))

namespace Reader

/-! ## Diagnostics found earlier -/

section Earlier

variable (ds : List Diagnostic)

/-- The reader after diagnostics found earlier. -/
def earlier (r : Reader) : Reader :=
  { r with diagnostics := ds ++ r.diagnostics }

@[simp] theorem diagnostics_earlier (r : Reader) :
    (r.earlier ds).diagnostics = ds ++ r.diagnostics := rfl

@[simp] theorem earlier_with_diagnostics (r : Reader) (es : List Diagnostic) :
    { r.earlier ds with diagnostics := ds ++ es } = earlier ds { r with diagnostics := es } := rfl

@[simp] theorem report_earlier (r : Reader) (d : Diagnostic) :
    (r.earlier ds).report d = (r.report d).earlier ds := by
  simp [report, earlier]

@[simp] theorem peek_earlier (r : Reader) :
    (r.earlier ds).peek = (r.peek.1, r.peek.2.earlier ds) := by
  obtain ⟨source, lookahead, es⟩ := r
  cases lookahead <;> simp [peek, earlier]

@[simp] theorem read_earlier (r : Reader) :
    (r.earlier ds).read = (r.read.1, r.read.2.earlier ds) := by
  obtain ⟨source, lookahead, es⟩ := r
  cases lookahead with
  | nil =>
    simp only [read, earlier, List.append_assoc]
    rfl
  | cons t rest =>
    simp only [read, earlier]
    split <;> rfl

@[simp] theorem loop_earlier {σ : Type} (judge : σ → Token → Verdict σ) (s : σ) (r : Reader) :
    loop judge s (r.earlier ds) = ((loop judge s r).1, (loop judge s r).2.earlier ds) := by
  fun_induction loop judge s r with
  | case1 s r seen s' stays => rw [loop, peek_earlier]; simp [seen, stays]
  | case2 s r seen s' last => rw [loop, peek_earlier]; simp [seen, last]
  | case3 s r seen s' more atEnd => rw [loop, peek_earlier]; simp [seen, more, atEnd]
  | case4 s r seen s' more going ih =>
    rw [loop, peek_earlier]
    simp only [seen, more, going, if_false, read_earlier]
    exact ih

@[simp] theorem skipWhitespace_earlier (r : Reader) :
    (r.earlier ds).skipWhitespace = r.skipWhitespace.earlier ds := by
  simp [skipWhitespace]

@[simp] theorem readNoWhitespace_earlier (r : Reader) :
    (r.earlier ds).readNoWhitespace = (r.readNoWhitespace.1, r.readNoWhitespace.2.earlier ds) := by
  simp [readNoWhitespace]

@[simp] theorem skipLine_earlier (r : Reader) :
    (r.earlier ds).skipLine = r.skipLine.earlier ds := by
  simp [skipLine]

@[simp] theorem skipToNewline_earlier (r : Reader) :
    (r.earlier ds).skipToNewline = r.skipToNewline.earlier ds := by
  simp [skipToNewline]

@[simp] theorem readLine_earlier (r : Reader) :
    (r.earlier ds).readLine = (r.readLine.1, r.readLine.2.earlier ds) := by
  simp [readLine]

theorem pull_earlier (r : Reader) : (r.earlier ds).pull = r.pull.earlier ds := by
  simp [pull, earlier]

theorem pullNoWhitespace_earlier (r : Reader) (distance : Nat) :
    (r.earlier ds).pullNoWhitespace distance =
      ((r.pullNoWhitespace distance).1, (r.pullNoWhitespace distance).2.earlier ds) := by
  fun_induction pullNoWhitespace r distance with
  | case1 r distance pulled blank ih =>
    have blank' : (r.earlier ds).source.next.1.kind = .whitespace := blank
    rw [pullNoWhitespace, if_pos blank', pull_earlier, ih]
  | case2 r distance pulled solid =>
    have solid' : ¬(r.earlier ds).source.next.1.kind = .whitespace := solid
    rw [pullNoWhitespace, if_neg solid', pull_earlier]
    rfl

@[simp] theorem peekNoWhitespace_earlier (r : Reader) :
    (r.earlier ds).peekNoWhitespace = (r.peekNoWhitespace.1, r.peekNoWhitespace.2.earlier ds) := by
  have same : (r.earlier ds).lookahead = r.lookahead := rfl
  unfold peekNoWhitespace
  simp only [same]
  split
  · rfl
  · exact pullNoWhitespace_earlier ds r _

@[simp] theorem skip_earlier (r : Reader) (count : Nat) :
    (r.earlier ds).skip count = (r.skip count).earlier ds := by
  induction count generalizing r with
  | zero => rfl
  | succ count ih => simp [skip, ih]

/-- An operation that does not look at the diagnostics keeps them. -/
theorem quiet_before {f : Reader → Reader}
    (blind : ∀ ds r, f (earlier ds r) = earlier ds (f r)) {r : Reader}
    (quiet : (f r).diagnostics = []) : r.diagnostics = [] := by
  have split : r = earlier r.diagnostics { r with diagnostics := [] } := by simp [earlier]
  rw [split, blind, diagnostics_earlier, List.append_eq_nil_iff] at quiet
  exact quiet.1

end Earlier

/-! ## Advancing -/

/-- Reading the tokens one after another, with the diagnostics reported in between, leads from one
reader to another. -/
inductive Advances : Reader → List Token → List Diagnostic → Reader → Prop
  | here {r : Reader} : Advances r [] [] r
  | read {r r' : Reader} {t : Token} {ts : List Token} {ds : List Diagnostic}
    (front : r.peek.1 = t) (going : t.kind ≠ .eof) (after : Advances r.read.2 ts ds r') :
    Advances r (t :: ts) ds r'
  | report {r r' : Reader} {d : Diagnostic} {ts : List Token} {ds : List Diagnostic}
    (after : Advances (r.report d) ts ds r') : Advances r ts (d :: ds) r'

/-- Reading the tokens one after another leads from one reader to another. -/
abbrev Leads (r : Reader) (ts : List Token) (r' : Reader) : Prop :=
  r.Advances ts [] r'

variable {r r' s : Reader} {t : Token} {ts us : List Token} {ds es : List Diagnostic}

theorem Advances.append (h : r.Advances ts ds s) (h' : s.Advances us es r') :
    r.Advances (ts ++ us) (ds ++ es) r' := by
  induction h with
  | here => exact h'
  | read front going _ ih => exact .read front going (ih h')
  | report _ ih => exact .report (ih h')

/-- Reporting alone. -/
theorem advances_reports (r : Reader) (ds : List Diagnostic) :
    r.Advances [] ds { r with diagnostics := r.diagnostics ++ ds } := by
  induction ds generalizing r with
  | nil => simpa using Advances.here
  | cons d ds ih => exact .report (by simpa [report] using ih (r.report d))

theorem leads_nil : r.Leads [] r' ↔ r = r' := by
  constructor
  · rintro ⟨⟩
    rfl
  · rintro rfl
    exact .here

theorem leads_cons :
    r.Leads (t :: ts) r' ↔ r.peek.1 = t ∧ t.kind ≠ .eof ∧ r.read.2.Leads ts r' := by
  constructor
  · intro h
    cases h with
    | read front going after => exact ⟨front, going, after⟩
  · rintro ⟨front, going, after⟩
    exact .read front going after

theorem leads_append : r.Leads (ts ++ us) r' ↔ ∃ s, r.Leads ts s ∧ s.Leads us r' := by
  constructor
  · intro h
    induction ts generalizing r with
    | nil => exact ⟨r, .here, h⟩
    | cons t ts ih =>
      obtain ⟨front, going, after⟩ := leads_cons.1 h
      obtain ⟨s, first, second⟩ := ih after
      exact ⟨s, .read front going first, second⟩
  · rintro ⟨s, first, second⟩
    exact first.append second

theorem Leads.going (h : r.Leads ts r') : ∀ t ∈ ts, t.kind ≠ .eof := by
  induction ts generalizing r with
  | nil => simp
  | cons t ts ih =>
    obtain ⟨-, going, after⟩ := leads_cons.1 h
    exact List.forall_mem_cons.2 ⟨going, ih after⟩

/-- A captured list is read token by token. -/
theorem leads_replay (going : ∀ t ∈ ts, t.kind ≠ .eof) (last : EndPlace) (ds : List Diagnostic) :
    Leads ⟨.replay (ts ++ us) last, [], ds⟩ ts ⟨.replay us last, [], ds⟩ := by
  induction ts with
  | nil => exact .here
  | cons t ts ih =>
    obtain ⟨first, others⟩ := List.forall_mem_cons.1 going
    refine .read rfl first ?_
    simpa [Reader.read, Source.next, first] using ih others

theorem leads_ofTokens (going : ∀ t ∈ ts, t.kind ≠ .eof) (ds : List Diagnostic) :
    (ofTokens ts ds).Leads ts ⟨.replay [] (.ofTokens ts), [], ds⟩ := by
  have whole : ofTokens ts ds = ⟨.replay (ts ++ []) (.ofTokens ts), [], ds⟩ := by
    simp [ofTokens, Source.ofTokens]
  rw [whole]
  exact leads_replay going _ ds

/-- Looking at a token that is to be read does no harm. -/
theorem Leads.peek (h : r.Leads (t :: ts) r') : r.peek.2.Leads (t :: ts) r' := by
  simpa [leads_cons] using h

theorem read_of_end (atEnd : r.peek.1.kind = .eof) : r.read.2 = r.peek.2 := by
  obtain ⟨source, lookahead, ds⟩ := r
  cases lookahead with
  | nil =>
    have atEnd : source.next.1.kind = .eof := atEnd
    simp [read, peek, atEnd]
  | cons t rest =>
    have atEnd : t.kind = .eof := atEnd
    simp [read, peek, atEnd]

/-- Reading appends the same fault to whatever was found before. -/
theorem read_with_diagnostics (r : Reader) :
    ∃ faults, r.read.2.diagnostics = r.diagnostics ++ faults ∧ ∀ es,
      read { r with diagnostics := es } =
        (r.read.1, { r.read.2 with diagnostics := es ++ faults }) := by
  obtain ⟨source, lookahead, ds⟩ := r
  cases lookahead with
  | nil => exact ⟨source.next.2.1.toList, rfl, fun es => rfl⟩
  | cons t rest =>
    refine ⟨[], ?_, fun es => ?_⟩ <;> by_cases h : t.kind = .eof <;> simp [read_cons, h]

theorem peek_with_diagnostics (r : Reader) (es : List Diagnostic) :
    (peek { r with diagnostics := es }).1 = r.peek.1 := by
  obtain ⟨source, lookahead, ds⟩ := r
  cases lookahead <;> rfl

/-- What was found before does not matter for the way. -/
theorem Leads.with_diagnostics (h : r.Leads ts r') (es : List Diagnostic) :
    ∃ s, Leads { r with diagnostics := es } ts s := by
  induction ts generalizing r es with
  | nil => exact ⟨_, .here⟩
  | cons t ts ih =>
    obtain ⟨front, going, after⟩ := leads_cons.1 h
    obtain ⟨faults, -, read⟩ := r.read_with_diagnostics
    obtain ⟨s, hs⟩ := ih after (es ++ faults)
    refine ⟨s, .read ?_ going ?_⟩
    · rw [peek_with_diagnostics, front]
    · rw [read]
      exact hs

/-- The reader that is reached without reports and the one that is reached with them differ in
their diagnostics only.  When reading finds no fault, just the reports are added. -/
theorem Advances.beside {s rest : Reader} (h : r.Advances ts ds r') (plain : s.Leads ts rest)
    (alike : r = { s with diagnostics := r.diagnostics }) :
    r' = { rest with diagnostics := r'.diagnostics } ∧ ∃ added faults,
      r'.diagnostics = r.diagnostics ++ added ∧ rest.diagnostics = s.diagnostics ++ faults ∧
        (faults = [] → added = ds) := by
  induction h generalizing s with
  | here =>
    obtain rfl := leads_nil.1 plain
    exact ⟨alike, [], [], by simp, by simp, fun _ => rfl⟩
  | @read r r' t ts ds front going after ih =>
    obtain ⟨-, -, plain⟩ := leads_cons.1 plain
    obtain ⟨faults, found, read⟩ := s.read_with_diagnostics
    have same : r.read.2 = { s.read.2 with diagnostics := r.diagnostics ++ faults } := by
      rw [alike, read]
    obtain ⟨rest, added, more, ds', ss, only⟩ := ih plain (by rw [same])
    refine ⟨rest, faults ++ added, faults ++ more, ?_, ?_, ?_⟩
    · rw [ds', same, List.append_assoc]
    · rw [ss, found, List.append_assoc]
    · intro none
      obtain ⟨rfl, none⟩ := List.append_eq_nil_iff.1 none
      simpa using only none
  | @report r r' d ts ds after ih =>
    obtain ⟨rest, added, faults, ds', ss, only⟩ := ih plain (by rw [Reader.report, alike])
    refine ⟨rest, d :: added, faults, ?_, ss, fun none => by rw [only none]⟩
    rw [ds', Reader.report]
    simp

/-! ## Loops over known tokens -/

section Loop

variable {σ : Type} {judge : σ → Token → Verdict σ} {a b : σ}

/-- A loop over a list of tokens: the state it comes to, and what it leaves of the list unless it
passes over all of it. -/
def track (judge : σ → Token → Verdict σ) : σ → List Token → σ × Option (List Token)
  | a, [] => (a, none)
  | a, t :: ts =>
    match judge a t with
    | .stay b => (b, some (t :: ts))
    | .last b => (b, some ts)
    | .more b => track judge b ts

/-- A loop that stops within the list does so for every reader that has the list ahead. -/
theorem loop_of_stop (stops : track judge a ts = (b, some us)) (h : r.Leads ts r') :
    ∃ s, loop judge a r = (b, s) ∧ s.Leads us r' := by
  induction ts generalizing a r with
  | nil => cases stops
  | cons t ts ih =>
    obtain ⟨front, going, after⟩ := leads_cons.1 h
    rw [loop, track] at *
    simp only [front, read_peek, going, if_false]
    cases verdict : judge a t with
    | stay c =>
      rw [verdict] at stops
      cases stops
      exact ⟨_, rfl, h.peek⟩
    | last c =>
      rw [verdict] at stops
      cases stops
      exact ⟨_, rfl, after⟩
    | more c =>
      rw [verdict] at stops
      exact ih stops after

/-- A loop that passes over the list goes on after it. -/
theorem loop_of_pass (passes : track judge a ts = (b, none)) (h : r.Leads ts r') :
    loop judge a r = loop judge b r' := by
  induction ts generalizing a r with
  | nil =>
    cases passes
    rw [leads_nil.1 h]
  | cons t ts ih =>
    obtain ⟨front, going, after⟩ := leads_cons.1 h
    rw [track] at passes
    rw [loop]
    simp only [front, read_peek, going, if_false]
    cases verdict : judge a t with
    | stay c => simp [verdict] at passes
    | last c => simp [verdict] at passes
    | more c =>
      rw [verdict] at passes
      exact ih passes after

theorem track_append_of_pass (passes : track judge a ts = (b, none)) :
    track judge a (ts ++ us) = track judge b us := by
  induction ts generalizing a with
  | nil =>
    cases passes
    rfl
  | cons t ts ih =>
    rw [List.cons_append, track]
    rw [track] at passes
    cases verdict : judge a t with
    | stay c => simp [verdict] at passes
    | last c => simp [verdict] at passes
    | more c =>
      rw [verdict] at passes
      exact ih passes

/-- A property of the state that the loop keeps up holds after the list. -/
theorem invariant_of_pass {P : σ → Prop}
    (keep : ∀ a t b, P a → judge a t = .more b → P b) (ha : P a)
    (passes : track judge a ts = (b, none)) : P b := by
  induction ts generalizing a with
  | nil =>
    cases passes
    exact ha
  | cons t ts ih =>
    rw [track] at passes
    cases verdict : judge a t with
    | stay c => simp [verdict] at passes
    | last c => simp [verdict] at passes
    | more c =>
      rw [verdict] at passes
      exact ih (keep a t c ha verdict) passes

/-- Where a loop stops: before or after some token of the list. -/
theorem exists_of_stop (stops : track judge a ts = (b, some us)) :
    ∃ c before t after, ts = before ++ t :: after ∧
      (judge c t = .stay b ∧ us = t :: after ∨ judge c t = .last b ∧ us = after) := by
  induction ts generalizing a with
  | nil => cases stops
  | cons t ts ih =>
    rw [track] at stops
    cases verdict : judge a t with
    | stay c =>
      rw [verdict] at stops
      cases stops
      exact ⟨a, [], t, ts, rfl, .inl ⟨verdict, rfl⟩⟩
    | last c =>
      rw [verdict] at stops
      cases stops
      exact ⟨a, [], t, us, rfl, .inr ⟨verdict, rfl⟩⟩
    | more c =>
      rw [verdict] at stops
      obtain ⟨d, before, u, after, rfl, how⟩ := ih stops
      exact ⟨d, t :: before, u, after, rfl, how⟩

theorem suffix_of_stop (stops : track judge a ts = (b, some us)) : us <:+ ts := by
  obtain ⟨c, before, t, after, rfl, ⟨-, rfl⟩ | ⟨-, rfl⟩⟩ := exists_of_stop stops
  · exact List.suffix_append _ _
  · exact (List.suffix_cons _ _).trans (List.suffix_append _ _)

end Loop

/-! ## Loops over whole lines -/

section Loop

variable {σ : Type} {judge : σ → Token → Verdict σ} {a : σ}

/-- A loop that does not go on after a line end stops within whole lines.  Only states with a
property that the loop keeps up have to be looked at. -/
theorem exists_stop {P : σ → Prop} (ha : P a) (lined : Lined ts) (nonempty : ts ≠ [])
    (step : ∀ t ∈ ts, ∀ b c, P b → judge b t = .more c → t.kind ≠ .newline ∧ P c) :
    ∃ b us, track judge a ts = (b, some us) := by
  induction ts generalizing a with
  | nil => exact absurd rfl nonempty
  | cons t ts ih =>
    rw [track]
    cases verdict : judge a t with
    | stay b => exact ⟨b, _, rfl⟩
    | last b => exact ⟨b, _, rfl⟩
    | more b =>
      obtain ⟨inside, hb⟩ := step t List.mem_cons_self a b ha verdict
      exact ih hb (lined.of_suffix (List.suffix_cons t ts)) (lined.ne_nil inside)
        fun u hu => step u (List.mem_cons_of_mem t hu)

end Loop

/-! ## Looking further ahead -/

/-- The tokens that have been pulled are the first ones to be read. -/
theorem Leads.lookahead (h : r.Leads ts r') :
    (∃ us, ts = r.lookahead ++ us) ∨ ∃ us, r.lookahead = ts ++ us := by
  induction ts generalizing r with
  | nil => exact .inr ⟨r.lookahead, rfl⟩
  | cons t ts ih =>
    obtain ⟨front, going, after⟩ := leads_cons.1 h
    obtain ⟨source, lookahead, ds⟩ := r
    cases lookahead with
    | nil => exact .inl ⟨_, rfl⟩
    | cons u lookahead =>
      obtain rfl : u = t := front
      rw [read_cons, if_neg going] at after
      rcases ih after with ⟨us, rfl⟩ | ⟨us, same⟩
      · exact .inl ⟨us, rfl⟩
      · exact .inr ⟨us, congrArg (u :: ·) same⟩

/-- Pulling the next token of those to be read does no harm. -/
theorem Leads.pull (h : r.Leads (r.lookahead ++ t :: ts) r') :
    r.source.next.1 = t ∧ r.pull.Leads (r.lookahead ++ t :: ts) r' := by
  obtain ⟨source, lookahead, ds⟩ := r
  simp only at h ⊢
  induction lookahead with
  | nil =>
    obtain ⟨front, going, after⟩ := leads_cons.1 h
    refine ⟨front, .read front going ?_⟩
    have front : source.next.1 = t := front
    simpa [Reader.pull, Reader.read, front, going] using after
  | cons u lookahead ih =>
    obtain ⟨front, going, after⟩ := leads_cons.1 h
    rw [read_cons, if_neg going] at after
    obtain ⟨pulled, after⟩ := ih after
    refine ⟨pulled, .read rfl going ?_⟩
    simpa [Reader.pull, Reader.read, going] using after

/-- Pulling stops at the first token that is not blank. -/
theorem pullNoWhitespace_of_leads {blanks : List Token} (blank : ∀ b ∈ blanks, b.kind = .whitespace)
    (solid : t.kind ≠ .whitespace) (h : r.Leads (r.lookahead ++ (blanks ++ t :: ts)) r')
    (distance : Nat) :
    ∃ s, r.pullNoWhitespace distance = ((t, distance + blanks.length), s) ∧
      s.Leads (r.lookahead ++ (blanks ++ t :: ts)) r' := by
  induction blanks generalizing r distance with
  | nil =>
    obtain ⟨pulled, after⟩ := Leads.pull h
    rw [pullNoWhitespace]
    simp only [pulled, solid, if_false]
    exact ⟨_, rfl, after⟩
  | cons b blanks ih =>
    obtain ⟨pulled, after⟩ := Leads.pull h
    have isBlank : b.kind = .whitespace := blank b List.mem_cons_self
    have longer : r.pull.lookahead = r.lookahead ++ [b] := by simp [Reader.pull, ← pulled]
    rw [pullNoWhitespace]
    simp only [pulled, isBlank, if_true]
    obtain ⟨s, found, leads⟩ := ih (r := r.pull) (fun u hu => blank u (List.mem_cons_of_mem b hu))
      (by simpa [longer] using after) (distance + 1)
    refine ⟨s, ?_, by simpa [longer] using leads⟩
    rw [found, List.length_cons]
    congr 2
    omega

/-- A token that is not blank is found among those that have been pulled. -/
theorem peekNoWhitespace_of_lookahead {blanks : List Token}
    (blank : ∀ b ∈ blanks, b.kind = .whitespace) (solid : t.kind ≠ .whitespace)
    (pulled : r.lookahead = blanks ++ t :: us) :
    r.peekNoWhitespace = ((t, blanks.length), r) := by
  have count : r.lookahead.takeWhile (·.kind == .whitespace) = blanks := by
    rw [pulled, List.takeWhile_append_of_pos (by simpa using blank),
      List.takeWhile_cons_of_neg (by simpa using solid), List.append_nil]
  unfold peekNoWhitespace
  simp only [count]
  simp only [pulled, List.getElem?_append_right (Nat.le_refl _), Nat.sub_self,
    List.getElem?_cons_zero]

/-- When only blanks have been pulled, more is pulled. -/
theorem peekNoWhitespace_of_blank (blank : ∀ b ∈ r.lookahead, b.kind = .whitespace) :
    r.peekNoWhitespace = r.pullNoWhitespace r.lookahead.length := by
  have count : r.lookahead.takeWhile (·.kind == .whitespace) = r.lookahead := by
    rw [← List.append_nil r.lookahead, List.takeWhile_append_of_pos (by simpa using blank),
      List.takeWhile_nil]
  unfold peekNoWhitespace
  simp only [count, List.getElem?_eq_none (Nat.le_refl _)]

/-- Looking for a token that is not blank finds the first of them, and consumes nothing. -/
theorem peekNoWhitespace_of_leads {blanks : List Token}
    (blank : ∀ b ∈ blanks, b.kind = .whitespace) (solid : t.kind ≠ .whitespace)
    (h : r.Leads (blanks ++ t :: ts) r') :
    ∃ s, r.peekNoWhitespace = ((t, blanks.length), s) ∧ s.Leads (blanks ++ t :: ts) r' := by
  have pulled : (∃ us, r.lookahead = blanks ++ t :: us) ∨ ∃ us, blanks = r.lookahead ++ us := by
    rcases h.lookahead with ⟨us, same⟩ | ⟨us, same⟩
    · rcases List.append_eq_append_iff.1 same with ⟨more, same, front⟩ | ⟨more, same, -⟩
      · cases more with
        | nil => exact .inr ⟨[], by simp [same]⟩
        | cons u more =>
          obtain ⟨rfl, -⟩ := List.cons.inj front
          exact .inl ⟨more, same⟩
      · exact .inr ⟨more, same⟩
    · exact .inl ⟨ts ++ us, by simp [same]⟩
  rcases pulled with ⟨us, same⟩ | ⟨us, rfl⟩
  · exact ⟨r, peekNoWhitespace_of_lookahead blank solid same, h⟩
  · rw [peekNoWhitespace_of_blank fun b hb => blank b (List.mem_append_left _ hb),
      List.length_append]
    rw [List.append_assoc] at h ⊢
    exact pullNoWhitespace_of_leads (fun b hb => blank b (List.mem_append_right _ hb)) solid h _

theorem Leads.skip (h : r.Leads (ts ++ us) r') : (r.skip ts.length).Leads us r' := by
  induction ts generalizing r with
  | nil => exact h
  | cons t ts ih => exact ih (leads_cons.1 h).2.2

end Reader

end RoomScript
