import RoomScript.Token.Scanner

/-!
# Reading tokens with lookahead

A reader pulls tokens from a source only when they are looked at, and keeps those that have been
looked at but not read.  The source is a scanner or a token list that has been captured before.
Faults found while pulling are appended to the diagnostics that travel with the reader.

* `Reader.peekAt` and `Reader.read` look ahead and consume; reading at the end stays there;
* `Reader.loop` consumes tokens under the direction of a state machine, and every longer reading
  operation is an instance of it;
* `Reader.size` bounds what is still to be read, and no operation increases it.
-/

namespace RoomScript

/-! ## Sources -/

/-- The place where a captured token list ends. -/
structure EndPlace where
  path : String := ""
  line : Nat := 0
  column : Nat := 0
  deriving DecidableEq, Repr

/-- The token that stands for the end at a place. -/
def EndPlace.token (p : EndPlace) : Token :=
  ⟨.eof, "", p.path, p.line, p.column⟩

/-- A captured list ends right after its last token. -/
def EndPlace.ofTokens (tokens : List Token) : EndPlace :=
  match tokens.getLast? with
  | some last => ⟨last.path, last.line, last.column + last.lexeme.length⟩
  | none => {}

/-- Where tokens are pulled from. -/
inductive Source where
  /-- The rest of a file. -/
  | scanner (s : Scanner)
  /-- A captured list and its end. -/
  | replay (tokens : List Token) (last : EndPlace)
  deriving Repr

namespace Source

/-- A source that replays a token list. -/
def ofTokens (tokens : List Token) : Source :=
  .replay tokens (.ofTokens tokens)

/-- Pull one token, with the fault found in it. -/
def next : Source → Token × Option Diagnostic × Source
  | scanner s =>
    match s.next with
    | (token, fault, after) => (token, fault, .scanner after)
  | replay (t :: rest) last => (t, none, .replay rest last)
  | replay [] last => (last.token, none, .replay [] last)

/-- A bound on the number of tokens before the end. -/
def size : Source → Nat
  | scanner s => s.rest.length
  | replay tokens _ => tokens.length

theorem size_next_le (s : Source) : s.next.2.2.size ≤ s.size := by
  match s with
  | scanner s => exact s.length_next_le
  | replay (_ :: _) _ => simp [next, size]
  | replay [] _ => simp [next, size]

theorem size_next_lt (s : Source) (h : s.next.1.kind ≠ .eof) : s.next.2.2.size < s.size := by
  match s with
  | scanner s => exact s.length_next_lt h
  | replay (_ :: _) _ => simp [next, size]
  | replay [] _ => exact absurd rfl h

end Source

/-! ## The reader -/

/-- A source, the tokens that have been pulled from it but not read, and all diagnostics so far. -/
structure Reader where
  source : Source
  lookahead : List Token := []
  diagnostics : List Diagnostic := []
  deriving Repr

namespace Reader

/-- A reader at the start of a file. -/
def ofText (path text : String) (diagnostics : List Diagnostic := []) : Reader :=
  { source := .scanner (.ofText path text), diagnostics }

/-- A reader at the start of a captured token list. -/
def ofTokens (tokens : List Token) (diagnostics : List Diagnostic := []) : Reader :=
  { source := .ofTokens tokens, diagnostics }

/-- Append a diagnostic. -/
def report (r : Reader) (d : Diagnostic) : Reader :=
  { r with diagnostics := r.diagnostics ++ [d] }

/-- Pull one token into the lookahead. -/
def pull (r : Reader) : Reader :=
  match r.source.next with
  | (token, fault, source) =>
    { source, lookahead := r.lookahead ++ [token], diagnostics := r.diagnostics ++ fault.toList }

/-- Pull until the lookahead has `count` more tokens. -/
def pullMore (r : Reader) : Nat → Reader
  | 0 => r
  | count + 1 => r.pull.pullMore count

/-- The token `n` places ahead. -/
def peekAt (r : Reader) (n : Nat) : Token × Reader :=
  let filled := r.pullMore (n + 1 - r.lookahead.length)
  (filled.lookahead[n]?.getD default, filled)

/-- The next token. -/
def peek (r : Reader) : Token × Reader :=
  match r.lookahead with
  | t :: _ => (t, r)
  | [] =>
    match r.source.next with
    | (token, fault, source) =>
      (token, { source, lookahead := [token], diagnostics := r.diagnostics ++ fault.toList })

/-- Consume the next token.  The end of the input is never consumed. -/
def read (r : Reader) : Token × Reader :=
  match r.lookahead with
  | t :: rest => (t, if t.kind = .eof then r else { r with lookahead := rest })
  | [] =>
    match r.source.next with
    | (token, fault, source) =>
      (token, { source, lookahead := if token.kind = .eof then [token] else [],
                diagnostics := r.diagnostics ++ fault.toList })

/-! ## What is left to read -/

/-- A bound on the number of tokens still to be read before the end. -/
def size (r : Reader) : Nat :=
  r.lookahead.countP (·.kind ≠ .eof) + r.source.size

@[simp] theorem size_report (r : Reader) (d : Diagnostic) : (r.report d).size = r.size := rfl

@[simp] theorem size_with_diagnostics (r : Reader) (ds : List Diagnostic) :
    size { r with diagnostics := ds } = r.size := rfl

theorem peek_cons (source : Source) (t : Token) (rest : List Token) (ds : List Diagnostic) :
    peek ⟨source, t :: rest, ds⟩ = (t, ⟨source, t :: rest, ds⟩) := rfl

theorem peek_nil {source after : Source} {t : Token} {fault : Option Diagnostic}
    (h : source.next = (t, fault, after)) (ds : List Diagnostic) :
    peek ⟨source, [], ds⟩ = (t, ⟨after, [t], ds ++ fault.toList⟩) := by
  simp [peek, h]

theorem read_cons (source : Source) (t : Token) (rest : List Token) (ds : List Diagnostic) :
    read ⟨source, t :: rest, ds⟩ =
      (t, if t.kind = .eof then ⟨source, t :: rest, ds⟩ else ⟨source, rest, ds⟩) := rfl

theorem read_nil {source after : Source} {t : Token} {fault : Option Diagnostic}
    (h : source.next = (t, fault, after)) (ds : List Diagnostic) :
    read ⟨source, [], ds⟩ =
      (t, ⟨after, if t.kind = .eof then [t] else [], ds ++ fault.toList⟩) := by
  simp [read, h]

/-- Looking ahead adds nothing to what is left to read. -/
theorem peek_size_le (r : Reader) : r.peek.2.size ≤ r.size := by
  obtain ⟨source, lookahead, ds⟩ := r
  cases lookahead with
  | cons t rest => simp [peek_cons]
  | nil =>
    rcases h : source.next with ⟨t, fault, after⟩
    have hle := source.size_next_le
    have hlt := source.size_next_lt
    rw [h] at hle hlt
    by_cases he : t.kind = .eof
    · simp [peek_nil h, size, he]
      exact hle
    · have smaller : after.size < source.size := hlt he
      simp [peek_nil h, size, he]
      omega

/-- Looking ahead twice is looking ahead once. -/
@[simp] theorem peek_peek (r : Reader) : r.peek.2.peek = r.peek := by
  obtain ⟨source, lookahead, ds⟩ := r
  cases lookahead with
  | cons t rest => rfl
  | nil =>
    rcases h : source.next with ⟨t, fault, after⟩
    simp [peek_nil h, peek_cons]

/-- What is read is what is seen. -/
@[simp] theorem read_fst (r : Reader) : r.read.1 = r.peek.1 := by
  obtain ⟨source, lookahead, ds⟩ := r
  cases lookahead <;> rfl

/-- Looking ahead does not change what is read. -/
@[simp] theorem read_peek (r : Reader) : r.peek.2.read = r.read := by
  obtain ⟨source, lookahead, ds⟩ := r
  cases lookahead with
  | cons t rest => rfl
  | nil =>
    rcases h : source.next with ⟨t, fault, after⟩
    by_cases he : t.kind = .eof <;> simp [peek_nil h, read_nil h, read_cons, he]

theorem read_size_le (r : Reader) : r.read.2.size ≤ r.size := by
  obtain ⟨source, lookahead, ds⟩ := r
  cases lookahead with
  | cons t rest => by_cases he : t.kind = .eof <;> simp [read_cons, size, he]
  | nil =>
    rcases h : source.next with ⟨t, fault, after⟩
    have hle := source.size_next_le
    rw [h] at hle
    by_cases he : t.kind = .eof <;> simp [read_nil h, size, he] <;> exact hle

/-- Reading a token other than the end leaves less to read. -/
theorem read_size_lt (r : Reader) (hne : r.peek.1.kind ≠ .eof) : r.read.2.size < r.size := by
  obtain ⟨source, lookahead, ds⟩ := r
  cases lookahead with
  | cons t rest =>
    rw [peek_cons] at hne
    simp [read_cons, size, hne]
  | nil =>
    rcases h : source.next with ⟨t, fault, after⟩
    have hlt := source.size_next_lt
    rw [h] at hlt
    rw [peek_nil h] at hne
    simpa [read_nil h, size, hne] using hlt hne

/-! ## Loops -/

/-- What a state machine decides about the token in front of it. -/
inductive Verdict (σ : Type) where
  /-- Stop before the token. -/
  | stay (s : σ)
  /-- Stop after the token. -/
  | last (s : σ)
  /-- Go on after the token. -/
  | more (s : σ)

/-- Run a state machine over the tokens, and stop at the end of the input at the latest. -/
def loop {σ : Type} (judge : σ → Token → Verdict σ) (s : σ) (r : Reader) : σ × Reader :=
  let seen := r.peek
  match judge s seen.1 with
  | .stay s' => (s', seen.2)
  | .last s' => (s', seen.2.read.2)
  | .more s' =>
    if seen.1.kind = .eof then (s', seen.2) else loop judge s' seen.2.read.2
termination_by r.size
decreasing_by
  have smaller := r.read_size_lt (by assumption)
  rwa [← r.read_peek] at smaller

/-- No loop adds to what is left to read. -/
theorem loop_size_le {σ : Type} (judge : σ → Token → Verdict σ) (s : σ) (r : Reader) :
    (loop judge s r).2.size ≤ r.size := by
  fun_induction loop judge s r with
  | case1 s r seen _ _ => exact r.peek_size_le
  | case2 s r seen _ _ => simpa [seen] using r.read_size_le
  | case3 s r seen _ _ _ => exact r.peek_size_le
  | case4 s r seen _ _ _ ih =>
    have := r.read_size_le
    rw [← r.read_peek] at this
    exact Nat.le_trans ih this

/-- Consume blanks. -/
def skipWhitespace (r : Reader) : Reader :=
  (r.loop (fun _ t => if t.kind = .whitespace then .more () else .stay ()) ()).2

/-- Consume blanks and the token after them. -/
def readNoWhitespace (r : Reader) : Token × Reader :=
  r.skipWhitespace.read

/-- Consume everything up to and including the next line end. -/
def skipLine (r : Reader) : Reader :=
  (r.loop (fun _ t => if t.kind = .newline ∨ t.kind = .eof then .last () else .more ()) ()).2

/-- Consume everything before the next line end. -/
def skipToNewline (r : Reader) : Reader :=
  (r.loop (fun _ t => if t.kind = .newline ∨ t.kind = .eof then .stay () else .more ()) ()).2

/-- Consume a line, and return its tokens without the line end. -/
def readLine (r : Reader) : List Token × Reader :=
  let (read, r) := r.loop (σ := List Token) (fun read t =>
    if t.kind = .newline ∨ t.kind = .eof then .last read else .more (t :: read)) []
  (read.reverse, r)

/-- Pull until a token that is not blank, `distance` blanks having been passed already. -/
def pullNoWhitespace (r : Reader) (distance : Nat) : (Token × Nat) × Reader :=
  let pulled := r.source.next
  if pulled.1.kind = .whitespace then r.pull.pullNoWhitespace (distance + 1)
  else ((pulled.1, distance), r.pull)
termination_by r.source.size
decreasing_by
  rename_i blank
  have : r.source.next.1.kind ≠ .eof := by simp [pulled] at blank; simp [blank]
  exact r.source.size_next_lt this

/-- The first token ahead that is not blank and its distance, consuming nothing. -/
def peekNoWhitespace (r : Reader) : (Token × Nat) × Reader :=
  let blanks := (r.lookahead.takeWhile (·.kind == .whitespace)).length
  match r.lookahead[blanks]? with
  | some t => ((t, blanks), r)
  | none => r.pullNoWhitespace blanks

/-- Consume `count` tokens. -/
def skip (r : Reader) : Nat → Reader
  | 0 => r
  | count + 1 => r.read.2.skip count

/-! ## No operation adds to what is left to read -/

theorem pull_size_le (r : Reader) : r.pull.size ≤ r.size := by
  have hle := r.source.size_next_le
  have hlt := r.source.size_next_lt
  unfold pull
  rcases h : r.source.next with ⟨t, fault, after⟩
  rw [h] at hle hlt
  by_cases he : t.kind = .eof
  · simp [size, he]
    exact hle
  · have smaller : after.size < r.source.size := hlt he
    simp [size, he]
    omega

theorem pullNoWhitespace_size_le (r : Reader) (distance : Nat) :
    (r.pullNoWhitespace distance).2.size ≤ r.size := by
  fun_induction pullNoWhitespace r distance with
  | case1 r distance _ _ ih => exact Nat.le_trans ih r.pull_size_le
  | case2 r distance _ _ => exact r.pull_size_le

theorem peekNoWhitespace_size_le (r : Reader) : r.peekNoWhitespace.2.size ≤ r.size := by
  unfold peekNoWhitespace
  simp only
  split
  · exact Nat.le_refl _
  · exact r.pullNoWhitespace_size_le _

theorem skipWhitespace_size_le (r : Reader) : r.skipWhitespace.size ≤ r.size :=
  loop_size_le ..

theorem readNoWhitespace_size_le (r : Reader) : r.readNoWhitespace.2.size ≤ r.size :=
  Nat.le_trans (read_size_le _) r.skipWhitespace_size_le

theorem skipLine_size_le (r : Reader) : r.skipLine.size ≤ r.size :=
  loop_size_le ..

theorem skipToNewline_size_le (r : Reader) : r.skipToNewline.size ≤ r.size :=
  loop_size_le ..

theorem readLine_size_le (r : Reader) : r.readLine.2.size ≤ r.size :=
  loop_size_le ..

theorem skip_size_le (r : Reader) (count : Nat) : (r.skip count).size ≤ r.size := by
  induction count generalizing r with
  | zero => exact Nat.le_refl _
  | succ count ih => exact Nat.le_trans (ih _) r.read_size_le

end Reader

end RoomScript
