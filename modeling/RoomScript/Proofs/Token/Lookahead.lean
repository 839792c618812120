import Mathlib.Tactic
import RoomScript.Proofs.Token.Lexemes
import RoomScript.Token.Reader

/-!
# Lookahead and a plain index

A reader with lookahead answers like an index into the list of all tokens of the text, in which the
end token goes on forever.  It pulls a token only when the token is looked at.

* `Tape` is the index: `Tape.perform` answers an operation and moves the index, and `Tape.reach` is
  the furthest place that the operation looks at;
* `Reader.Stands` is the relation between a reader and an index: the reader holds the tokens from
  the index up to the last one that was pulled, and no others have been pulled;
* `Stands.perform` keeps the relation up through one operation, and `Reader.performAll_eq` through
  all of a run.
-/

namespace RoomScript

/-! ## Operations -/

namespace Reader

/-- What can be asked of a reader. -/
inductive Operation where
  | peek
  | peekAt (distance : ℕ)
  | read
  | readNoWhitespace
  | peekNoWhitespace
  | skipWhitespace
  | skipLine
  deriving DecidableEq, Repr

/-- What is answered to an operation. -/
inductive Answer where
  | token (t : Token)
  | ahead (t : Token) (distance : ℕ)
  | done
  deriving DecidableEq, Repr

/-- Perform an operation. -/
def perform (r : Reader) : Operation → Answer × Reader
  | .peek => (.token r.peek.1, r.peek.2)
  | .peekAt distance => (.token (r.peekAt distance).1, (r.peekAt distance).2)
  | .read => (.token r.read.1, r.read.2)
  | .readNoWhitespace => (.token r.readNoWhitespace.1, r.readNoWhitespace.2)
  | .peekNoWhitespace =>
    (.ahead r.peekNoWhitespace.1.1 r.peekNoWhitespace.1.2, r.peekNoWhitespace.2)
  | .skipWhitespace => (.done, r.skipWhitespace)
  | .skipLine => (.done, r.skipLine)

/-- Perform operations one after the other. -/
def performAll (r : Reader) : List Operation → List Answer × Reader
  | [] => ([], r)
  | o :: os =>
    let later := (r.perform o).2.performAll os
    ((r.perform o).1 :: later.1, later.2)

end Reader

/-! ## An index into the tokens -/

namespace Tape

open Reader

variable (ts : List Token)

/-- The token at an index.  The last one goes on forever. -/
def token (i : ℕ) : Token :=
  (ts[i]?.or ts.getLast?).getD default

/-- How many tokens from an index on belong to a class. -/
def run (part : Token → Bool) (i : ℕ) : ℕ :=
  ((ts.drop i).takeWhile part).length

/-- How many blanks there are from an index on. -/
def blanks (i : ℕ) : ℕ :=
  run ts (·.kind == .whitespace) i

/-- How many tokens there are from an index on before a line or the input ends. -/
def line (i : ℕ) : ℕ :=
  run ts (fun t => t.kind != .newline && t.kind != .eof) i

/-- The index after reading, which stays at the end. -/
def next (i : ℕ) : ℕ :=
  if (token ts i).kind = .eof then i else i + 1

/-- Answer an operation at an index, and move the index. -/
def perform (i : ℕ) : Operation → Answer × ℕ
  | .peek => (.token (token ts i), i)
  | .peekAt distance => (.token (token ts (i + distance)), i)
  | .read => (.token (token ts i), next ts i)
  | .readNoWhitespace => (.token (token ts (i + blanks ts i)), next ts (i + blanks ts i))
  | .peekNoWhitespace => (.ahead (token ts (i + blanks ts i)) (blanks ts i), i)
  | .skipWhitespace => (.done, i + blanks ts i)
  | .skipLine => (.done, next ts (i + line ts i))

/-- The furthest index that an operation looks at. -/
def reach (i : ℕ) : Operation → ℕ
  | .peek | .read => i
  | .peekAt distance => i + distance
  | .readNoWhitespace | .peekNoWhitespace | .skipWhitespace => i + blanks ts i
  | .skipLine => i + line ts i

/-- Answer operations one after the other. -/
def performAll (i : ℕ) : List Operation → List Answer × ℕ
  | [] => ([], i)
  | o :: os =>
    let later := performAll (perform ts i o).2 os
    ((perform ts i o).1 :: later.1, later.2)

/-- One more than the furthest index that operations look at. -/
def extent (i : ℕ) : List Operation → ℕ
  | [] => 0
  | o :: os => max (reach ts i o + 1) (extent (perform ts i o).2 os)

variable {ts}

theorem token_cons_succ (t : Token) (filled : ts ≠ []) (i : ℕ) :
    token (t :: ts) (i + 1) = token ts i := by
  rw [token, token, List.getElem?_cons_succ, List.getLast?_cons_of_ne_nil filled]

theorem token_of_lt {i : ℕ} (within : i < ts.length) : token ts i = ts[i] := by
  rw [token, List.getElem?_eq_getElem within]
  rfl

/-- The end token is the last one. -/
def Ends (ts : List Token) : Prop :=
  ∃ front last, ts = front ++ [last] ∧ last.kind = .eof

theorem Ends.kind_of_le (ends : Ends ts) {i : ℕ} (beyond : ts.length ≤ i) :
    (token ts i).kind = .eof := by
  obtain ⟨front, last, rfl, ended⟩ := ends
  rw [token, List.getElem?_eq_none beyond, List.getLast?_concat]
  exact ended

section Run

variable {part : Token → Bool} {i : ℕ}

/-- A token of the class is counted. -/
theorem run_of_pos (ends : Ends ts) (going : ∀ t, part t = true → t.kind ≠ .eof)
    (inside : part (token ts i) = true) : run ts part i = run ts part (i + 1) + 1 := by
  have within : i < ts.length := by
    by_contra beyond
    exact going _ inside (ends.kind_of_le (Nat.not_lt.1 beyond))
  rw [token_of_lt within] at inside
  rw [run, List.drop_eq_getElem_cons within, List.takeWhile_cons_of_pos inside]
  rfl

/-- Counting stops at a token that is not of the class. -/
theorem run_of_neg (outside : ¬part (token ts i) = true) : run ts part i = 0 := by
  by_cases within : i < ts.length
  · rw [token_of_lt within] at outside
    rw [run, List.drop_eq_getElem_cons within, List.takeWhile_cons_of_neg outside]
    rfl
  · rw [run, List.drop_eq_nil_of_le (Nat.not_lt.1 within)]
    rfl

/-- When something is counted, the first token is, and then the others. -/
theorem of_run_succ (ends : Ends ts) (going : ∀ t, part t = true → t.kind ≠ .eof) {n : ℕ}
    (count : run ts part i = n + 1) : part (token ts i) = true ∧ run ts part (i + 1) = n := by
  have inside : part (token ts i) = true := by
    by_contra outside
    rw [run_of_neg outside] at count
    cases count
  rw [run_of_pos ends going inside] at count
  exact ⟨inside, Nat.succ.inj count⟩

/-- The token behind those that are counted is not of the class. -/
theorem outside_run (ends : Ends ts) (going : ∀ t, part t = true → t.kind ≠ .eof) :
    ¬part (token ts (i + run ts part i)) = true := by
  induction count : run ts part i generalizing i with
  | zero =>
    intro inside
    rw [Nat.add_zero] at inside
    rw [run_of_pos ends going inside] at count
    cases count
  | succ n ih =>
    obtain ⟨-, later⟩ := of_run_succ ends going count
    rw [Nat.add_comm n, ← Nat.add_assoc]
    exact ih later

/-- What is counted is counted in two parts. -/
theorem run_add (ends : Ends ts) (going : ∀ t, part t = true → t.kind ≠ .eof) {n : ℕ}
    (counted : n ≤ run ts part i) : run ts part i = n + run ts part (i + n) := by
  induction n generalizing i with
  | zero => rw [Nat.add_zero, Nat.zero_add]
  | succ n ih =>
    obtain ⟨m, count⟩ := Nat.exists_eq_add_of_le counted
    obtain ⟨-, later⟩ := of_run_succ ends going (count.trans (Nat.add_right_comm n 1 m))
    have rest := ih (i := i + 1) (by omega)
    rw [Nat.add_assoc, Nat.add_comm 1] at rest
    omega

/-- Counting is the same in a part of the tokens that is long enough. -/
theorem length_takeWhile_range' (ends : Ends ts) (going : ∀ t, part t = true → t.kind ≠ .eof)
    (held : ℕ) :
    (((List.range' i held).map (token ts)).takeWhile part).length = min held (run ts part i) := by
  induction held generalizing i with
  | zero => simp
  | succ held ih =>
    rw [List.range'_succ, List.map_cons]
    by_cases inside : part (token ts i) = true
    · rw [List.takeWhile_cons_of_pos inside, List.length_cons, ih, run_of_pos ends going inside,
        Nat.succ_min_succ]
    · rw [List.takeWhile_cons_of_neg inside, run_of_neg inside]
      rfl

end Run

end Tape

/-! ## Pulling tokens -/

namespace Scanner

/-- The scanner after pulling some tokens. -/
def pulls (s : Scanner) (k : ℕ) : Scanner :=
  (fun s => s.next.2.2)^[k] s

theorem pulls_succ (s : Scanner) (k : ℕ) : s.pulls (k + 1) = (s.pulls k).next.2.2 :=
  Function.iterate_succ_apply' _ k s

theorem ends_tokens (s : Scanner) : Tape.Ends s.tokens :=
  ⟨_, _, rfl, rfl⟩

/-- The tokens pulled one after the other are those of the text, and then the end forever. -/
theorem next_pulls (s : Scanner) (k : ℕ) : (s.pulls k).next.1 = Tape.token s.tokens k := by
  induction k generalizing s with
  | zero =>
    cases text : s.rest with
    | nil =>
      rw [pulls, Function.iterate_zero_apply, next_of_nil text, tokens, text, lexemesOf]
      rfl
    | cons c cs => rw [tokens_of_cons text]; rfl
  | succ k ih =>
    have one : s.pulls (k + 1) = s.next.2.2.pulls k := Function.iterate_succ_apply _ k s
    rw [one, ih]
    cases text : s.rest with
    | nil =>
      have same : s.next.2.2.tokens = s.tokens := by rw [next_of_nil text]; rfl
      have single : s.tokens = [(s.position.advance s.rest).endToken s.path] := by
        rw [tokens, text, lexemesOf]; rfl
      rw [same, single]
      cases k <;> rfl
    | cons c cs =>
      obtain ⟨front, last, split, -⟩ := s.next.2.2.ends_tokens
      rw [tokens_of_cons text, Tape.token_cons_succ _ (by simp [split])]

end Scanner

/-! ## A reader at an index -/

namespace Reader

variable {s : Scanner} {r : Reader} {i k : ℕ}

/-- The reader stands at index `i` of the tokens of a scanner, and `k` tokens have been pulled: it
holds those from the index on, and has reported the faults of all of them. -/
structure Stands (s : Scanner) (r : Reader) (i k : ℕ) : Prop where
  source : r.source = .scanner (s.pulls k)
  lookahead : r.lookahead = (List.range' i r.lookahead.length).map (Tape.token s.tokens)
  pulled : i + r.lookahead.length = k
  diagnostics : r.diagnostics = (List.range k).flatMap fun j => (s.pulls j).next.2.1.toList

theorem Stands.start (path text : String) : Stands (.ofText path text) (ofText path text) 0 0 where
  source := rfl
  lookahead := rfl
  pulled := rfl
  diagnostics := rfl

/-- Pulling a token leaves the index where it is. -/
theorem Stands.pull (h : Stands s r i k) : Stands s r.pull i (k + 1) := by
  have next : r.source.next =
      ((s.pulls k).next.1, (s.pulls k).next.2.1, .scanner (s.pulls (k + 1))) := by
    rw [h.source, Scanner.pulls_succ]
    rfl
  have longer : r.pull.lookahead = r.lookahead ++ [Tape.token s.tokens k] := by
    rw [Reader.pull, next, Scanner.next_pulls]
  refine ⟨by rw [Reader.pull, next], ?_, ?_, ?_⟩
  · rw [longer, List.length_append, List.length_singleton, List.range'_concat, List.map_append,
      ← h.lookahead, Nat.one_mul, h.pulled]
    rfl
  · rw [longer, List.length_append, List.length_singleton, ← Nat.add_assoc, h.pulled]
  · rw [Reader.pull, next, List.range_succ, List.flatMap_append, ← h.diagnostics]
    simp

/-- The token that is pulled next. -/
theorem Stands.next (h : Stands s r i k) : r.source.next.1 = Tape.token s.tokens k := by
  rw [h.source, ← s.next_pulls]
  rfl

theorem Stands.pullMore (h : Stands s r i k) (count : ℕ) :
    Stands s (r.pullMore count) i (k + count) := by
  induction count generalizing r k with
  | zero => exact h
  | succ count ih =>
    have later := ih h.pull
    rwa [Nat.add_assoc, Nat.add_comm 1] at later

theorem peek_eq_peekAt (r : Reader) : r.peek = r.peekAt 0 := by
  obtain ⟨source, lookahead, ds⟩ := r
  cases lookahead with
  | nil => rfl
  | cons t rest => simp [peek, peekAt, Reader.pullMore]

/-- Looking ahead shows the token at that distance from the index. -/
theorem Stands.peekAt (h : Stands s r i k) (n : ℕ) :
    (r.peekAt n).1 = Tape.token s.tokens (i + n) ∧
      Stands s (r.peekAt n).2 i (max k (i + n + 1)) := by
  have filled := h.pullMore (n + 1 - r.lookahead.length)
  have count : k + (n + 1 - r.lookahead.length) = max k (i + n + 1) := by
    have := h.pulled
    omega
  rw [count] at filled
  refine ⟨?_, filled⟩
  have within : n < (r.pullMore (n + 1 - r.lookahead.length)).lookahead.length := by
    have := filled.pulled
    omega
  rw [Reader.peekAt, filled.lookahead, List.getElem?_map,
    List.getElem?_range' within, Option.map_some, Option.getD_some, Nat.one_mul]

theorem Stands.peek (h : Stands s r i k) :
    r.peek.1 = Tape.token s.tokens i ∧ Stands s r.peek.2 i (max k (i + 1)) := by
  rw [peek_eq_peekAt]
  exact h.peekAt 0

/-- Reading a token that is held pulls nothing. -/
theorem Stands.read_held (h : Stands s r i k) (held : i < k) :
    Stands s r.read.2 (Tape.next s.tokens i) k := by
  obtain ⟨source, lookahead, ds⟩ := r
  cases lookahead with
  | nil => exact absurd h.pulled (Nat.ne_of_lt held)
  | cons t rest =>
    have tokens := h.lookahead
    rw [List.length_cons, List.range'_succ, List.map_cons] at tokens
    obtain ⟨front, later⟩ := List.cons.inj tokens
    rw [read_cons, Tape.next, ← front]
    split
    · exact h
    · refine ⟨h.source, later, ?_, h.diagnostics⟩
      rw [Nat.add_right_comm]
      exact h.pulled

/-- Reading goes on to the next index. -/
theorem Stands.read (h : Stands s r i k) :
    r.read.1 = Tape.token s.tokens i ∧
      Stands s r.read.2 (Tape.next s.tokens i) (max k (i + 1)) := by
  obtain ⟨front, seen⟩ := h.peek
  refine ⟨(read_fst r).trans front, ?_⟩
  rw [← read_peek]
  exact seen.read_held (Nat.lt_of_lt_of_le (Nat.lt_succ_self i) (Nat.le_max_right _ _))

/-! ### Loops -/

/-- A loop over tokens of a class passes all of them. -/
theorem Stands.loop_pass (judge : Unit → Token → Verdict Unit) {part : Token → Bool}
    (passes : ∀ t, part t = true → judge () t = .more ())
    (going : ∀ t, part t = true → t.kind ≠ .eof) (h : Stands s r i k) :
    ∃ r', loop judge () r = loop judge () r' ∧
      Stands s r' (i + Tape.run s.tokens part i) (max k (i + Tape.run s.tokens part i)) := by
  induction count : Tape.run s.tokens part i generalizing r i k with
  | zero =>
    have same : max k i = k := Nat.max_eq_left (by have := h.pulled; omega)
    exact ⟨r, rfl, by rwa [Nat.add_zero, same]⟩
  | succ n ih =>
    obtain ⟨inside, later⟩ := Tape.of_run_succ s.ends_tokens going count
    obtain ⟨front, -⟩ := h.peek
    obtain ⟨-, after⟩ := h.read
    rw [Tape.next, if_neg (going _ inside)] at after
    obtain ⟨r', same, stands⟩ := ih after later
    refine ⟨r', ?_, ?_⟩
    · rw [loop]
      simp only [front, passes _ inside, going _ inside, if_false, read_peek]
      exact same
    · have place : i + 1 + n = i + (n + 1) := by omega
      have most : max (max k (i + 1)) (i + 1 + n) = max k (i + (n + 1)) := by omega
      rwa [most, place] at stands

theorem ne_eof_of_blank (t : Token) (blank : (t.kind == .whitespace) = true) : t.kind ≠ .eof := by
  rw [eq_of_beq blank]
  decide

theorem Stands.skipWhitespace (h : Stands s r i k) :
    Stands s r.skipWhitespace (i + Tape.blanks s.tokens i)
      (max k (i + Tape.blanks s.tokens i + 1)) := by
  have solid := Tape.outside_run (i := i) s.ends_tokens ne_eof_of_blank
  obtain ⟨r', same, stands⟩ := h.loop_pass
    (fun _ t => if t.kind = .whitespace then .more () else .stay ())
    (fun t blank => if_pos (eq_of_beq blank)) ne_eof_of_blank
  obtain ⟨front, seen⟩ := stands.peek
  rw [beq_iff_eq, ← front] at solid
  rw [Reader.skipWhitespace, same, loop]
  simp only [if_neg solid]
  rwa [Nat.max_assoc, Nat.max_eq_right (Nat.le_succ _)] at seen

theorem Stands.readNoWhitespace (h : Stands s r i k) :
    r.readNoWhitespace.1 = Tape.token s.tokens (i + Tape.blanks s.tokens i) ∧
      Stands s r.readNoWhitespace.2 (Tape.next s.tokens (i + Tape.blanks s.tokens i))
        (max k (i + Tape.blanks s.tokens i + 1)) := by
  have read := h.skipWhitespace.read
  rwa [Nat.max_assoc, Nat.max_self] at read

theorem Stands.skipLine (h : Stands s r i k) :
    Stands s r.skipLine (Tape.next s.tokens (i + Tape.line s.tokens i))
      (max k (i + Tape.line s.tokens i + 1)) := by
  have going : ∀ t : Token, (t.kind != .newline && t.kind != .eof) = true → t.kind ≠ .eof := by
    intro t inside
    simpa using (Bool.and_eq_true_iff.1 inside).2
  have ends := Tape.outside_run (i := i) s.ends_tokens going
  obtain ⟨r', same, stands⟩ := h.loop_pass
    (fun _ t => if t.kind = .newline ∨ t.kind = .eof then .last () else .more ())
    (fun t inside => if_neg (by simpa using inside)) going
  obtain ⟨front, -⟩ := stands.peek
  obtain ⟨-, after⟩ := stands.read
  have last : r'.peek.1.kind = .newline ∨ r'.peek.1.kind = .eof := by
    rw [front]
    simpa [or_iff_not_imp_left] using ends
  rw [Reader.skipLine, same, loop]
  simp only [if_pos last, read_peek]
  rwa [Nat.max_assoc, Nat.max_eq_right (Nat.le_succ _)] at after

/-! ### Looking for a token that is not blank -/

/-- Pulling goes on up to a token that is not blank. -/
theorem Stands.pullNoWhitespace (h : Stands s r i k) (distance : ℕ) :
    (r.pullNoWhitespace distance).1 =
        (Tape.token s.tokens (k + Tape.blanks s.tokens k), distance + Tape.blanks s.tokens k) ∧
      Stands s (r.pullNoWhitespace distance).2 i (k + Tape.blanks s.tokens k + 1) := by
  induction count : Tape.blanks s.tokens k generalizing r k distance with
  | zero =>
    have solid : ¬(Tape.token s.tokens k).kind = .whitespace := by
      have outside := Tape.outside_run (i := k) s.ends_tokens ne_eof_of_blank
      rwa [← Tape.blanks, count, beq_iff_eq] at outside
    rw [Reader.pullNoWhitespace]
    simp only [h.next, if_neg solid]
    exact ⟨rfl, h.pull⟩
  | succ n ih =>
    obtain ⟨blank, later⟩ := Tape.of_run_succ s.ends_tokens ne_eof_of_blank count
    rw [Reader.pullNoWhitespace]
    simp only [h.next, if_pos (eq_of_beq blank)]
    have rest := ih h.pull (distance + 1) later
    rwa [Nat.add_assoc k, Nat.add_assoc distance, Nat.add_comm 1] at rest

/-- Looking for a token that is not blank finds the first one, and leaves the index where it is. -/
theorem Stands.peekNoWhitespace (h : Stands s r i k) :
    r.peekNoWhitespace.1 =
        (Tape.token s.tokens (i + Tape.blanks s.tokens i), Tape.blanks s.tokens i) ∧
      Stands s r.peekNoWhitespace.2 i (max k (i + Tape.blanks s.tokens i + 1)) := by
  have pulled := h.pulled
  have passed : (r.lookahead.takeWhile (·.kind == .whitespace)).length =
      min r.lookahead.length (Tape.blanks s.tokens i) := by
    rw [h.lookahead, Tape.length_takeWhile_range' s.ends_tokens ne_eof_of_blank, List.length_map,
      List.length_range']
    rfl
  rw [Reader.peekNoWhitespace]
  simp only [passed]
  by_cases held : Tape.blanks s.tokens i < r.lookahead.length
  · have found : r.lookahead[Tape.blanks s.tokens i]? =
        some (Tape.token s.tokens (i + Tape.blanks s.tokens i)) := by
      rw [h.lookahead, List.getElem?_map, List.getElem?_range' held, Option.map_some, Nat.one_mul]
    have most : max k (i + Tape.blanks s.tokens i + 1) = k := by omega
    simpa only [Nat.min_eq_right (Nat.le_of_lt held), found, most, true_and] using h
  · have short := Nat.not_lt.1 held
    have parts := Tape.run_add s.ends_tokens ne_eof_of_blank short
    rw [pulled] at parts
    have most : max k (i + Tape.blanks s.tokens i + 1) = k + Tape.blanks s.tokens k + 1 := by
      unfold Tape.blanks
      omega
    have place : i + Tape.blanks s.tokens i = k + Tape.blanks s.tokens k := by
      unfold Tape.blanks
      omega
    simp only [Nat.min_eq_left short, List.getElem?_eq_none (Nat.le_refl _)]
    rw [most, place]
    have rest := h.pullNoWhitespace r.lookahead.length
    rwa [Tape.blanks, ← parts] at rest

/-! ## Runs -/

/-- An operation is answered as at the index, and pulls the tokens up to the furthest one that it
looks at, as far as they have not been pulled. -/
theorem Stands.perform (h : Stands s r i k) (o : Operation) :
    (r.perform o).1 = (Tape.perform s.tokens i o).1 ∧
      Stands s (r.perform o).2 (Tape.perform s.tokens i o).2
        (max k (Tape.reach s.tokens i o + 1)) := by
  cases o with
  | peek => exact ⟨congrArg Answer.token h.peek.1, h.peek.2⟩
  | peekAt distance => exact ⟨congrArg Answer.token (h.peekAt distance).1, (h.peekAt distance).2⟩
  | read => exact ⟨congrArg Answer.token h.read.1, h.read.2⟩
  | readNoWhitespace => exact ⟨congrArg Answer.token h.readNoWhitespace.1, h.readNoWhitespace.2⟩
  | peekNoWhitespace =>
    obtain ⟨found, stands⟩ := h.peekNoWhitespace
    refine ⟨?_, stands⟩
    rw [Reader.perform, found]
    rfl
  | skipWhitespace => exact ⟨rfl, h.skipWhitespace⟩
  | skipLine => exact ⟨rfl, h.skipLine⟩

/-- A run is answered as at the index. -/
theorem Stands.performAll (h : Stands s r i k) (os : List Operation) :
    (r.performAll os).1 = (Tape.performAll s.tokens i os).1 ∧
      Stands s (r.performAll os).2 (Tape.performAll s.tokens i os).2
        (max k (Tape.extent s.tokens i os)) := by
  induction os generalizing r i k with
  | nil =>
    refine ⟨rfl, ?_⟩
    rw [Tape.extent, Nat.max_zero]
    exact h
  | cons o os ih =>
    obtain ⟨answer, after⟩ := h.perform o
    obtain ⟨answers, last⟩ := ih after
    refine ⟨?_, ?_⟩
    · rw [Reader.performAll, Tape.performAll, answer, answers]
    · rw [Nat.max_assoc] at last
      exact last

/-- **The reader refines a plain index.**  Whatever operations are performed on a reader at the
start of a text, their answers are those at an index into the tokens of the text, where looking
ahead does not move the index and the end is never passed; and the tokens pulled from the scanner
are those up to the furthest one that has been looked at. -/
theorem performAll_eq (path text : String) (os : List Operation) :
    ((ofText path text).performAll os).1 =
        (Tape.performAll (Scanner.scan path text).1 0 os).1 ∧
      Stands (.ofText path text) ((ofText path text).performAll os).2
        (Tape.performAll (Scanner.scan path text).1 0 os).2
        (Tape.extent (Scanner.scan path text).1 0 os) := by
  have tokens : (Scanner.scan path text).1 = (Scanner.ofText path text).tokens := by
    rw [Scanner.scan_eq]
    rfl
  have run := (Stands.start path text).performAll os
  rwa [Nat.zero_max, ← tokens] at run

end Reader

end RoomScript
