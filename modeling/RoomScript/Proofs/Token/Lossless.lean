import Mathlib.Data.List.Induction
import RoomScript.Token.Scanner

/-!
# Scanning loses nothing

The lexemes of the scanned tokens, put together, are the text, and every token carries the place
where it begins.

* `Position.behind` is the place behind a text, counted from the text alone; `Position.advance_eq`
  says that stepping through the characters arrives there;
* `Scanned` describes what a scanner returns for a text, and `Scanner.scanned_scanOnto` says that
  it returns just that;
* `Scanner.scan_lossless` puts these together.
-/

namespace RoomScript

/-! ## Places -/

/-- The place behind a text: lines are counted by the line ends in it, columns by the characters
after the last line end. -/
def Position.behind (text : List Char) : Position :=
  ⟨1 + text.count '\n', 1 + (text.reverse.takeWhile (· ≠ '\n')).length⟩

/-- One more character moves the place by one step. -/
theorem Position.behind_append_singleton (text : List Char) (c : Char) :
    behind (text ++ [c]) = (behind text).step c := by
  by_cases newline : c = '\n'
  · subst newline
    simp [behind, step, Nat.add_assoc]
  · have apart : (c == '\n') = false := by simpa using newline
    simp [behind, step, apart, newline, Nat.add_assoc]

/-- Stepping through the characters of a text leads to the place behind them. -/
theorem Position.advance_eq (before text : List Char) :
    (behind before).advance text = behind (before ++ text) := by
  induction text using List.reverseRecOn with
  | nil => simp [advance]
  | append_singleton text c ih =>
    rw [← List.append_assoc, behind_append_singleton, ← ih]
    simp [advance]

/-! ## Tokens of a text -/

/-- The characters of a token. -/
def Token.chars (t : Token) : List Char :=
  t.lexeme.toList

/-- A token carries the place behind the text. -/
def Token.IsAt (t : Token) (before : List Char) : Prop :=
  (⟨t.line, t.column⟩ : Position) = .behind before

/-- The tokens of a text that stands behind `before`: each takes some characters and is at its
place, and the end token comes when all characters have been taken. -/
inductive Scanned : List Char → List Token → List Char → Prop
  | last {before : List Char} {t : Token} :
      t.kind = .eof → t.chars = [] → t.IsAt before → Scanned before [t] []
  | token {before text : List Char} {t : Token} {ts : List Token} :
      t.kind ≠ .eof → t.chars ≠ [] → t.IsAt before → Scanned (before ++ t.chars) ts text →
      Scanned before (t :: ts) (t.chars ++ text)

namespace Scanned

variable {before text : List Char} {ts : List Token}

theorem ne_nil (scanned : Scanned before ts text) : ts ≠ [] := by
  cases scanned <;> simp

theorem flatMap_chars (scanned : Scanned before ts text) : ts.flatMap Token.chars = text := by
  induction scanned with
  | last _ empty _ => simp [empty]
  | token _ _ _ _ ih => rw [List.flatMap_cons, ih]

/-- What is known about a token anywhere among those of a text. -/
theorem of_eq_append (scanned : Scanned before ts text) {left right : List Token} {t : Token}
    (split : ts = left ++ t :: right) :
    (t.kind = .eof ↔ right = []) ∧ (t.kind ≠ .eof → t.chars ≠ []) ∧
      t.IsAt (before ++ left.flatMap Token.chars) := by
  induction scanned generalizing left with
  | @last before u ended _ place =>
    -- The end token is alone, so nothing stands on its left or right.
    obtain ⟨rfl, rfl, rfl⟩ : left = [] ∧ u = t ∧ right = [] := by
      cases left <;> simp_all
    simpa [ended] using place
  | @token before text u us going filled place later ih =>
    cases left with
    | nil =>
      obtain ⟨rfl, rfl⟩ := List.cons.inj split
      refine ⟨⟨fun ended => absurd ended going, fun none => absurd none later.ne_nil⟩, ?_, ?_⟩
      · exact fun _ => filled
      · simpa using place
    | cons v left =>
      obtain ⟨rfl, rest⟩ := List.cons.inj split
      simpa [List.append_assoc] using ih rest

end Scanned

/-! ## Scanning -/

namespace Scanner

/-- Scanning on from the place behind `before` adds the tokens of the text ahead. -/
theorem scanned_scanOnto (s : Scanner) (tokens : Array Token) (found : Array Diagnostic)
    {before : List Char} (place : s.position = .behind before) :
    ∃ ts, (s.scanOnto tokens found).1.toList = tokens.toList ++ ts ∧ Scanned before ts s.rest := by
  fun_induction scanOnto s tokens found generalizing before with
  | case1 s tokens found pulled tokens' found' =>
    rename_i ended
    cases text : s.rest with
    | nil =>
      refine ⟨[pulled.1], by simp [tokens'], .last ended ?_ ?_⟩
      · simp [pulled, next, text, Token.chars]
      · simp [pulled, next, text, Token.IsAt, ← place]
    | cons c cs =>
      simp only [pulled, next, text] at ended
      exact absurd ended (lexeme_kind_ne_eof c cs)
  | case2 s tokens found pulled tokens' found' going =>
    rename_i ih
    cases text : s.rest with
    | nil => simp [pulled, next, text] at going
    | cons c cs =>
      have chars : pulled.1.chars = (lexeme c cs).chars := by
        simp [pulled, next, text, Token.chars]
      have moved : pulled.2.2.position = .behind (before ++ pulled.1.chars) := by
        rw [chars, ← Position.advance_eq, ← place]
        simp [pulled, next, text]
      obtain ⟨ts, collected, scanned⟩ := ih moved
      refine ⟨pulled.1 :: ts, by simpa [tokens'] using collected, ?_⟩
      have rest : pulled.1.chars ++ pulled.2.2.rest = c :: cs := by
        rw [chars, ← lexeme_append c cs]
        simp [pulled, next, text]
      rw [← rest]
      refine .token going ?_ ?_ scanned
      · rw [chars]
        exact lexeme_ne_nil c cs
      · simp [pulled, next, text, Token.IsAt, ← place]

/-- The tokens of a text from its beginning. -/
theorem scanned_scan (path text : String) : Scanned [] (scan path text).1 text.toList := by
  have start : (ofText path text).position = .behind [] := rfl
  obtain ⟨ts, collected, scanned⟩ := (ofText path text).scanned_scanOnto #[] #[] start
  have tokens : (scan path text).1 = ts := by simpa [scan] using collected
  rw [tokens]
  exact scanned

/-- **Scanning loses nothing and tells every place.**  The lexemes of a text, put together, are the
text; exactly the last token is the end token and every other one takes a character; and the line
and the column of a token count the line ends before it and the characters after the last of
them. -/
theorem scan_lossless (path text : String) :
    (scan path text).1 ≠ [] ∧ (scan path text).1.flatMap Token.chars = text.toList ∧
      ∀ (before after : List Token) (t : Token), (scan path text).1 = before ++ t :: after →
        (t.kind = .eof ↔ after = []) ∧ (t.kind ≠ .eof → t.lexeme ≠ "") ∧
        t.line = 1 + (before.flatMap Token.chars).count '\n' ∧
        t.column =
          1 + ((before.flatMap Token.chars).reverse.takeWhile (· ≠ '\n')).length := by
  have scanned := scanned_scan path text
  refine ⟨scanned.ne_nil, scanned.flatMap_chars, fun before after t split => ?_⟩
  obtain ⟨ended, filled, place⟩ := scanned.of_eq_append split
  rw [List.nil_append] at place
  obtain ⟨line, column⟩ := Position.mk.inj place
  refine ⟨ended, fun going empty => filled going ?_, line, column⟩
  simp [Token.chars, empty]

end Scanner

end RoomScript
