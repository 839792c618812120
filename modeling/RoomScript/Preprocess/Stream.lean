import RoomScript.Preprocess.Run

/-!
# Expanded text on demand

A preprocessor holds the macros and the diagnostics of a run.  A stream is the expanded text of one
file, produced statement by statement as tokens are pulled from it; definitions made between two
pulls count for what is pulled later.

* `Preprocessor.define` adds a macro from outside the source;
* `Preprocessor.stream` and `Stream.next` pull the tokens of a file one by one,
  `Preprocessor.expand` pulls them all;
* after its last token a stream gives the end token for ever.
-/

namespace RoomScript

/-- The macros and diagnostics of a run. -/
structure Preprocessor where
  macros : Macro.Table := []
  diagnostics : List Diagnostic := []
  remarks : List String := []
  deriving Repr

/-- The expanded text of one file, as far as it has not been pulled. -/
structure Stream where
  path : String
  reader : Reader
  /-- Tokens of the last statement that have not been pulled. -/
  pending : List Token := []
  /-- The end token. -/
  last : Token
  /-- Whether the end has been reached. -/
  done : Bool := false
  deriving Repr

namespace Preprocessor

/-- Define a macro without parameters from the text of its body. -/
def define (p : Preprocessor) (name body : String) : Preprocessor :=
  let (tokens, faults) := Scanner.scan "<define>" body
  { p with macros := p.macros.define { name, body := Token.trimBlanks tokens.dropLast },
           diagnostics := p.diagnostics ++ faults }

/-- Whether a name stands for a macro. -/
def isDefined (p : Preprocessor) (name : String) : Bool :=
  p.macros.isDefined name

/-- Append a diagnostic. -/
def report (p : Preprocessor) (d : Diagnostic) : Preprocessor :=
  { p with diagnostics := p.diagnostics ++ [d] }

/-- Take over what a piece of work has changed. -/
def after (_ : Preprocessor) (w : Work) : Preprocessor :=
  { macros := w.macros, diagnostics := w.reader.diagnostics, remarks := w.remarks }

/-- Start on a file.  A file that cannot be read has no tokens. -/
def stream (p : Preprocessor) (lib : Library) (path : String) : Stream × Preprocessor :=
  let last : Token := ⟨.eof, "", path, 1, 1⟩
  match lib.read path with
  | .error reason =>
    ({ path, reader := .ofTokens [], last, done := true },
      p.report ⟨path, 0, 0, .includeNotFound path reason⟩)
  | .ok data => ({ path, reader := .ofText path (Text.ofBytes data), last }, p)

end Preprocessor

namespace Stream

/-- The state in which the next statement is expanded. -/
def work (s : Stream) (p : Preprocessor) : Work :=
  { macros := p.macros, remarks := p.remarks,
    reader := { s.reader with diagnostics := p.diagnostics } }

/-- A bound on the statements still to come. -/
def size (s : Stream) : Nat :=
  if s.done then 0 else s.reader.size + 1

/-- Expand statements until there is a token to pull or the end is reached. -/
def fill (lib : Library) (p : Preprocessor) (s : Stream) : Stream × Preprocessor :=
  if !s.pending.isEmpty || s.done then (s, p)
  else
    match _expanded : (s.work p).run lib [s.path] false #[] with
    | (out, some eof, w) =>
      ({ s with reader := w.reader, pending := out.toList, last := eof, done := true }, p.after w)
    | (out, none, w) =>
      fill lib (p.after w) { s with reader := w.reader, pending := out.toList }
termination_by s.reader.size
decreasing_by exact Work.run_size_lt (w := s.work p) rfl _expanded

/-- Expanding statements for a stream with nothing to pull leaves fewer of them. -/
theorem fill_size_lt (lib : Library) (p : Preprocessor) (s : Stream) (empty : s.pending = [])
    (found : (s.fill lib p).1.pending ≠ []) : (s.fill lib p).1.size < s.size := by
  rw [fill] at found ⊢
  by_cases done : s.done = true
  · simp [done, empty] at found
  · simp only [empty, done, List.isEmpty_nil, Bool.not_true, Bool.or_self, Bool.false_eq_true,
      if_false] at found ⊢
    split
    · simp [size, done]
    · rename_i out w expanded
      have smaller := Work.run_size_lt (w := s.work p) rfl expanded
      have shrink : ∀ (q : Preprocessor) (t : Stream), t.done = false →
          (t.fill lib q).1.size ≤ t.reader.size + 1 := by
        intro q t
        fun_induction fill lib q t with
        | case1 q t _ => intro h; simp [size, h]
        | case2 q t _ out eof w _ => simp [size]
        | case3 q t _ out w expanded ih =>
          intro h
          have less := Work.run_size_lt (w := t.work q) rfl expanded
          have := ih h
          change t.reader.size > w.reader.size at less
          simp only at this
          omega
      have := shrink (p.after w) { s with reader := w.reader, pending := out.toList }
        (by simpa using done)
      change s.reader.size > w.reader.size at smaller
      simp only [size, done] at this ⊢
      simp only [Bool.false_eq_true, if_false]
      omega

/-- Pull one token. -/
def next (lib : Library) (p : Preprocessor) (s : Stream) : Token × Stream × Preprocessor :=
  let (s, p) := s.fill lib p
  match s.pending with
  | [] => (s.last, s, p)
  | t :: rest => (t, { s with pending := rest }, p)

/-- Pull all tokens, the end token last, and put them after `out`. -/
def collectOnto (lib : Library) (p : Preprocessor) (s : Stream) (out : Array Token) :
    Array Token × Preprocessor :=
  let filled := s.fill lib p
  if _pending : filled.1.pending = [] then (out.push filled.1.last, filled.2)
  else
    collectOnto lib filled.2 { filled.1 with pending := [] } (out ++ filled.1.pending)
termination_by (s.size, s.pending.length)
decreasing_by
  by_cases empty : s.pending = []
  · exact Prod.Lex.left _ _ (fill_size_lt lib p s empty _pending)
  · have same : s.fill lib p = (s, p) := by
      rw [fill]
      simp [empty]
    simp only [same, size]
    exact Prod.Lex.right _ (by simpa [List.length_pos_iff] using empty)

/-- Pull all tokens, the end token last. -/
def collect (lib : Library) (p : Preprocessor) (s : Stream) : List Token × Preprocessor :=
  let (out, p) := s.collectOnto lib p #[]
  (out.toList, p)

end Stream

/-- All tokens of an expanded file, the end token last. -/
def Preprocessor.expand (p : Preprocessor) (lib : Library) (path : String) :
    List Token × Preprocessor :=
  let (s, p) := p.stream lib path
  s.collect lib p

end RoomScript
