import RoomScript.Preprocess.Stream
import RoomScript.Proofs.Token.Spelling

/-!
# Text without directives

A text without directives and faults, read with no macros defined, is its own expansion: every turn
passes one token on, and nothing is reported.

* `Token.bare` is a token without its place;
* `Work.turn_plain` is one turn, `Stream.collectOnto_plain` the run over the whole text;
* `Preprocessor.expand_plain` says so for a file of a library.
-/

namespace RoomScript

/-- A token without its place. -/
def Token.bare (t : Token) : Token :=
  .ofChars t.kind t.lexeme.toList

@[simp] theorem Token.bare_kind (t : Token) : t.bare.kind = t.kind := rfl

@[simp] theorem Token.bare_lexeme (t : Token) : t.bare.lexeme = t.lexeme := by
  simp [Token.bare]

/-- The first token of a scanner's text, at its place. -/
def Scanner.front (s : Scanner) (l : Lexeme) : Token :=
  ⟨l.kind, String.ofList l.chars, s.path, s.position.line, s.position.column⟩

/-- The scanner behind its first token. -/
def Scanner.behind (s : Scanner) (l : Lexeme) : Scanner :=
  { s with rest := l.rest, position := s.position.advance l.chars }

theorem Source.next_plain {s : Scanner} {c : Char} {cs : List Char} (text : s.rest = c :: cs)
    (fault : (lexeme c cs).fault = none) :
    (Source.scanner s).next =
      (s.front (lexeme c cs), none, .scanner (s.behind (lexeme c cs))) := by
  simp only [Source.next, Scanner.next, text, fault]
  rfl

/-- The end token of a scanner without text. -/
def Scanner.final (s : Scanner) : Token :=
  ⟨.eof, "", s.path, s.position.line, s.position.column⟩

theorem Source.next_end {s : Scanner} (text : s.rest = []) :
    (Source.scanner s).next = (s.final, none, .scanner { s with finished := true }) := by
  simp only [Source.next, Scanner.next, text]
  rfl

namespace Work

/-- A turn at a token that is no directive, with no macros defined, passes it on. -/
theorem turn_plain {s : Scanner} {c : Char} {cs : List Char} (text : s.rest = c :: cs)
    (fault : (lexeme c cs).fault = none) (plain : (lexeme c cs).kind ≠ .directive)
    (opened : List Token) (ds : List Diagnostic) (remarks : List String) :
    turn ⟨[], ⟨.scanner s, [], ds⟩, opened, remarks⟩ =
      (.emit [s.front (lexeme c cs)],
        ⟨[], ⟨.scanner (s.behind (lexeme c cs)), [], ds⟩, opened, remarks⟩) := by
  have kind : (s.front (lexeme c cs)).kind ≠ .eof := lexeme_kind_ne_eof c cs
  have kept : ∀ (active : List String) (r : Reader), r.call [] active = (.keep, r.peek.2) := by
    intro active r
    unfold Reader.call
    simp only
    split
    · rfl
    · rename_i found
      split at found <;> cases found
  have pulled := Source.next_plain text fault
  have directive : (s.front (lexeme c cs)).kind ≠ .directive := plain
  simp only [turn, Reader.peek_nil pulled, withReader, kind, directive, if_false, turnToken, kept,
    Reader.peek_cons, Reader.read_cons, Option.toList_none, List.append_nil]

/-- A turn at the end of the text stops. -/
theorem turn_end {s : Scanner} (text : s.rest = []) (ds : List Diagnostic)
    (remarks : List String) :
    turn ⟨[], ⟨.scanner s, [], ds⟩, [], remarks⟩ =
      (.stop s.final, ⟨[], ⟨.scanner { s with finished := true }, [s.final], ds⟩, [], remarks⟩) := by
  have kind : s.final.kind = .eof := rfl
  simp only [turn, Reader.peek_nil (Source.next_end text), withReader, kind, if_true, turnEnd,
    Option.toList_none, List.append_nil]

end Work

namespace Stream

/-- A statement that ends before the file does. -/
theorem fill_of_none {lib : Library} {p : Preprocessor} {s : Stream} {out : Array Token} {w : Work}
    (empty : s.pending = []) (going : s.done = false)
    (ran : (s.work p).run lib [s.path] false #[] = (out, none, w)) :
    s.fill lib p = fill lib (p.after w) { s with reader := w.reader, pending := out.toList } := by
  rw [fill, if_neg (by simp [empty, going])]
  split
  · rename_i h
    rw [ran] at h
    cases h
  · rename_i h
    rw [ran] at h
    cases h
    rfl

/-- The statement that ends the file. -/
theorem fill_of_some {lib : Library} {p : Preprocessor} {s : Stream} {out : Array Token} {w : Work}
    {eof : Token} (empty : s.pending = []) (going : s.done = false)
    (ran : (s.work p).run lib [s.path] false #[] = (out, some eof, w)) :
    s.fill lib p =
      ({ s with reader := w.reader, pending := out.toList, last := eof, done := true },
        p.after w) := by
  rw [fill, if_neg (by simp [empty, going])]
  split
  · rename_i h
    rw [ran] at h
    cases h
    rfl
  · rename_i h
    rw [ran] at h
    cases h

theorem fill_plain {s : Scanner} {c : Char} {cs : List Char} (text : s.rest = c :: cs)
    (fault : (lexeme c cs).fault = none) (plain : (lexeme c cs).kind ≠ .directive)
    (lib : Library) (path : String) (ds es : List Diagnostic) (last : Token)
    (remarks : List String) :
    fill lib ⟨[], ds, remarks⟩ ⟨path, ⟨.scanner s, [], es⟩, [], last, false⟩ =
      (⟨path, ⟨.scanner (s.behind (lexeme c cs)), [], ds⟩, [s.front (lexeme c cs)], last, false⟩,
        ⟨[], ds, remarks⟩) := by
  have ran : Work.run lib [path] false ⟨[], ⟨.scanner s, [], ds⟩, [], remarks⟩ #[] =
      (#[s.front (lexeme c cs)], none,
        ⟨[], ⟨.scanner (s.behind (lexeme c cs)), [], ds⟩, [], remarks⟩) := by
    rw [Work.run, Work.turn_plain text fault plain]
    rfl
  rw [fill_of_none rfl rfl ran, fill, if_pos (by simp)]
  rfl

theorem fill_end {s : Scanner} (text : s.rest = []) (lib : Library) (path : String)
    (ds es : List Diagnostic) (last : Token) (remarks : List String) :
    fill lib ⟨[], ds, remarks⟩ ⟨path, ⟨.scanner s, [], es⟩, [], last, false⟩ =
      (⟨path, ⟨.scanner { s with finished := true }, [s.final], ds⟩, [], s.final, true⟩,
        ⟨[], ds, remarks⟩) := by
  have ran : Work.run lib [path] false ⟨[], ⟨.scanner s, [], ds⟩, [], remarks⟩ #[] =
      (#[], some s.final,
        ⟨[], ⟨.scanner { s with finished := true }, [s.final], ds⟩, [], remarks⟩) := by
    rw [Work.run, Work.turn_end text]
  rw [fill_of_some rfl rfl ran]
  rfl

/-- Pulling a text without directives gives its tokens one by one and reports nothing. -/
theorem collectOnto_plain {text : List Char} {us : List Token} (spelled : Spells text us [])
    (plain : ∀ t ∈ us, t.kind ≠ .directive) (s : Scanner) (hs : s.rest = text) (lib : Library)
    (path : String) (ds es : List Diagnostic) (last : Token) (remarks : List String)
    (out : Array Token) :
    ∃ ts eof, collectOnto lib ⟨[], ds, remarks⟩ ⟨path, ⟨.scanner s, [], es⟩, [], last, false⟩ out =
        (out ++ (ts ++ [eof]).toArray, ⟨[], ds, remarks⟩) ∧
      ts.map Token.bare = us ∧ eof.kind = .eof := by
  -- The reader keeps the diagnostics of the statement before, so `es` is generalized with the text.
  generalize nothing : ([] : List Char) = rest at spelled
  induction spelled generalizing s es out with
  | done =>
    subst nothing
    refine ⟨[], s.final, ?_, rfl, rfl⟩
    rw [collectOnto, fill_end hs]
    simp
  | @token c cs ts rest fault _ ih =>
    have kind : (lexeme c cs).kind ≠ .directive := plain _ List.mem_cons_self
    obtain ⟨us, eof, collected, bare, ended⟩ := ih (fun t ht => plain t (List.mem_cons_of_mem _ ht))
      (s.behind (lexeme c cs)) rfl ds (out ++ [s.front (lexeme c cs)]) nothing
    refine ⟨s.front (lexeme c cs) :: us, eof, ?_, ?_, ended⟩
    · rw [collectOnto, fill_plain hs fault kind]
      simp only [List.cons_ne_nil, dif_neg, not_false_iff]
      rw [collected]
      simp
    · rw [List.map_cons, bare]
      simp [Token.bare, Scanner.front]

end Stream

/-- A file without directives and faults expands to its own tokens. -/
theorem Preprocessor.expand_plain {lib : Library} {path : String} {data : ByteArray}
    (read : lib.read path = .ok data) {us : List Token}
    (spelled : Spells (Text.ofBytes data).toList us [])
    (plain : ∀ t ∈ us, t.kind ≠ .directive) :
    ∃ ts eof, Preprocessor.expand {} lib path = (ts ++ [eof], {}) ∧ ts.map Token.bare = us ∧
      eof.kind = .eof := by
  obtain ⟨ts, eof, collected, bare, ended⟩ := Stream.collectOnto_plain spelled plain
    (.ofText path (Text.ofBytes data)) rfl lib path [] [] ⟨.eof, "", path, 1, 1⟩ [] #[]
  refine ⟨ts, eof, ?_, bare, ended⟩
  simp only [Preprocessor.expand, Preprocessor.stream, read, Stream.collect, Reader.ofText]
  rw [collected]
  simp

end RoomScript
