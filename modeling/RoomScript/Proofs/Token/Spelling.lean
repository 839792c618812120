import Mathlib.Tactic
import RoomScript.Token.Scanner

/-!
# The tokens a text spells

`Spells text ts rest` says that `text` begins with the tokens `ts`, all without a fault, and that
`rest` comes after them; the tokens carry no places.  What follows is part of the statement, so a
word is never cut where it goes on.

* `Spells.append` puts pieces of text together;
* `Spells.symbol`, `Spells.number`, `Spells.blanks`, `Spells.comment` and the others recognise one
  token;
* `Says` leaves the layout out.
-/

namespace RoomScript

/-- A token of given characters at no place. -/
def Token.ofChars (kind : Token.Kind) (chars : List Char) : Token :=
  ⟨kind, String.ofList chars, "", 0, 0⟩

@[simp] theorem Token.ofChars_kind (kind : Token.Kind) (chars : List Char) :
    (Token.ofChars kind chars).kind = kind := rfl

@[simp] theorem Token.ofChars_lexeme (kind : Token.Kind) (chars : List Char) :
    (Token.ofChars kind chars).lexeme = String.ofList chars := rfl

/-- The text begins with the tokens, without faults, and goes on with the rest. -/
inductive Spells : List Char → List Token → List Char → Prop
  | done (rest : List Char) : Spells rest [] rest
  | token {c : Char} {cs : List Char} {ts : List Token} {rest : List Char} :
      (lexeme c cs).fault = none → Spells (lexeme c cs).rest ts rest →
      Spells (c :: cs) (.ofChars (lexeme c cs).kind (lexeme c cs).chars :: ts) rest

namespace Spells

theorem append {text middle rest : List Char} {ts us : List Token} (first : Spells text ts middle)
    (second : Spells middle us rest) : Spells text (ts ++ us) rest := by
  induction first with
  | done => exact second
  | token fault _ ih => exact .token fault (ih second)

theorem kind_ne_eof {text rest : List Char} {ts : List Token} (spelled : Spells text ts rest) :
    ∀ t ∈ ts, t.kind ≠ .eof := by
  induction spelled with
  | done => simp
  | @token c cs ts rest _ _ ih => exact List.forall_mem_cons.2 ⟨lexeme_kind_ne_eof c cs, ih⟩

/-- One token, once the scanner has been evaluated. -/
theorem single {c : Char} {cs chars rest : List Char} {kind : Token.Kind}
    (h : lexeme c cs = ⟨kind, chars, rest, none⟩) :
    Spells (c :: cs) [.ofChars kind chars] rest := by
  have fault : (lexeme c cs).fault = none := by rw [h]
  have spelled := Spells.token fault (.done (lexeme c cs).rest)
  rwa [h] at spelled

end Spells

/-! ## Runs of characters -/

/-- A run of a class before something else is taken as a whole. -/
theorem Lexeme.run_of_all {kind : Token.Kind} {first word rest : List Char} {part : Char → Bool}
    (all : ∀ c ∈ word, part c = true) (stops : headIs part rest = false) :
    Lexeme.run kind first part (word ++ rest) = ⟨kind, first ++ word, rest, none⟩ := by
  have taken : (word ++ rest).takeWhile part = word ∧ (word ++ rest).dropWhile part = rest := by
    rw [List.takeWhile_append_of_pos all, List.dropWhile_append_of_pos all]
    cases rest with
    | nil => simp
    | cons c cs =>
      have h : part c = false := by simpa [headIs] using stops
      simp [h]
  rw [Lexeme.run, taken.1, taken.2]

/-- The characters that decide between the classes of tokens. -/
def marks : List Char := ['\n', ' ', '\t', '\r', ';', '/', '#', '.', '"']

theorem notMem_marks_of_isIdentPart {c : Char} (h : isIdentPart c = true) : c ∉ marks := by
  intro mem
  simp only [marks, List.mem_cons, List.not_mem_nil, or_false] at mem
  rcases mem with rfl | rfl | rfl | rfl | rfl | rfl | rfl | rfl | rfl <;> cases h

theorem lexeme_of_notMem_marks {c : Char} (h : c ∉ marks) (rest : List Char) :
    lexeme c rest =
      if isIdentStart c then .run .symbol [c] isIdentPart rest
      else if '0' ≤ c && c ≤ '9' then .run .number [c] isIdentPart rest
      else ⟨singleKind c, [c], rest, none⟩ := by
  simp only [marks, List.mem_cons, List.not_mem_nil, or_false, not_or] at h
  simp [lexeme, isLineBlank, h]

namespace Spells

/-- A name. -/
theorem symbol {c : Char} {word rest : List Char} (start : isIdentStart c = true)
    (all : ∀ d ∈ word, isIdentPart d = true) (stops : headIs isIdentPart rest = false) :
    Spells (c :: word ++ rest) [.ofChars .symbol (c :: word)] rest := by
  have part : isIdentPart c = true := by rw [isIdentPart, start, Bool.true_or]
  refine single ?_
  rw [lexeme_of_notMem_marks (notMem_marks_of_isIdentPart part), if_pos start]
  exact Lexeme.run_of_all all stops

/-- A number. -/
theorem number {c : Char} {word rest : List Char} (digit : ('0' ≤ c && c ≤ '9') = true)
    (all : ∀ d ∈ word, isIdentPart d = true) (stops : headIs isIdentPart rest = false) :
    Spells (c :: word ++ rest) [.ofChars .number (c :: word)] rest := by
  have part : isIdentPart c = true := by rw [isIdentPart, digit, Bool.or_true]
  have noStart : isIdentStart c = false := by
    by_contra start
    simp only [isIdentStart, Bool.not_eq_false, Bool.or_eq_true, Bool.and_eq_true,
      decide_eq_true_eq, beq_iff_eq] at start digit
    rcases start with (⟨low, -⟩ | ⟨low, -⟩) | rfl
    · exact absurd (Char.le_trans low digit.2) (by decide)
    · exact absurd (Char.le_trans low digit.2) (by decide)
    · exact absurd digit.2 (by decide)
  refine single ?_
  rw [lexeme_of_notMem_marks (notMem_marks_of_isIdentPart part), noStart, if_neg (by decide),
    if_pos digit]
  exact Lexeme.run_of_all all stops

/-- A name with a dot in front. -/
theorem dotted {c : Char} {word rest : List Char} (start : isIdentStart c = true)
    (all : ∀ d ∈ word, isIdentPart d = true) (stops : headIs isIdentPart rest = false) :
    Spells ('.' :: c :: word ++ rest) [.ofChars .symbol ('.' :: c :: word)] rest := by
  have part : isIdentPart c = true := by rw [isIdentPart, start, Bool.true_or]
  have found : lexeme '.' (c :: word ++ rest) =
      .run .symbol ['.'] isIdentPart (c :: word ++ rest) := by
    simp [lexeme, isLineBlank, headIs, start]
  refine single (found.trans ?_)
  exact Lexeme.run_of_all (List.forall_mem_cons.2 ⟨part, all⟩) stops

/-- A character that is a token of its own. -/
theorem punctuation {c : Char} (plain : c ∉ marks) (part : isIdentPart c = false)
    (rest : List Char) : Spells (c :: rest) [.ofChars (singleKind c) [c]] rest := by
  have neither := Bool.or_eq_false_iff.1 part
  refine single ?_
  rw [lexeme_of_notMem_marks plain, neither.1, neither.2]
  rfl

/-- Blanks within a line. -/
theorem blanks {word rest : List Char} (filled : word ≠ [])
    (all : ∀ c ∈ word, isLineBlank c = true) (stops : headIs isLineBlank rest = false) :
    Spells (word ++ rest) [.ofChars .whitespace word] rest := by
  cases word with
  | nil => exact absurd rfl filled
  | cons c word =>
    have blank := all c List.mem_cons_self
    have newline : (c == '\n') = false := by
      by_contra h
      rw [Bool.not_eq_false, beq_iff_eq] at h
      rw [h] at blank
      cases blank
    refine single ?_
    rw [lexeme, newline, blank, if_neg (by decide), if_pos rfl]
    exact Lexeme.run_of_all (fun d hd => all d (List.mem_cons_of_mem _ hd)) stops

/-- A comment up to the end of its line. -/
theorem comment {text rest : List Char} (within : ∀ c ∈ text, c ≠ '\n') :
    Spells (';' :: text ++ '\n' :: rest) [.ofChars .comment (';' :: text)] ('\n' :: rest) := by
  have found : ∀ cs, lexeme ';' cs = .run .comment [';'] (· != '\n') cs := by
    intro cs
    simp [lexeme, isLineBlank]
  refine single ((found _).trans ?_)
  exact Lexeme.run_of_all (fun c hc => by simpa using within c hc) (by simp [headIs])

theorem newline (rest : List Char) :
    Spells ('\n' :: rest) [.ofChars .newline ['\n']] rest := by
  refine single ?_
  simp [lexeme]

end Spells

/-! ## Without the layout -/

/-- The text begins with the tokens, layout apart, and goes on with the rest. -/
def Says (text : List Char) (ts : List Token) (rest : List Char) : Prop :=
  ∃ us, Spells text us rest ∧ us.filter (! ·.isLayout) = ts

namespace Says

theorem nil (rest : List Char) : Says rest [] rest :=
  ⟨[], .done rest, rfl⟩

theorem append {text middle rest : List Char} {ts us : List Token} (first : Says text ts middle)
    (second : Says middle us rest) : Says text (ts ++ us) rest := by
  obtain ⟨ts', spelled, rfl⟩ := first
  obtain ⟨us', spelled', rfl⟩ := second
  exact ⟨ts' ++ us', spelled.append spelled', by rw [List.filter_append]⟩

theorem of_spells {text rest : List Char} {t : Token} (h : Spells text [t] rest)
    (shown : t.isLayout = false) : Says text [t] rest :=
  ⟨[t], h, by simp [shown]⟩

theorem of_layout {text rest : List Char} {t : Token} (h : Spells text [t] rest)
    (hidden : t.isLayout = true) : Says text [] rest :=
  ⟨[t], h, by simp [hidden]⟩

theorem blanks {word rest : List Char} (all : ∀ c ∈ word, isLineBlank c = true)
    (stops : headIs isLineBlank rest = false) : Says (word ++ rest) [] rest := by
  by_cases filled : word = []
  · rw [filled]
    exact nil rest
  · exact of_layout (.blanks filled all stops) rfl

theorem blank {rest : List Char} (stops : headIs isLineBlank rest = false) :
    Says ([' '] ++ rest) [] rest :=
  blanks (List.all_eq_true.1 (by decide)) stops

end Says

end RoomScript
