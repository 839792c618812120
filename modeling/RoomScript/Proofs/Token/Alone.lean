import RoomScript.Proofs.Token.Lexemes

/-!
# Tokens by themselves

Where a token ends is decided by its own characters, although the scanner looks at what comes
behind it.  So a token is scanned again from its lexeme, and with the same faults, and what is
scanned before the end of a line has nothing to do with what is scanned behind it.

* `Lexeme.takes` says which characters behind a lexeme are read as a part of it, comments included;
* `lexeme_before` reads a lexeme again in front of a text it takes nothing of, and
  `takes_rest` says that the text behind it was such a text;
* `Scanner.scan_alone` and `Scanner.scan_line_end` are the two results.
-/

namespace RoomScript

/-! ## The ends of lexemes -/

/-- A comment between two marks, unlike one that ends with its line. -/
def Lexeme.isBlock (l : Lexeme) : Bool :=
  List.isPrefixOf ['/', '*'] l.chars

/-- A character behind a lexeme that is read as a part of it. -/
def Lexeme.takes (l : Lexeme) (d : Char) : Bool :=
  if l.kind = .comment then l.fault.isSome || (!l.isBlock && d != '\n') else l.goesOn d

theorem Lexeme.takes_of_comment {l : Lexeme} (comment : l.kind = .comment) :
    l.takes = fun d => l.fault.isSome || (!l.isBlock && d != '\n') := by
  funext d
  exact if_pos comment

theorem Lexeme.takes_of_ne {l : Lexeme} (solid : l.kind ≠ .comment) : l.takes = l.goesOn := by
  funext d
  exact if_neg solid

/-! ### Comments -/

/-- What opens a comment up to the end of its line. -/
def opensLine (c : Char) (rest : List Char) : Bool :=
  c == ';' || (c == '/' && headIs (· == '/') rest)

theorem lexeme_of_opensLine {c : Char} {rest : List Char} (opens : opensLine c rest = true) :
    lexeme c rest = .run .comment [c] (· != '\n') rest := by
  have mark : c = ';' ∨ c = '/' := by
    simp only [opensLine, Bool.or_eq_true, Bool.and_eq_true, beq_iff_eq] at opens
    exact opens.imp_right And.left
  have solid : ¬(c == '\n') = true ∧ ¬isLineBlank c = true := by
    rcases mark with rfl | rfl <;> decide
  rw [lexeme, if_neg solid.1, if_neg solid.2]
  exact if_pos opens

/-- Whether a comment ends with its line is decided within the line. -/
theorem opensLine_takeWhile {c : Char} {rest : List Char} (opens : opensLine c rest = true)
    (more : List Char) : opensLine c (rest.takeWhile (· != '\n') ++ more) = true := by
  simp only [opensLine, Bool.or_eq_true, Bool.and_eq_true] at opens ⊢
  refine opens.imp_right fun ⟨slash, second⟩ => ⟨slash, ?_⟩
  refine headIs_append (headIs_takeWhile (fun d same => ?_) second) more
  rw [eq_of_beq same]
  rfl

theorem isBlock_of_opensLine {c : Char} {rest : List Char} (opens : opensLine c rest = true) :
    (lexeme c rest).isBlock = false := by
  have again := opensLine_takeWhile opens []
  rw [lexeme_of_opensLine opens, Lexeme.isBlock, Lexeme.run]
  by_contra block
  rw [Bool.not_eq_false, List.isPrefixOf_iff_prefix] at block
  obtain ⟨body, chars⟩ := block
  obtain ⟨rfl, begins⟩ := List.cons.inj chars
  have begins : rest.takeWhile (· != '\n') = '*' :: body := begins.symm
  rw [begins] at again
  cases again

theorem lexeme_block (cs : List Char) :
    lexeme '/' ('*' :: cs) =
      { kind := .comment, chars := '/' :: '*' :: (commentBody [] cs).1,
        rest := (commentBody [] cs).2.1,
        fault := if (commentBody [] cs).2.2 then none else some .unterminatedComment } := rfl

/-- Behind a comment that has no closing mark there is nothing. -/
theorem commentBody_rest {read cs : List Char} (unclosed : ¬(commentBody read cs).2.2 = true) :
    (commentBody read cs).2.1 = [] := by
  fun_induction commentBody read cs with
  | case1 => exact absurd rfl unclosed
  | case2 read c rest mark ih => exact ih unclosed
  | case3 => rfl

/-- A comment ends with its line or with its closing mark. -/
theorem comment_cases {c : Char} {rest : List Char} (comment : (lexeme c rest).kind = .comment) :
    opensLine c rest = true ∨ c = '/' ∧ ∃ cs, rest = '*' :: cs := by
  revert comment
  fun_cases lexeme c rest <;> intro comment
  case case3 opens => exact .inl opens
  case case4 block _ _ _ _ =>
    obtain ⟨slash, second⟩ := Bool.and_eq_true_iff.1 block
    exact .inr ⟨eq_of_beq slash, rest.tail, headIs_eq second⟩
  case case10 => revert comment; fun_cases singleKind c <;> simp
  all_goals cases comment

/-- A comment is read again in front of a text it takes nothing of. -/
theorem comment_before (c : Char) (rest : List Char) (comment : (lexeme c rest).kind = .comment)
    {more : List Char} (apart : headIs (lexeme c rest).takes more = false) :
    ∃ word, (lexeme c rest).chars = c :: word ∧
      lexeme c (word ++ more) = { lexeme c rest with rest := more } := by
  rw [Lexeme.takes_of_comment comment] at apart
  rcases comment_cases comment with opens | ⟨rfl, cs, rfl⟩
  · rw [isBlock_of_opensLine opens, lexeme_of_opensLine opens] at apart
    refine ⟨rest.takeWhile (· != '\n'), by rw [lexeme_of_opensLine opens]; rfl, ?_⟩
    rw [lexeme_of_opensLine opens, lexeme_of_opensLine (opensLine_takeWhile opens more)]
    exact Lexeme.run_again _ _ _ (by simpa [Lexeme.run] using apart)
  · obtain ⟨used, chars, -, -, again⟩ := commentBody_again [] cs
    rw [lexeme_block] at apart ⊢
    have stops : (commentBody [] cs).2.2 = true ∨ more = [] := by
      cases more with
      | nil => exact .inr rfl
      | cons d more =>
        refine .inl ?_
        by_contra unclosed
        simp [headIs, unclosed] at apart
    refine ⟨'*' :: (commentBody [] cs).1, rfl, ?_⟩
    have used_eq : (commentBody [] cs).1 = used := chars
    rw [List.cons_append, lexeme_block, used_eq, again more stops]
    rfl

/-! ### All lexemes -/

/-- A lexeme is read again in front of a text it takes nothing of. -/
theorem lexeme_before (c : Char) (rest more : List Char)
    (apart : headIs (lexeme c rest).takes more = false) :
    ∃ word, (lexeme c rest).chars = c :: word ∧
      lexeme c (word ++ more) = { lexeme c rest with rest := more } := by
  by_cases comment : (lexeme c rest).kind = .comment
  · exact comment_before c rest comment apart
  · rw [Lexeme.takes_of_ne comment] at apart
    exact lexeme_again c rest comment more apart

/-- The text behind a lexeme is one it takes nothing of. -/
theorem takes_rest (c : Char) (rest : List Char) :
    headIs (lexeme c rest).takes (lexeme c rest).rest = false := by
  by_contra joined
  rw [Bool.not_eq_false] at joined
  by_cases comment : (lexeme c rest).kind = .comment
  · rw [Lexeme.takes_of_comment comment] at joined
    rcases comment_cases comment with opens | ⟨rfl, cs, rfl⟩
    · rw [isBlock_of_opensLine opens, lexeme_of_opensLine opens] at joined
      cases behind : rest.dropWhile (· != '\n') with
      | nil => simp [Lexeme.run, headIs, behind] at joined
      | cons d more =>
        have ends := List.head?_dropWhile_not (· != '\n') rest
        simp [Lexeme.run, headIs, behind] at joined ends
        exact joined ends
    · rw [lexeme_block] at joined
      by_cases closed : (commentBody [] cs).2.2 = true
      · rw [if_pos closed] at joined
        revert joined
        cases (commentBody [] cs).2.1 <;> simp [headIs, Lexeme.isBlock]
      · rw [commentBody_rest closed] at joined
        cases joined
  · rw [Lexeme.takes_of_ne comment] at joined
    cases behind : (lexeme c rest).rest with
    | nil =>
      rw [behind] at joined
      cases joined
    | cons d more =>
      rw [behind] at joined
      have goes : (lexeme c rest).goesOn d = true := joined
      obtain ⟨word, chars, alone⟩ := lexeme_again c rest comment [] rfl
      rw [List.append_nil] at alone
      obtain ⟨after, longer⟩ := lexeme_of_goesOn (by rw [alone])
        (by rw [alone]; exact goes) more
      have whole : c :: (word ++ d :: more) = c :: rest := by
        rw [← List.cons_append, ← chars, ← behind, lexeme_append]
      rw [(List.cons.inj whole).2, chars] at longer
      simp at longer

/-- The end of a line is not a part of what stands before it, unless that is a comment without its
closing mark. -/
theorem takes_newline {c : Char} {rest : List Char}
    (finished : (lexeme c rest).fault ≠ some .unterminatedComment) :
    (lexeme c rest).takes '\n' = false := by
  by_cases comment : (lexeme c rest).kind = .comment
  · have faultless : (lexeme c rest).fault = none := by
      cases fault : (lexeme c rest).fault with
      | none => rfl
      | some cause =>
        rcases ((fault_lexeme_iff c rest cause).1 fault).kind_eq with ⟨string, -⟩ | ⟨-, rfl⟩
        · rw [comment] at string
          cases string
        · exact absurd fault finished
    rw [Lexeme.takes_of_comment comment, faultless]
    simp
  · rw [Lexeme.takes_of_ne comment, Lexeme.goesOn]
    split
    all_goals simp [isLineBlank, isIdentPart, isIdentStart]

/-! ## Texts of lexemes -/

/-- A lexeme of a text is the only one of its own characters. -/
theorem lexemesOf_chars {text : List Char} {l : Lexeme} (mem : l ∈ lexemesOf text) :
    lexemesOf l.chars = [l] := by
  obtain ⟨c, cs, rfl⟩ := exists_of_mem_lexemesOf mem
  obtain ⟨word, chars, again⟩ := lexeme_before c cs [] rfl
  rw [List.append_nil] at again
  have chars : (lexeme c cs).alone.chars = c :: word := chars
  rw [chars, lexemesOf_cons, again, lexemesOf]
  rfl

/-- In front of the end of a line the first lexeme is the one that is there without it. -/
theorem lexeme_append_newline {c : Char} {rest : List Char}
    (finished : (lexeme c rest).fault ≠ some .unterminatedComment) (b : List Char) :
    lexeme c (rest ++ '\n' :: b) =
      { lexeme c rest with rest := (lexeme c rest).rest ++ '\n' :: b } := by
  have apart : headIs (lexeme c rest).takes ((lexeme c rest).rest ++ '\n' :: b) = false := by
    have inside := takes_rest c rest
    cases behind : (lexeme c rest).rest with
    | nil => exact takes_newline finished
    | cons d more =>
      rw [behind] at inside
      exact inside
  obtain ⟨word, chars, again⟩ := lexeme_before c rest _ apart
  have whole : rest = word ++ (lexeme c rest).rest := by
    have all := lexeme_append c rest
    rw [chars] at all
    exact (List.cons.inj all).2.symm
  rw [← again, ← List.append_assoc, ← whole]

/-- The end of a line by itself. -/
def newlineLexeme : Lexeme :=
  { kind := .newline, chars := ['\n'], rest := [] }

/-- The lexemes of a text with an end of a line in it are those before it, the end of the line, and
those behind it. -/
theorem lexemesOf_append_newline {a : List Char}
    (finished : ∀ l ∈ lexemesOf a, l.fault ≠ some .unterminatedComment) (b : List Char) :
    lexemesOf (a ++ '\n' :: b) = lexemesOf a ++ newlineLexeme :: lexemesOf b := by
  fun_induction lexemesOf a with
  | case1 =>
    rw [List.nil_append, lexemesOf_cons]
    rfl
  | case2 c cs ih =>
    obtain ⟨first, later⟩ := List.forall_mem_cons.1 finished
    rw [List.cons_append, lexemesOf_cons, lexeme_append_newline first, ih later]
    rfl

namespace Scanner

/-! ## Tokens alone -/

/-- Scanning the characters of a lexeme gives it again, with its fault. -/
theorem scan_token {l : Lexeme} (self : lexemesOf l.chars = [l]) (path : String) (p : Position) :
    scan path (l.token path p).lexeme =
      ([l.token path {}, (Position.behind l.chars).endToken path],
        (l.fault.map (l.token path {}).diagnostic).toList) := by
  have chars : (l.token path p).lexeme.toList = l.chars := by simp [Lexeme.token]
  have place : Position.advance {} l.chars = .behind l.chars := Position.advance_eq [] l.chars
  rw [scan_eq, chars, self, place]
  simp [tokensFrom, faultsFrom]

/-- A token of a text is one of its lexemes at a place, or the end. -/
theorem token_cases {path text : String} {t : Token} (mem : t ∈ (scan path text).1) :
    (∃ l ∈ lexemesOf text.toList, ∃ p, t = l.token path p) ∨ t.kind = .eof ∧ t.lexeme = "" := by
  rw [scan_eq] at mem
  rcases List.mem_append.1 mem with inside | last
  · exact .inl (exists_of_mem_tokensFrom inside)
  · rw [List.mem_singleton.1 last]
    exact .inr ⟨rfl, rfl⟩

/-- The faults of lexemes are those that each has alone. -/
theorem faultsFrom_eq (path : String) (p : Position) {ls : List Lexeme}
    (selves : ∀ l ∈ ls, lexemesOf l.chars = [l]) :
    faultsFrom path p ls = (tokensFrom path p ls).flatMap fun t =>
      (scan path t.lexeme).2.map fun d => { d with line := t.line, column := t.column } := by
  induction ls generalizing p with
  | nil => rfl
  | cons l ls ih =>
    obtain ⟨self, others⟩ := List.forall_mem_cons.1 selves
    rw [tokensFrom, List.flatMap_cons, ← ih _ others, scan_token self, faultsFrom]
    cases l.fault <;> rfl

/-- **Tokens are self-contained.**  The lexeme of a token is scanned as that token alone; the
diagnostics of a text are those of its lexemes, each moved to the place of its token; and a lexeme
has a fault just when it is a string that is not closed or a block comment that is not. -/
theorem scan_alone (path text : String) :
    (∀ t ∈ (scan path text).1, t.kind ≠ .eof →
      (scan path t.lexeme).1 =
        [{ t with line := 1, column := 1 }, (Position.behind t.chars).endToken path]) ∧
    ((scan path text).2 = (scan path text).1.flatMap fun t =>
      (scan path t.lexeme).2.map fun d => { d with line := t.line, column := t.column }) ∧
    ∀ t ∈ (scan path text).1, ∃ fault : Option Cause,
      (scan path t.lexeme).2 = (fault.map (Diagnostic.mk path 1 1)).toList ∧
        ∀ cause, fault = some cause ↔ HasFault t.kind t.chars cause := by
  have nothing : (scan path "").2 = [] := by
    rw [scan_eq]
    simp [lexemesOf, faultsFrom]
  refine ⟨fun t mem going => ?_, ?_, fun t mem => ?_⟩
  · rcases token_cases mem with ⟨l, listed, p, rfl⟩ | ⟨ended, -⟩
    · rw [scan_token (lexemesOf_chars listed)]
      simp [Lexeme.token, Token.chars]
    · exact absurd ended going
  · have last : ((Position.advance {} text.toList).endToken path).lexeme = "" := rfl
    rw [scan_eq path text, List.flatMap_append, List.flatMap_singleton, last, nothing,
      List.map_nil, List.append_nil]
    exact faultsFrom_eq path {} fun l listed => lexemesOf_chars listed
  · rcases token_cases mem with ⟨l, listed, p, rfl⟩ | ⟨ended, empty⟩
    · refine ⟨l.fault, ?_, fun cause => ?_⟩
      · rw [scan_token (lexemesOf_chars listed)]
        rfl
      · obtain ⟨c, cs, rfl⟩ := exists_of_mem_lexemesOf listed
        have same : (lexeme c cs).alone.fault = some cause ↔
            HasFault (lexeme c cs).alone.kind (lexeme c cs).alone.chars cause :=
          fault_lexeme_iff c cs cause
        simpa [Lexeme.token, Token.chars] using same
    · refine ⟨none, by rw [empty, nothing]; rfl, fun cause =>
        ⟨fun none_some => absurd none_some (Option.some_ne_none cause).symm, fun fault => ?_⟩⟩
      rcases fault.kind_eq with ⟨string, -⟩ | ⟨comment, -⟩ <;> simp_all

end Scanner

/-! ## Lines further below -/

section Below

variable (k : ℕ)

/-- A place a number of lines further below. -/
def Position.below (p : Position) : Position :=
  ⟨p.line + k, p.column⟩

/-- A token a number of lines further below. -/
def Token.below (t : Token) : Token :=
  { t with line := t.line + k }

/-- A diagnostic a number of lines further below. -/
def Diagnostic.below (d : Diagnostic) : Diagnostic :=
  { d with line := d.line + k }

theorem Position.advance_below (p : Position) (cs : List Char) :
    (p.below k).advance cs = (p.advance cs).below k := by
  induction cs generalizing p with
  | nil => rfl
  | cons c cs ih =>
    have step : (p.below k).step c = (p.step c).below k := by
      simp only [Position.step, Position.below]
      split
      · rw [Nat.add_right_comm]
      · rfl
    calc (p.below k).advance (c :: cs) = ((p.below k).step c).advance cs := rfl
      _ = ((p.step c).advance cs).below k := by rw [step, ih]
      _ = (p.advance (c :: cs)).below k := rfl

theorem tokensFrom_below (path : String) (p : Position) (ls : List Lexeme) :
    tokensFrom path (p.below k) ls = (tokensFrom path p ls).map (Token.below k) := by
  induction ls generalizing p with
  | nil => rfl
  | cons l ls ih =>
    rw [tokensFrom, tokensFrom, List.map_cons, Position.advance_below, ih]
    rfl

theorem faultsFrom_below (path : String) (p : Position) (ls : List Lexeme) :
    faultsFrom path (p.below k) ls = (faultsFrom path p ls).map (Diagnostic.below k) := by
  induction ls generalizing p with
  | nil => rfl
  | cons l ls ih =>
    rw [faultsFrom, faultsFrom, List.map_append, Position.advance_below, ih]
    cases l.fault with
    | none => rfl
    | some cause => simp [Token.diagnostic, Lexeme.token, Position.below, Diagnostic.below]

end Below

/-- The end of a line leads to the beginning of a line. -/
theorem Position.advance_newline (a : List Char) :
    Position.advance {} (a ++ ['\n']) = Position.below (a.count '\n' + 1) {} := by
  have place : Position.advance {} (a ++ ['\n']) = behind (a ++ ['\n']) :=
    advance_eq [] (a ++ ['\n'])
  rw [place, behind_append_singleton]
  rfl

/-- A fault of a lexeme is among the diagnostics. -/
theorem exists_mem_faultsFrom (path : String) (p : Position) {ls : List Lexeme} {l : Lexeme}
    (mem : l ∈ ls) {cause : Cause} (fault : l.fault = some cause) :
    ∃ d ∈ faultsFrom path p ls, d.cause = cause := by
  induction ls generalizing p with
  | nil => cases mem
  | cons l' ls ih =>
    rcases List.mem_cons.1 mem with rfl | later
    · exact ⟨(l.token path p).diagnostic cause, by simp [faultsFrom, fault], rfl⟩
    · obtain ⟨d, found, same⟩ := ih _ later
      exact ⟨d, List.mem_append_right _ found, same⟩

namespace Scanner

/-- **Scanning goes line by line.**  When no comment is left open before the end of a line, scanning
gives the tokens before it, the end of the line where the input ended before, and the tokens behind
it with their lines counted on; and so for the diagnostics. -/
theorem scan_line_end {path a : String}
    (finished : ∀ d ∈ (scan path a).2, d.cause ≠ .unterminatedComment) (b : String) :
    ∃ tokens last, (scan path a).1 = tokens ++ [last] ∧ last.kind = .eof ∧
      (scan path (a ++ "\n" ++ b)).1 =
        tokens ++ { last with kind := .newline, lexeme := "\n" } ::
          (scan path b).1.map (Token.below (a.toList.count '\n' + 1)) ∧
      (scan path (a ++ "\n" ++ b)).2 =
        (scan path a).2 ++ (scan path b).2.map (Diagnostic.below (a.toList.count '\n' + 1)) := by
  have chars : (a ++ "\n" ++ b).toList = a.toList ++ '\n' :: b.toList := by simp
  have place : Position.advance (Position.advance {} a.toList) newlineLexeme.chars =
      Position.below (a.toList.count '\n' + 1) {} := by
    show Position.advance (Position.advance {} a.toList) ['\n'] = _
    rw [← Position.advance_append, Position.advance_newline]
  have whole : Position.advance {} (a.toList ++ '\n' :: b.toList) =
      (Position.advance {} b.toList).below (a.toList.count '\n' + 1) := by
    rw [List.append_cons, Position.advance_append, Position.advance_newline,
      Position.advance_below]
  have lexemes := lexemesOf_append_newline (a := a.toList) (fun l listed fault => by
    obtain ⟨d, found, cause⟩ := exists_mem_faultsFrom path {} listed fault
    exact finished d (by rwa [scan_eq]) cause) b.toList
  refine ⟨tokensFrom path {} (lexemesOf a.toList), _, by rw [scan_eq], rfl, ?_, ?_⟩
  · rw [scan_eq, chars, lexemes, tokensFrom_append, flatMap_chars_lexemesOf, tokensFrom, whole,
      place, tokensFrom_below, scan_eq path b, List.map_append, List.append_assoc]
    rfl
  · rw [scan_eq, chars, lexemes, faultsFrom_append, flatMap_chars_lexemesOf, faultsFrom, place,
      faultsFrom_below, scan_eq path b, scan_eq path a]
    rfl

/-- A string that is left open behind a backslash, with more lines below it. -/
theorem scan_line_end_open :
    (∀ d ∈ (scan "room.s" "db \"x\\").2, d.cause ≠ .unterminatedComment) ∧
      (scan "room.s" ("db \"x\\" ++ "\n" ++ "\n\"y")).1 =
        [⟨.symbol, "db", "room.s", 1, 1⟩, ⟨.whitespace, " ", "room.s", 1, 3⟩,
          ⟨.string, "\"x\\", "room.s", 1, 4⟩, ⟨.newline, "\n", "room.s", 1, 7⟩,
          ⟨.newline, "\n", "room.s", 2, 1⟩, ⟨.string, "\"y", "room.s", 3, 1⟩,
          ⟨.eof, "", "room.s", 3, 3⟩] ∧
      (scan "room.s" ("db \"x\\" ++ "\n" ++ "\n\"y")).2 =
        [⟨"room.s", 1, 4, .unterminatedString⟩, ⟨"room.s", 3, 1, .unterminatedString⟩] := by
  have above : scan "room.s" "db \"x\\" =
      ([⟨.symbol, "db", "room.s", 1, 1⟩, ⟨.whitespace, " ", "room.s", 1, 3⟩,
        ⟨.string, "\"x\\", "room.s", 1, 4⟩, ⟨.eof, "", "room.s", 1, 7⟩],
        [⟨"room.s", 1, 4, .unterminatedString⟩]) := by cbv
  have below : scan "room.s" "\n\"y" =
      ([⟨.newline, "\n", "room.s", 1, 1⟩, ⟨.string, "\"y", "room.s", 2, 1⟩,
        ⟨.eof, "", "room.s", 2, 3⟩], [⟨"room.s", 2, 1, .unterminatedString⟩]) := by cbv
  have finished : ∀ d ∈ (scan "room.s" "db \"x\\").2, d.cause ≠ .unterminatedComment := by
    rw [above]
    decide
  obtain ⟨tokens, last, split, -, scanned, faults⟩ := scan_line_end finished "\n\"y"
  rw [above] at split
  have front := congrArg List.dropLast split
  have final := congrArg List.getLast? split
  rw [List.dropLast_concat] at front
  rw [List.getLast?_concat] at final
  refine ⟨finished, ?_, ?_⟩
  · rw [scanned, ← front, ← Option.some.inj final, below]
    decide
  · rw [faults, above, below]
    decide

end Scanner

end RoomScript
