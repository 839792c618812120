import RoomScript.Proofs.Token.Lossless
import RoomScript.Proofs.Token.Words

/-!
# Lexemes without places

A text is first cut into lexemes, which have no places, and then each lexeme gets the place where
it begins and becomes a token, and its fault a diagnostic.

* `lexemesOf` cuts a text; `tokensFrom` and `faultsFrom` put lexemes at places, and
  `Scanner.scan_eq` says that this is what scanning does;
* `HasFault` says by the characters of a lexeme which fault it has, and `fault_lexeme_iff` that it
  has just that one.
-/

namespace RoomScript

/-! ## Lexemes and their places -/

/-- A lexeme without the text behind it. -/
def Lexeme.alone (l : Lexeme) : Lexeme :=
  { l with rest := [] }

/-- The lexemes of a text. -/
def lexemesOf : List Char → List Lexeme
  | [] => []
  | c :: cs => (lexeme c cs).alone :: lexemesOf (lexeme c cs).rest
termination_by text => text.length
decreasing_by exact Nat.lt_succ_of_le (length_lexeme_rest c cs)

theorem lexemesOf_cons (c : Char) (cs : List Char) :
    lexemesOf (c :: cs) = (lexeme c cs).alone :: lexemesOf (lexeme c cs).rest := by
  rw [lexemesOf]

/-- A lexeme of a text is the first one of some text. -/
theorem exists_of_mem_lexemesOf {text : List Char} {l : Lexeme} (mem : l ∈ lexemesOf text) :
    ∃ c cs, l = (lexeme c cs).alone := by
  fun_induction lexemesOf text with
  | case1 => cases mem
  | case2 c cs ih =>
    rcases List.mem_cons.1 mem with rfl | later
    · exact ⟨c, cs, rfl⟩
    · exact ih later

/-- The lexemes of a text make up the text. -/
theorem flatMap_chars_lexemesOf (text : List Char) :
    (lexemesOf text).flatMap Lexeme.chars = text := by
  fun_induction lexemesOf text with
  | case1 => rfl
  | case2 c cs ih =>
    rw [List.flatMap_cons, ih]
    exact lexeme_append c cs

/-- A lexeme at a place. -/
def Lexeme.token (l : Lexeme) (path : String) (p : Position) : Token :=
  ⟨l.kind, String.ofList l.chars, path, p.line, p.column⟩

/-- The end of the input at a place. -/
def Position.endToken (p : Position) (path : String) : Token :=
  ⟨.eof, "", path, p.line, p.column⟩

/-- The tokens of lexemes in a row from a place on. -/
def tokensFrom (path : String) (p : Position) : List Lexeme → List Token
  | [] => []
  | l :: ls => l.token path p :: tokensFrom path (p.advance l.chars) ls

/-- The diagnostics of lexemes in a row from a place on. -/
def faultsFrom (path : String) (p : Position) : List Lexeme → List Diagnostic
  | [] => []
  | l :: ls =>
    (l.fault.map (l.token path p).diagnostic).toList ++ faultsFrom path (p.advance l.chars) ls

section Places

variable {path : String}

theorem Position.advance_append (p : Position) (cs ds : List Char) :
    p.advance (cs ++ ds) = (p.advance cs).advance ds :=
  List.foldl_append

theorem tokensFrom_append (p : Position) (ls ms : List Lexeme) :
    tokensFrom path p (ls ++ ms) =
      tokensFrom path p ls ++ tokensFrom path (p.advance (ls.flatMap Lexeme.chars)) ms := by
  induction ls generalizing p with
  | nil => rfl
  | cons l ls ih =>
    rw [List.flatMap_cons, Position.advance_append, List.cons_append, tokensFrom, ih]
    rfl

theorem faultsFrom_append (p : Position) (ls ms : List Lexeme) :
    faultsFrom path p (ls ++ ms) =
      faultsFrom path p ls ++ faultsFrom path (p.advance (ls.flatMap Lexeme.chars)) ms := by
  induction ls generalizing p with
  | nil => rfl
  | cons l ls ih =>
    rw [List.flatMap_cons, Position.advance_append, List.cons_append, faultsFrom, faultsFrom, ih,
      List.append_assoc]

theorem exists_of_mem_tokensFrom {p : Position} {ls : List Lexeme} {t : Token}
    (mem : t ∈ tokensFrom path p ls) : ∃ l ∈ ls, ∃ q, t = l.token path q := by
  induction ls generalizing p with
  | nil => cases mem
  | cons l ls ih =>
    rcases List.mem_cons.1 mem with rfl | later
    · exact ⟨l, List.mem_cons_self, p, rfl⟩
    · obtain ⟨l', listed, place⟩ := ih later
      exact ⟨l', List.mem_cons_of_mem l listed, place⟩

end Places

namespace Scanner

theorem next_of_nil {s : Scanner} (h : s.rest = []) :
    s.next = (s.position.endToken s.path, none, { s with finished := true }) := by
  rw [next, h]
  rfl

theorem next_of_cons {s : Scanner} {c : Char} {cs : List Char} (h : s.rest = c :: cs) :
    s.next = ((lexeme c cs).token s.path s.position,
      (lexeme c cs).fault.map ((lexeme c cs).token s.path s.position).diagnostic,
      { s with rest := (lexeme c cs).rest,
               position := s.position.advance (lexeme c cs).chars }) := by
  rw [next, h]
  rfl

/-- The tokens of a scanner, the end included. -/
def tokens (s : Scanner) : List Token :=
  tokensFrom s.path s.position (lexemesOf s.rest) ++
    [(s.position.advance s.rest).endToken s.path]

/-- The faults in the text ahead of a scanner. -/
def faults (s : Scanner) : List Diagnostic :=
  faultsFrom s.path s.position (lexemesOf s.rest)

theorem tokens_of_cons {s : Scanner} {c : Char} {cs : List Char} (h : s.rest = c :: cs) :
    s.tokens = s.next.1 :: s.next.2.2.tokens := by
  have place : s.position.advance (c :: cs) =
      (s.position.advance (lexeme c cs).chars).advance (lexeme c cs).rest := by
    rw [← Position.advance_append, lexeme_append]
  rw [next_of_cons h, tokens, tokens, h, lexemesOf_cons, place]
  rfl

theorem faults_of_cons {s : Scanner} {c : Char} {cs : List Char} (h : s.rest = c :: cs) :
    s.faults = s.next.2.1.toList ++ s.next.2.2.faults := by
  rw [next_of_cons h, faults, faults, h, lexemesOf_cons]
  rfl

/-- Scanning on adds the tokens and the faults of the text ahead. -/
theorem scanOnto_eq (s : Scanner) (tokens : Array Token) (found : Array Diagnostic) :
    (s.scanOnto tokens found).1.toList = tokens.toList ++ s.tokens ∧
      (s.scanOnto tokens found).2.toList = found.toList ++ s.faults := by
  fun_induction scanOnto s tokens found with
  | case1 s tokens found pulled tokens' found' ended =>
    cases text : s.rest with
    | nil =>
      simp [tokens', found', pulled, next_of_nil text, Scanner.tokens, faults, text, lexemesOf,
        tokensFrom, faultsFrom, Position.advance]
    | cons c cs =>
      simp only [pulled, next_of_cons text] at ended
      exact absurd ended (lexeme_kind_ne_eof c cs)
  | case2 s tokens found pulled tokens' found' going ih =>
    cases text : s.rest with
    | nil => simp [pulled, next_of_nil text, Position.endToken] at going
    | cons c cs =>
      have added : found'.toList = found.toList ++ s.next.2.1.toList := by
        simp only [found', pulled]
        cases s.next.2.1 <;> simp
      rw [ih.1, ih.2, tokens_of_cons text, faults_of_cons text, added]
      simp [tokens', pulled]

/-- Scanning a text puts its lexemes at their places. -/
theorem scan_eq (path text : String) :
    scan path text =
      (tokensFrom path {} (lexemesOf text.toList) ++
          [(Position.advance {} text.toList).endToken path],
        faultsFrom path {} (lexemesOf text.toList)) := by
  obtain ⟨scanned, found⟩ := (ofText path text).scanOnto_eq #[] #[]
  exact Prod.ext (scanned.trans (List.nil_append _)) (found.trans (List.nil_append _))

end Scanner

/-! ## Faults -/

/-- The number of backslashes at the end of a text. -/
def escapes (text : List Char) : ℕ :=
  (text.reverse.takeWhile (· == '\\')).length

/-- A string with a quote at its end, other than the first one, that no backslash escapes. -/
def IsClosed (string : List Char) : Prop :=
  ∃ inside, string = '"' :: (inside ++ ['"']) ∧ Even (escapes inside)

/-- The fault that characters have as a lexeme of a class. -/
inductive HasFault (kind : Token.Kind) (chars : List Char) : Cause → Prop
  | string (isString : kind = .string) (unclosed : ¬IsClosed chars) :
    HasFault kind chars .unterminatedString
  | comment {body : List Char} (isComment : kind = .comment) (opened : chars = '/' :: '*' :: body)
    (unclosed : ¬['*', '/'] <:+: body) : HasFault kind chars .unterminatedComment

@[simp] theorem escapes_append_singleton (text : List Char) (c : Char) :
    escapes (text ++ [c]) = if c = '\\' then escapes text + 1 else 0 := by
  by_cases h : c = '\\' <;> simp [escapes, h]

/-- No quote has ended a string: what has been read of it ends with pairs of backslashes, or with
a character after such pairs and one more. -/
structure Inside (text : List Char) : Prop where
  pairs : Even (escapes text)
  unended : ∀ before, text = before ++ ['"'] → ¬Even (escapes before)

theorem Inside.nil : Inside [] where
  pairs := by decide
  unended := by simp

/-- A character that is neither a quote nor a backslash keeps a string open. -/
theorem Inside.plain {text : List Char} {c : Char} (quote : c ≠ '"') (escape : c ≠ '\\') :
    Inside (text ++ [c]) where
  pairs := by simp [escape]
  unended := by simp [quote]

/-- A character behind a backslash keeps a string open. -/
theorem Inside.escaped {text : List Char} (inside : Inside text) (c : Char) :
    Inside (text ++ ['\\'] ++ [c]) where
  pairs := by
    have pairs := inside.pairs
    rw [escapes_append_singleton, escapes_append_singleton, if_pos rfl]
    split
    · exact pairs.add even_two
    · exact Even.zero
  unended := by
    intro before same
    obtain ⟨rfl, -⟩ := List.append_inj' same rfl
    simpa [Nat.even_add_one] using inside.pairs

/-- A string that ends where it is not open ends with a quote that is not escaped. -/
theorem stringBody_closed_iff (read cs : List Char) (inside : Inside read.reverse) :
    (stringBody read cs).2.2 = true ↔
      ∃ body, (stringBody read cs).1 = body ++ ['"'] ∧ Even (escapes body) := by
  fun_induction stringBody read cs with
  | case1 read => simpa using inside.unended
  | case2 read rest => simpa using inside.unended
  | case3 read rest => exact ⟨fun _ => ⟨read.reverse, by simp, inside.pairs⟩, fun _ => rfl⟩
  | case4 read rest => simp
  | case5 read c rest line ih => exact ih (by simpa using inside.escaped c)
  | case6 read c rest line quote cut escape ih =>
    by_cases lone : c = '\\'
    · -- A backslash that takes nothing with it stands at the end.
      subst lone
      have last : rest = [] := by
        cases rest with
        | nil => rfl
        | cons d rest => exact absurd rfl (escape d rest rfl)
      simp [last, stringBody]
    · exact ih (by simpa using Inside.plain quote lone)

/-- The characters that a comment takes are taken again, in front of nothing also when its closing
mark is missing.  The closing mark is there just when it is among them. -/
theorem commentBody_again (read cs : List Char) :
    ∃ used, (commentBody read cs).1 = read.reverse ++ used ∧
      cs = used ++ (commentBody read cs).2.1 ∧
      ((commentBody read cs).2.2 = true ↔ ['*', '/'] <:+: used) ∧
      ∀ more, (commentBody read cs).2.2 = true ∨ more = [] → ∀ again,
        commentBody again (used ++ more) =
          (again.reverse ++ used, more, (commentBody read cs).2.2) := by
  fun_induction commentBody read cs with
  | case1 read rest =>
    exact ⟨['*', '/'], by simp, rfl, by simp, fun more _ again => by simp [commentBody]⟩
  | case2 read c rest mark ih =>
    obtain ⟨used, chars, split, closed, taken⟩ := ih
    have apart : ∀ more, (commentBody (c :: read) rest).2.2 = true ∨ more = [] →
        ∀ after, c = '*' → used ++ more = '/' :: after → False := by
      intro more stops after star slash
      cases used with
      | nil =>
        obtain rfl := stops.resolve_left (by simp [closed])
        cases slash
      | cons d used =>
        obtain ⟨rfl, -⟩ := List.cons.inj slash
        exact mark _ star split
    refine ⟨c :: used, by simpa using chars, by rw [List.cons_append, ← split], ?_, ?_⟩
    · rw [closed, List.infix_cons_iff]
      refine ⟨.inr, fun found => found.resolve_left ?_⟩
      rintro ⟨after, begins⟩
      obtain ⟨star, slash⟩ := List.cons.inj begins
      exact apart [] (.inr rfl) after star.symm (by rw [List.append_nil]; exact slash.symm)
    · intro more stops again
      rw [List.cons_append, commentBody, taken more stops]
      · simp
      · exact apart more stops
  | case3 read =>
    refine ⟨[], by simp, rfl, by simp, fun more stops again => ?_⟩
    obtain rfl := stops.resolve_left (by simp)
    simp [commentBody]

/-- Only strings and comments have faults, each its own. -/
theorem HasFault.kind_eq {kind : Token.Kind} {chars : List Char} {cause : Cause}
    (fault : HasFault kind chars cause) :
    kind = .string ∧ cause = .unterminatedString ∨
      kind = .comment ∧ cause = .unterminatedComment := by
  cases fault with
  | string isString _ => exact .inl ⟨isString, rfl⟩
  | comment isComment _ _ => exact .inr ⟨isComment, rfl⟩

theorem hasFault_string_iff {chars : List Char} {cause : Cause} :
    HasFault .string chars cause ↔ cause = .unterminatedString ∧ ¬IsClosed chars := by
  constructor
  · intro fault
    cases fault with
    | string _ unclosed => exact ⟨rfl, unclosed⟩
    | comment isComment _ _ => cases isComment
  · rintro ⟨rfl, unclosed⟩
    exact .string rfl unclosed

theorem hasFault_comment_iff {body : List Char} {cause : Cause} :
    HasFault .comment ('/' :: '*' :: body) cause ↔
      cause = .unterminatedComment ∧ ¬['*', '/'] <:+: body := by
  constructor
  · intro fault
    cases fault with
    | string isString _ => cases isString
    | comment _ opened unclosed =>
      obtain ⟨-, rest⟩ := List.cons.inj opened
      obtain ⟨-, rfl⟩ := List.cons.inj rest
      exact ⟨rfl, unclosed⟩
  · rintro ⟨rfl, unclosed⟩
    exact .comment rfl rfl unclosed

theorem isClosed_cons {body : List Char} :
    IsClosed ('"' :: body) ↔ ∃ inside, body = inside ++ ['"'] ∧ Even (escapes inside) := by
  simp [IsClosed]

/-- A fault that is there just when something is not closed. -/
theorem unclosed_fault_iff {closed : Bool} {fault cause : Cause} :
    (if closed then none else some fault) = some cause ↔ cause = fault ∧ ¬closed = true := by
  cases closed <;> simp [eq_comm]

/-- A lexeme has just the fault that its characters have. -/
theorem fault_lexeme_iff (c : Char) (cs : List Char) (cause : Cause) :
    (lexeme c cs).fault = some cause ↔ HasFault (lexeme c cs).kind (lexeme c cs).chars cause := by
  by_cases text : (lexeme c cs).kind = .string ∨ (lexeme c cs).kind = .comment
  · revert text
    fun_cases lexeme c cs <;> intro text
    case case3 line =>
      refine ⟨fun none_some => absurd none_some (Option.some_ne_none cause).symm, fun fault => ?_⟩
      cases fault with
      | string isString _ => cases isString
      | comment _ opened _ =>
        -- A comment that ends with its line does not open with a star.
        obtain ⟨rfl, star⟩ := List.cons.inj opened
        cases cs with
        | nil => cases star
        | cons d cs =>
          obtain rfl : d = '/' := by simpa [headIs] using line
          cases star
    case case4 block body after closed taken =>
      obtain ⟨slash, -⟩ := Bool.and_eq_true_iff.1 block
      obtain rfl := eq_of_beq slash
      obtain ⟨used, chars, -, ends, -⟩ := commentBody_again [] cs.tail
      rw [taken] at chars ends
      obtain rfl : body = used := chars
      rw [unclosed_fault_iff, hasFault_comment_iff, ends]
    case case9 quote body after closed taken =>
      obtain rfl := eq_of_beq quote
      have ends := stringBody_closed_iff [] cs .nil
      rw [taken] at ends
      rw [unclosed_fault_iff, hasFault_string_iff, isClosed_cons, ends]
    case case10 => revert text; fun_cases singleKind c <;> simp
    all_goals simp [Lexeme.run] at text
  · obtain ⟨notString, notComment⟩ := not_or.1 text
    rw [lexeme_fault c cs notString notComment]
    refine ⟨fun none_some => absurd none_some (Option.some_ne_none cause).symm, fun fault => ?_⟩
    rcases fault.kind_eq with ⟨isString, -⟩ | ⟨isComment, -⟩
    · exact absurd isString notString
    · exact absurd isComment notComment

end RoomScript
