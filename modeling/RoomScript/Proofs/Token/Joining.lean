import RoomScript.Proofs.Preprocess.Plain
import RoomScript.Proofs.Token.Lexemes

/-!
# Tokens in a row

The lexemes of tokens, put together without anything between them, give the same tokens again just
when no token goes on with the character behind it.

* `tokensOf` are the tokens of a text without their places; `Scanner.scan_eq_tokensOf` says so;
* `Token.IsWord` are the tokens that are scanned again from their own characters;
* `apart` says that no token of a row goes on with the next one, and `filter_isLayout_eq_iff` that
  only then the row is scanned again.
-/

namespace RoomScript

/-! ## The tokens of a text -/

/-- The tokens of a text, without places and without an end token. -/
def tokensOf : List Char → List Token
  | [] => []
  | c :: cs => .ofChars (lexeme c cs).kind (lexeme c cs).chars :: tokensOf (lexeme c cs).rest
termination_by text => text.length
decreasing_by exact Nat.lt_succ_of_le (length_lexeme_rest c cs)

theorem tokensOf_cons (c : Char) (cs : List Char) : tokensOf (c :: cs) =
    .ofChars (lexeme c cs).kind (lexeme c cs).chars :: tokensOf (lexeme c cs).rest := by
  rw [tokensOf]

/-- The lexemes of a text are its tokens without places. -/
theorem map_bare_tokensFrom (path : String) (p : Position) (text : List Char) :
    (tokensFrom path p (lexemesOf text)).map Token.bare = tokensOf text := by
  fun_induction tokensOf text generalizing p with
  | case1 =>
    rw [lexemesOf]
    rfl
  | case2 c cs ih =>
    rw [lexemesOf_cons, tokensFrom, List.map_cons, ih]
    simp [Lexeme.token, Lexeme.alone, Token.bare]

/-- The scanned tokens of a text, their places apart. -/
theorem Scanner.scan_eq_tokensOf (path text : String) :
    ∃ ts eof, (scan path text).1 = ts ++ [eof] ∧ ts.map Token.bare = tokensOf text.toList ∧
      eof.kind = .eof :=
  ⟨_, _, by rw [scan_eq], map_bare_tokensFrom path {} text.toList, rfl⟩

/-- A text without strings and comments spells its tokens. -/
theorem spells_tokensOf {text : List Char}
    (plain : ∀ t ∈ tokensOf text, t.kind ≠ .string ∧ t.kind ≠ .comment) :
    Spells text (tokensOf text) [] := by
  fun_induction tokensOf text with
  | case1 => exact .done []
  | case2 c cs ih =>
    obtain ⟨first, others⟩ := List.forall_mem_cons.1 plain
    exact .token (lexeme_fault c cs first.1 first.2) (ih others)

theorem tokensOf_of_spells {text : List Char} {ts : List Token} (spelled : Spells text ts []) :
    tokensOf text = ts := by
  generalize nothing : ([] : List Char) = rest at spelled
  induction spelled with
  | done =>
    rw [← nothing, tokensOf]
  | token _ _ ih => rw [tokensOf_cons, ih nothing]

theorem flatMap_chars_tokensOf (text : List Char) :
    (tokensOf text).flatMap Token.chars = text := by
  fun_induction tokensOf text with
  | case1 => rfl
  | case2 c cs ih =>
    rw [List.flatMap_cons, ih, ← lexeme_append c cs]
    simp [Token.chars]

/-! ## Words -/

/-- A token that is scanned again from its own characters. -/
def Token.IsWord (t : Token) : Prop :=
  ∃ c word fault, t.chars = c :: word ∧ t.kind ≠ .comment ∧
    RoomScript.lexeme c word = ⟨t.kind, t.chars, [], fault⟩

/-- Whether a token goes on with a character that stands right behind it. -/
def Token.goesOn (t : Token) (d : Char) : Bool :=
  match t.chars with
  | [] => false
  | c :: word => (RoomScript.lexeme c word).goesOn d

/-- Whether a token stays in a text without blanks. -/
def Token.isShown (t : Token) : Bool :=
  t.kind != .whitespace

@[simp] theorem Token.chars_ofChars (kind : Token.Kind) (chars : List Char) :
    (Token.ofChars kind chars).chars = chars := by
  simp [Token.chars]

@[simp] theorem Token.chars_bare (t : Token) : t.bare.chars = t.chars := by
  simp [Token.bare, Token.chars]

/-- A token of the scanner is a word, if it is not a comment. -/
theorem isWord_of_lexeme {t : Token} (c : Char) (cs : List Char)
    (kind : t.kind = (lexeme c cs).kind) (chars : t.chars = (lexeme c cs).chars)
    (text : t.kind ≠ .comment) : t.IsWord := by
  obtain ⟨word, first, again⟩ := lexeme_again c cs (by rwa [← kind]) [] rfl
  rw [List.append_nil] at again
  exact ⟨c, word, (lexeme c cs).fault, chars.trans first, text, by rw [again, kind, chars]⟩

/-- In front of a text that does not go on with it, a word is the first token. -/
theorem tokensOf_word {t : Token} (word : t.IsWord) {more : List Char}
    (apart : headIs t.goesOn more = false) :
    tokensOf (t.chars ++ more) = t.bare :: tokensOf more := by
  obtain ⟨c, w, fault, chars, text, alone⟩ := word
  have goes : t.goesOn = (lexeme c w).goesOn := by
    funext d
    rw [Token.goesOn, chars]
  obtain ⟨w', first, again⟩ := lexeme_again c w (by rwa [alone]) more (by rwa [← goes])
  have same : w' = w := by
    rw [alone, chars] at first
    exact (List.cons.inj first).2.symm
  rw [same, alone] at again
  rw [chars, List.cons_append, tokensOf_cons, again]
  rfl

/-- A word that is the first token of a text is not gone on with. -/
theorem apart_of_tokensOf {t : Token} (word : t.IsWord) {more : List Char} {us : List Token}
    (first : tokensOf (t.chars ++ more) = t.bare :: us) :
    headIs t.goesOn more = false ∧ us = tokensOf more := by
  have apart : headIs t.goesOn more = false := by
    by_contra joined
    obtain ⟨c, w, fault, chars, -, alone⟩ := word
    cases more with
    | nil => exact joined rfl
    | cons d more =>
      have goes : (lexeme c w).goesOn d = true := by
        simpa [headIs, Token.goesOn, chars] using joined
      obtain ⟨after, longer⟩ := lexeme_of_goesOn (by rw [alone]) goes more
      rw [chars, List.cons_append, tokensOf_cons] at first
      have same := congrArg Token.chars (List.cons.inj first).1
      rw [Token.chars_ofChars, longer, Token.chars_bare, chars] at same
      simp at same
  refine ⟨apart, ?_⟩
  rw [tokensOf_word word apart] at first
  exact (List.cons.inj first).2.symm

/-! ## Blanks -/

/-- The first token of a text is a run of blanks when the first character is a blank. -/
theorem lexeme_of_isLineBlank {c : Char} (blank : isLineBlank c = true) (cs : List Char) :
    lexeme c cs = .run .whitespace [c] isLineBlank cs := by
  have newline : ¬(c == '\n') = true := by
    intro h
    rw [eq_of_beq h] at blank
    cases blank
  rw [lexeme, if_neg newline, if_pos blank]

theorem isLineBlank_of_lexeme {c : Char} {cs : List Char}
    (blanks : (lexeme c cs).kind = .whitespace) : isLineBlank c = true := by
  revert blanks
  fun_cases lexeme c cs
  case case10 => fun_cases singleKind c <;> simp
  all_goals simp_all [Lexeme.run]

/-- A word that is a run of blanks has only blanks. -/
theorem Token.IsWord.blanks {t : Token} (word : t.IsWord) (blank : t.kind = .whitespace) :
    ∀ c ∈ t.chars, isLineBlank c = true := by
  obtain ⟨c, w, fault, chars, -, alone⟩ := word
  have first : isLineBlank c = true := isLineBlank_of_lexeme (by rw [alone, blank])
  rw [lexeme_of_isLineBlank first] at alone
  have rest : w.dropWhile isLineBlank = [] := congrArg Lexeme.rest alone
  rw [chars]
  exact List.forall_mem_cons.2 ⟨first, List.dropWhile_eq_nil_iff.1 rest⟩

/-- Characters in front of a text that are blank change nothing but blanks. -/
theorem filter_isShown_tokensOf {blanks : List Char} (blank : ∀ c ∈ blanks, isLineBlank c = true)
    (text : List Char) :
    (tokensOf (blanks ++ text)).filter Token.isShown = (tokensOf text).filter Token.isShown := by
  have one : ∀ c, isLineBlank c = true → ∀ cs : List Char,
      (tokensOf (c :: cs)).filter Token.isShown =
        (tokensOf (cs.dropWhile isLineBlank)).filter Token.isShown := by
    intro c blank cs
    rw [tokensOf_cons, lexeme_of_isLineBlank blank]
    rfl
  have dropped : ∀ cs : List Char, (tokensOf (cs.dropWhile isLineBlank)).filter Token.isShown =
      (tokensOf cs).filter Token.isShown := by
    intro cs
    cases cs with
    | nil => rfl
    | cons c cs =>
      by_cases h : isLineBlank c = true
      · rw [List.dropWhile_cons_of_pos h, one c h]
      · rw [List.dropWhile_cons_of_neg h]
  cases blanks with
  | nil => rfl
  | cons c blanks =>
    obtain ⟨first, others⟩ := List.forall_mem_cons.1 blank
    rw [List.cons_append, one c first, List.dropWhile_append_of_pos others, dropped]

/-! ## Rows of words -/

/-- No token but a run of blanks goes on with the character behind it. -/
def apart : List Token → Bool
  | [] => true
  | t :: ts => (!t.isShown || !headIs t.goesOn (ts.flatMap Token.chars)) && apart ts

theorem flatMap_chars_bare (ts : List Token) :
    (ts.map Token.bare).flatMap Token.chars = ts.flatMap Token.chars := by
  rw [List.flatMap_map]
  simp

/-- Places do not matter for it. -/
theorem apart_map_bare (ts : List Token) : apart (ts.map Token.bare) = apart ts := by
  induction ts with
  | nil => rfl
  | cons t ts ih =>
    have goes : t.bare.goesOn = t.goesOn := by
      funext d
      rw [Token.goesOn, Token.goesOn, Token.chars_bare]
    have shown : t.bare.isShown = t.isShown := rfl
    rw [List.map_cons, apart, apart, ih, flatMap_chars_bare, goes, shown]

/-- A row of words is scanned again, blanks aside, just when it is kept apart. -/
theorem filter_isShown_eq_iff {ts : List Token} (words : ∀ t ∈ ts, t.IsWord) :
    (tokensOf (ts.flatMap Token.chars)).filter Token.isShown =
        (ts.map Token.bare).filter Token.isShown ↔ apart ts = true := by
  induction ts with
  | nil => simp [tokensOf, apart]
  | cons t ts ih =>
    obtain ⟨word, others⟩ := List.forall_mem_cons.1 words
    rw [List.flatMap_cons, List.map_cons, apart]
    by_cases blank : t.kind = .whitespace
    · have hidden : t.isShown = false := by simp [Token.isShown, blank]
      have hidden' : t.bare.isShown = false := hidden
      rw [filter_isShown_tokensOf (word.blanks blank), List.filter_cons_of_neg (by simp [hidden']),
        ih others, hidden, Bool.not_false, Bool.true_or, Bool.true_and]
    · have shown : t.isShown = true := by simpa [Token.isShown] using blank
      have shown' : t.bare.isShown = true := shown
      rw [shown, Bool.not_true, Bool.false_or, Bool.and_eq_true, Bool.not_eq_true',
        List.filter_cons_of_pos shown', ← ih others]
      constructor
      · intro same
        -- The first token of the text is shown, so it is the first one of the row.
        obtain ⟨us, first⟩ : ∃ us, tokensOf (t.chars ++ ts.flatMap Token.chars) = t.bare :: us := by
          obtain ⟨c, w, fault, chars, -, alone⟩ := word
          rw [chars, List.cons_append, tokensOf_cons] at same ⊢
          have solid : (lexeme c (w ++ ts.flatMap Token.chars)).kind ≠ .whitespace := by
            intro h
            have runs := lexeme_of_isLineBlank (isLineBlank_of_lexeme h) w
            rw [alone] at runs
            exact blank (congrArg Lexeme.kind runs)
          rw [List.filter_cons_of_pos (by simpa [Token.isShown] using solid)] at same
          exact ⟨_, by rw [(List.cons.inj same).1]⟩
        obtain ⟨kept, rest⟩ := apart_of_tokensOf word first
        rw [first, List.filter_cons_of_pos shown', rest] at same
        exact ⟨kept, (List.cons.inj same).2⟩
      · rintro ⟨kept, same⟩
        rw [tokensOf_word word kept, List.filter_cons_of_pos shown', same]

/-! ## Comments -/

theorem exists_of_mem_tokensOf {text : List Char} {t : Token} (mem : t ∈ tokensOf text) :
    ∃ c cs, t = .ofChars (lexeme c cs).kind (lexeme c cs).chars := by
  fun_induction tokensOf text with
  | case1 => cases mem
  | case2 c cs ih =>
    rcases List.mem_cons.1 mem with rfl | later
    · exact ⟨c, cs, rfl⟩
    · exact ih later

/-- A comment is not blank. -/
theorem exists_solid_of_comment {text : List Char} {t : Token} (mem : t ∈ tokensOf text)
    (comment : t.kind = .comment) : ∃ c ∈ t.chars, isLineBlank c = false := by
  obtain ⟨c, cs, rfl⟩ := exists_of_mem_tokensOf mem
  refine ⟨c, ?_, ?_⟩
  · have whole := lexeme_append c cs
    cases chars : (lexeme c cs).chars with
    | nil => exact absurd chars (lexeme_ne_nil c cs)
    | cons d ds =>
      rw [chars] at whole
      simp [(List.cons.inj whole).1]
  · by_contra blank
    rw [Bool.not_eq_false] at blank
    rw [Token.ofChars_kind, lexeme_of_isLineBlank blank] at comment
    cases comment

/-- The characters of tokens that are not blanks, counted with and without the layout. -/
theorem countP_flatMap_chars (ts : List Token) :
    (ts.flatMap Token.chars).countP (! isLineBlank ·) =
      ((ts.filter (! ·.isLayout)).flatMap Token.chars).countP (! isLineBlank ·) +
        ((ts.filter (·.isLayout)).flatMap Token.chars).countP (! isLineBlank ·) := by
  have parts := (List.filter_append_perm (! ·.isLayout) ts).flatMap_right Token.chars
  rw [← parts.countP_eq, List.flatMap_append, List.countP_append]
  simp only [Bool.not_not]

theorem Token.isShown_eq {t : Token} (code : t.kind ≠ .comment) : t.isShown = !t.isLayout := by
  simp [isShown, isLayout, code, bne]

theorem filter_isLayout_of_isShown (ts : List Token) :
    (ts.filter Token.isShown).filter (! ·.isLayout) = ts.filter (! ·.isLayout) := by
  rw [List.filter_filter]
  refine List.filter_congr fun t _ => ?_
  cases layout : t.isLayout with
  | true => rfl
  | false =>
    have blank : t.kind ≠ .whitespace := by
      rintro h
      simp [Token.isLayout, h] at layout
    simp [Token.isShown, blank]

/-- A row of words has the same tokens, layout aside, as its text only when its text has no
comments. -/
theorem kind_ne_comment_of_eq {ts : List Token} (words : ∀ t ∈ ts, t.IsWord)
    (same : (tokensOf (ts.flatMap Token.chars)).filter (! ·.isLayout) =
      (ts.map Token.bare).filter (! ·.isLayout)) :
    ∀ t ∈ tokensOf (ts.flatMap Token.chars), t.kind ≠ .comment := by
  have whole : (tokensOf (ts.flatMap Token.chars)).flatMap Token.chars =
      (ts.map Token.bare).flatMap Token.chars := by
    rw [flatMap_chars_tokensOf, flatMap_chars_bare]
  -- The layout of the row is blank, so there is nothing solid in the layout of its text either.
  have blank : (((ts.map Token.bare).filter (·.isLayout)).flatMap Token.chars).countP
      (! isLineBlank ·) = 0 := by
    rw [List.countP_eq_zero]
    intro c mem
    obtain ⟨t, kept, inside⟩ := List.mem_flatMap.1 mem
    obtain ⟨mapped, layout⟩ := List.mem_filter.1 kept
    obtain ⟨u, listed, rfl⟩ := List.mem_map.1 mapped
    obtain ⟨-, -, -, -, code, -⟩ := words u listed
    have blank : u.kind = .whitespace := by
      simpa [Token.isLayout, code] using layout
    rw [Token.chars_bare] at inside
    simp [(words u listed).blanks blank c inside]
  have counted := countP_flatMap_chars (tokensOf (ts.flatMap Token.chars))
  rw [whole, countP_flatMap_chars (ts.map Token.bare), same, blank] at counted
  have none := List.countP_eq_zero.1 (Nat.add_left_cancel counted).symm
  intro t mem comment
  obtain ⟨c, inside, solid⟩ := exists_solid_of_comment mem comment
  have layout : t.isLayout = true := by simp [Token.isLayout, comment]
  exact none c (List.mem_flatMap.2 ⟨t, List.mem_filter.2 ⟨mem, layout⟩, inside⟩) (by simp [solid])

/-- A row of words is scanned again, layout aside, just when it is kept apart. -/
theorem filter_isLayout_eq_iff {ts : List Token} (words : ∀ t ∈ ts, t.IsWord) :
    (tokensOf (ts.flatMap Token.chars)).filter (! ·.isLayout) =
        (ts.map Token.bare).filter (! ·.isLayout) ↔ apart ts = true := by
  rw [← filter_isShown_eq_iff words]
  constructor
  · intro same
    have code : ∀ t ∈ ts.map Token.bare, t.kind ≠ .comment := by
      intro t mem
      obtain ⟨u, listed, rfl⟩ := List.mem_map.1 mem
      obtain ⟨-, -, -, -, code, -⟩ := words u listed
      exact code
    have text := kind_ne_comment_of_eq words same
    rw [List.filter_congr fun t mem => Token.isShown_eq (text t mem), same,
      List.filter_congr fun t mem => Token.isShown_eq (code t mem)]
  · intro same
    rw [← filter_isLayout_of_isShown, same, filter_isLayout_of_isShown]

end RoomScript
