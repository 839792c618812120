import Mathlib.Data.List.TakeWhile
import RoomScript.Proofs.Token.Spelling

/-!
# Words next to each other

A token that has been scanned is scanned again from its own characters, and in front of other
characters too, unless the next one of them goes on with it.

* `Lexeme.goesOn` says which characters go on with a token;
* `lexeme_again` reads a token again in front of a character that does not go on with it;
* `lexeme_of_goesOn` says that a character that goes on with a token becomes a part of it.

Comments are left out: nothing ever puts them in front of other text again.
-/

namespace RoomScript

/-- A character behind a token that is read as a part of it. -/
def Lexeme.goesOn (l : Lexeme) (d : Char) : Bool :=
  match l.kind with
  | .whitespace => isLineBlank d
  | .symbol | .number | .directive => isIdentPart d
  | .string => l.fault.isSome && d != '\n'
  | .punct =>
    (l.chars == ['/'] && (d == '/' || d == '*')) ||
      ((l.chars == ['#'] || l.chars == ['.']) && isIdentStart d)
  | _ => false

/-! ## Strings -/

/-- The characters that a string takes are taken again, before the end of a line also when its
closing quote is missing. -/
theorem stringBody_again (read cs more : List Char)
    (stops : (stringBody read cs).2.2 = true ∨ headIs (· != '\n') more = false) :
    ∃ used, (stringBody read cs).1 = read.reverse ++ used ∧
      cs = used ++ (stringBody read cs).2.1 ∧
      ∀ again, stringBody again (used ++ more) =
        (again.reverse ++ used, more, (stringBody read cs).2.2) := by
  -- Without its closing quote a string is followed by a line end or by nothing.
  have ends : headIs (· != '\n') more = false → more = [] ∨ ∃ after, more = '\n' :: after := by
    intro h
    cases more with
    | nil => exact .inl rfl
    | cons d after => exact .inr ⟨after, by simpa [headIs] using h⟩
  fun_induction stringBody read cs with
  | case1 read =>
    refine ⟨[], by simp, rfl, fun again => ?_⟩
    obtain rfl | ⟨after, rfl⟩ := ends (stops.resolve_left (by simp)) <;> simp [stringBody]
  | case2 read rest =>
    refine ⟨[], by simp, rfl, fun again => ?_⟩
    obtain rfl | ⟨after, rfl⟩ := ends (stops.resolve_left (by simp)) <;> simp [stringBody]
  | case3 read rest => exact ⟨['"'], by simp, rfl, fun again => by simp [stringBody]⟩
  | case4 read rest =>
    refine ⟨['\\'], by simp, rfl, fun again => ?_⟩
    obtain rfl | ⟨after, rfl⟩ := ends (stops.resolve_left (by simp)) <;> simp [stringBody]
  | case5 read c rest line ih =>
    obtain ⟨used, chars, split, taken⟩ := ih stops
    refine ⟨'\\' :: c :: used, by simpa using chars, by simp [← split], fun again => ?_⟩
    rw [List.cons_append, List.cons_append, stringBody, taken]
    · simp
    · exact line
  | case6 read c rest line quote cut escape ih =>
    obtain ⟨used, chars, split, taken⟩ := ih stops
    refine ⟨c :: used, by simpa using chars, by rw [List.cons_append, ← split], fun again => ?_⟩
    by_cases lone : c = '\\'
    · -- A backslash that takes nothing with it stands at the end.
      subst lone
      have last : rest = [] := by
        cases rest with
        | nil => rfl
        | cons d rest => exact absurd rfl (escape d rest rfl)
      subst last
      obtain ⟨rfl, -⟩ := List.append_eq_nil_iff.1 split.symm
      have open' : ¬(stringBody ('\\' :: read) []).2.2 = true := by simp [stringBody]
      obtain rfl | ⟨after, rfl⟩ := ends (stops.resolve_left open') <;> simp [stringBody]
    · rw [List.cons_append, stringBody, taken]
      · simp
      · exact line
      · exact quote
      · exact fun _ h => absurd h lone
      · exact fun _ _ h => absurd h lone

/-- What has been read of a string stays in front of it. -/
theorem stringBody_reverse (read cs : List Char) :
    ∃ after, (stringBody read cs).1 = read.reverse ++ after := by
  obtain ⟨used, chars, -⟩ := stringBody_again read cs [] (.inr rfl)
  exact ⟨used, chars⟩

theorem stringBody_cons (read : List Char) {d : Char} (inside : d ≠ '\n') (more : List Char) :
    ∃ after, (stringBody read (d :: more)).1 = read.reverse ++ d :: after := by
  unfold stringBody
  split
  · rename_i h
    cases h
  · rename_i h
    exact absurd (List.cons.inj h).1 inside
  · rename_i h
    obtain ⟨rfl, -⟩ := List.cons.inj h
    exact ⟨[], by simp⟩
  · rename_i h
    obtain ⟨rfl, -⟩ := List.cons.inj h
    exact ⟨[], by simp⟩
  · rename_i c rest _ h
    obtain ⟨rfl, -⟩ := List.cons.inj h
    obtain ⟨after, chars⟩ := stringBody_reverse (c :: '\\' :: read) rest
    exact ⟨c :: after, by simp [chars]⟩
  · rename_i c rest _ _ _ _ h
    obtain ⟨rfl, -⟩ := List.cons.inj h
    obtain ⟨after, chars⟩ := stringBody_reverse (d :: read) rest
    exact ⟨after, by simp [chars]⟩

/-- A string without its closing quote takes the next character of its line too. -/
theorem stringBody_of_open {read cs chars : List Char}
    (unclosed : stringBody read cs = (chars, [], false)) {d : Char} (inside : d ≠ '\n')
    (more : List Char) :
    ∃ after, (stringBody read (cs ++ d :: more)).1 = chars ++ d :: after := by
  fun_induction stringBody read cs with
  | case1 read =>
    cases unclosed
    exact stringBody_cons read inside more
  | case2 read rest => cases unclosed
  | case3 read rest => cases unclosed
  | case4 read rest => cases unclosed
  | case5 read c rest line ih =>
    rw [List.cons_append, List.cons_append, stringBody]
    · exact ih unclosed
    · exact line
  | case6 read c rest line quote cut escape ih =>
    by_cases lone : c = '\\'
    · subst lone
      have last : rest = [] := by
        cases rest with
        | nil => rfl
        | cons e rest => exact absurd rfl (escape e rest rfl)
      subst last
      obtain ⟨rfl, -⟩ : chars = read.reverse ++ ['\\'] ∧ True := by
        simpa [stringBody, eq_comm] using unclosed
      obtain ⟨after, found⟩ := stringBody_reverse (d :: '\\' :: read) more
      refine ⟨after, ?_⟩
      rw [List.cons_append, List.nil_append, stringBody, found]
      · simp
      · exact inside
    · rw [List.cons_append, stringBody]
      · exact ih unclosed
      · exact line
      · exact quote
      · exact fun _ h => absurd h lone
      · exact fun _ _ h => absurd h lone

/-! ## Tokens that are read again -/

/-- Only strings and comments can have faults. -/
theorem lexeme_fault (c : Char) (cs : List Char) (text : (lexeme c cs).kind ≠ .string)
    (code : (lexeme c cs).kind ≠ .comment) : (lexeme c cs).fault = none := by
  revert text code
  fun_cases lexeme c cs <;> simp [Lexeme.run]

theorem headIs_append {part : Char → Bool} {word : List Char} (first : headIs part word = true)
    (more : List Char) : headIs part (word ++ more) = true := by
  cases word with
  | nil => cases first
  | cons d word => exact first

theorem headIs_takeWhile {sub part : Char → Bool} (within : ∀ c, sub c = true → part c = true)
    {rest : List Char} (first : headIs sub rest = true) :
    headIs sub (rest.takeWhile part) = true := by
  cases rest with
  | nil => cases first
  | cons d rest =>
    have inside : part d = true := within d first
    rw [List.takeWhile_cons_of_pos inside]
    exact first

theorem isIdentPart_of_isIdentStart {c : Char} (start : isIdentStart c = true) :
    isIdentPart c = true := by
  rw [isIdentPart, start, Bool.true_or]

/-- A run of a class is taken again before a character that is not of the class. -/
theorem Lexeme.run_again (kind : Token.Kind) (first : List Char) {part : Char → Bool}
    (rest : List Char) {more : List Char} (stops : headIs part more = false) :
    Lexeme.run kind first part (rest.takeWhile part ++ more) =
      { Lexeme.run kind first part rest with rest := more } :=
  run_of_all (fun _ => List.mem_takeWhile_imp) stops

theorem lexeme_hash {rest : List Char} (start : headIs isIdentStart rest = true) :
    lexeme '#' rest = .run .directive ['#'] isIdentPart rest := by
  simp [lexeme, isLineBlank, start]

theorem lexeme_dot {rest : List Char} (start : headIs isIdentStart rest = true) :
    lexeme '.' rest = .run .symbol ['.'] isIdentPart rest := by
  simp [lexeme, isLineBlank, start]

/-- A token that is not a comment is read again from its own characters, in front of any text that
does not go on with it. -/
theorem lexeme_again (c : Char) (rest : List Char) (solid : (lexeme c rest).kind ≠ .comment)
    (more : List Char) (apart : headIs (lexeme c rest).goesOn more = false) :
    ∃ word, (lexeme c rest).chars = c :: word ∧
      lexeme c (word ++ more) = { lexeme c rest with rest := more } := by
  have within : ∀ d, isIdentStart d = true → isIdentPart d = true := fun _ =>
    isIdentPart_of_isIdentStart
  revert solid apart
  fun_cases lexeme c rest <;> intro solid apart
  case case1 newline => exact ⟨[], rfl, by rw [lexeme, if_pos newline]; rfl⟩
  case case2 newline blank =>
    refine ⟨rest.takeWhile isLineBlank, rfl, ?_⟩
    rw [lexeme, if_neg newline, if_pos blank]
    exact Lexeme.run_again _ _ _ apart
  case case3 => exact absurd rfl solid
  case case4 => exact absurd rfl solid
  case case5 directive =>
    obtain ⟨hash, start⟩ := Bool.and_eq_true_iff.1 directive
    obtain rfl := eq_of_beq hash
    refine ⟨rest.takeWhile isIdentPart, rfl, ?_⟩
    rw [lexeme_hash (headIs_append (headIs_takeWhile within start) more)]
    exact Lexeme.run_again _ _ _ apart
  case case6 dotted =>
    obtain ⟨dot, start⟩ := Bool.and_eq_true_iff.1 dotted
    obtain rfl := eq_of_beq dot
    refine ⟨rest.takeWhile isIdentPart, rfl, ?_⟩
    rw [lexeme_dot (headIs_append (headIs_takeWhile within start) more)]
    exact Lexeme.run_again _ _ _ apart
  case case7 start =>
    have unmarked := notMem_marks_of_isIdentPart (within c start)
    refine ⟨rest.takeWhile isIdentPart, rfl, ?_⟩
    rw [lexeme_of_notMem_marks unmarked, if_pos start]
    exact Lexeme.run_again _ _ _ apart
  case case8 start digit =>
    have part : isIdentPart c = true := by rw [isIdentPart, digit, Bool.or_true]
    refine ⟨rest.takeWhile isIdentPart, rfl, ?_⟩
    rw [lexeme_of_notMem_marks (notMem_marks_of_isIdentPart part), if_neg start, if_pos digit]
    exact Lexeme.run_again _ _ _ apart
  case case9 quote body after closed taken =>
    obtain rfl := eq_of_beq quote
    have stops : (stringBody [] rest).2.2 = true ∨ headIs (· != '\n') more = false := by
      rw [taken]
      cases closed with
      | true => exact .inl rfl
      | false => exact .inr apart
    obtain ⟨used, chars, -, again⟩ := stringBody_again [] rest more stops
    rw [taken] at chars again
    obtain rfl : body = used := chars
    refine ⟨body, rfl, ?_⟩
    simp [lexeme, isLineBlank, isIdentStart, again]
  case case10 newline blank comment opened directive dotted start digit quote =>
    refine ⟨[], rfl, ?_⟩
    -- Only behind a slash, a hash or a dot does the next character matter.
    by_cases slash : c = '/'
    · subst slash
      have one : headIs (· == '/') more = false ∧ headIs (· == '*') more = false := by
        cases more with
        | nil => exact ⟨rfl, rfl⟩
        | cons d more => simpa [headIs, Lexeme.goesOn, singleKind] using apart
      simp [lexeme, isLineBlank, isIdentStart, one]
    · by_cases mark : c = '#' ∨ c = '.'
      · have one : headIs isIdentStart more = false := by
          cases more with
          | nil => rfl
          | cons d more =>
            obtain rfl | rfl := mark <;> simpa [headIs, Lexeme.goesOn, singleKind] using apart
        obtain rfl | rfl := mark <;> simp [lexeme, isLineBlank, isIdentStart, one]
      · obtain ⟨hash, dot⟩ := not_or.1 mark
        have unmarked : c ∉ marks := by
          simp [isLineBlank] at newline blank comment quote
          simp [marks, newline, blank, comment, quote, slash, hash, dot]
        rw [List.nil_append, lexeme_of_notMem_marks unmarked, if_neg start, if_neg digit]

/-! ## Tokens that go on -/

/-- A run of a class takes the next character of the class too. -/
theorem Lexeme.run_of_goesOn {kind : Token.Kind} {first word : List Char} {part : Char → Bool}
    (alone : (Lexeme.run kind first part word).rest = []) {d : Char} (goes : part d = true)
    (more : List Char) :
    ∃ after, (Lexeme.run kind first part (word ++ d :: more)).chars =
      first ++ word ++ d :: after := by
  have all : ∀ e ∈ word, part e = true := List.dropWhile_eq_nil_iff.1 alone
  refine ⟨more.takeWhile part, ?_⟩
  rw [run, List.takeWhile_append_of_pos all, List.takeWhile_cons_of_pos goes, List.append_assoc]

/-- A character that goes on with a token becomes a part of it. -/
theorem lexeme_of_goesOn {c : Char} {word : List Char} (alone : (lexeme c word).rest = [])
    {d : Char} (goes : (lexeme c word).goesOn d = true) (more : List Char) :
    ∃ after, (lexeme c (word ++ d :: more)).chars = c :: word ++ d :: after := by
  revert alone goes
  fun_cases lexeme c word <;> intro alone goes
  case case1 newline => cases goes
  case case2 newline blank =>
    rw [lexeme, if_neg newline, if_pos blank]
    exact Lexeme.run_of_goesOn alone goes more
  case case3 => cases goes
  case case4 => cases goes
  case case5 directive =>
    obtain ⟨hash, start⟩ := Bool.and_eq_true_iff.1 directive
    obtain rfl := eq_of_beq hash
    rw [lexeme_hash (headIs_append start (d :: more))]
    exact Lexeme.run_of_goesOn alone goes more
  case case6 dotted =>
    obtain ⟨dot, start⟩ := Bool.and_eq_true_iff.1 dotted
    obtain rfl := eq_of_beq dot
    rw [lexeme_dot (headIs_append start (d :: more))]
    exact Lexeme.run_of_goesOn alone goes more
  case case7 start =>
    have unmarked := notMem_marks_of_isIdentPart (isIdentPart_of_isIdentStart start)
    rw [lexeme_of_notMem_marks unmarked, if_pos start]
    exact Lexeme.run_of_goesOn alone goes more
  case case8 start digit =>
    have part : isIdentPart c = true := by rw [isIdentPart, digit, Bool.or_true]
    rw [lexeme_of_notMem_marks (notMem_marks_of_isIdentPart part), if_neg start, if_pos digit]
    exact Lexeme.run_of_goesOn alone goes more
  case case9 quote body rest closed taken =>
    obtain rfl := eq_of_beq quote
    obtain rfl : rest = [] := alone
    cases closed with
    | true => cases goes
    | false =>
      have inside : d ≠ '\n' := by simpa [Lexeme.goesOn] using goes
      have body_eq : body = word := by simpa [taken] using stringBody_append [] word
      obtain ⟨after, chars⟩ := stringBody_of_open taken inside more
      refine ⟨after, ?_⟩
      simp [lexeme, isLineBlank, isIdentStart, chars, body_eq]
  case case10 newline blank comment opened directive dotted start digit quote =>
    obtain rfl : word = [] := alone
    -- Only a slash, a hash and a dot are gone on with.
    have joins : c = '/' ∧ (d = '/' ∨ d = '*') ∨ (c = '#' ∨ c = '.') ∧ isIdentStart d = true := by
      revert goes
      fun_cases singleKind c <;> simp [Lexeme.goesOn]
    obtain ⟨rfl, rfl | rfl⟩ | ⟨rfl | rfl, letter⟩ := joins
    · exact ⟨more.takeWhile (· != '\n'), by simp [lexeme, isLineBlank, headIs, Lexeme.run]⟩
    · exact ⟨(commentBody [] more).1, by simp [lexeme, isLineBlank, headIs]⟩
    · have part := isIdentPart_of_isIdentStart letter
      exact ⟨more.takeWhile isIdentPart,
        by simp [lexeme, isLineBlank, headIs, Lexeme.run, letter, part]⟩
    · have part := isIdentPart_of_isIdentStart letter
      exact ⟨more.takeWhile isIdentPart,
        by simp [lexeme, isLineBlank, headIs, Lexeme.run, letter, part]⟩

end RoomScript
