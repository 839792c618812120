import RoomScript.Command.Run
import RoomScript.Proofs.Assembly.Kinds
import RoomScript.Proofs.Assembly.Places
import RoomScript.Proofs.Preprocess.Inclusion
import RoomScript.Proofs.Preprocess.Lasting
import RoomScript.Proofs.Token.Joining

/-!
# Printing expanded text

An expanded text is printed without its comments, and nothing is put in their places.  What is
printed has the tokens of the expanded text just when no printed token goes on with the next one.

* `Token.Printable` is what all expanded tokens are, and `printable_of_expand` says so;
* `Token.content` leaves the layout and the places out;
* `Command.runPreprocess_faithful_iff` is about the text that the command prints, and what it
  assembles to.
-/

namespace RoomScript

/-! ## Expanded tokens -/

/-- A comment, an end token, or a token that is scanned again from its own characters. -/
def Token.Printable (t : Token) : Prop :=
  t.kind = .comment ∨ t.kind = .eof ∧ t.chars = [] ∨ t.IsWord

theorem Token.lasting_printable : Token.Lasting Token.Printable where
  scanned s := by
    cases text : s.rest with
    | nil =>
      refine .inr (.inl ?_)
      simp [Scanner.next, text, chars]
    | cons c cs =>
      by_cases comment : (RoomScript.lexeme c cs).kind = .comment
      · refine .inl ?_
        simpa [Scanner.next, text] using comment
      · refine .inr (.inr (isWord_of_lexeme c cs ?_ ?_ ?_))
        · simp [Scanner.next, text]
        · simp [Scanner.next, text, chars]
        · simpa [Scanner.next, text] using comment
  ended place := .inr (.inl ⟨rfl, rfl⟩)
  blank t _ := by
    have blank : RoomScript.lexeme ' ' [] = ⟨.whitespace, [' '], [], none⟩ :=
      lexeme_of_isLineBlank rfl []
    refine .inr (.inr (isWord_of_lexeme ' ' [] ?_ ?_ ?_))
    · rw [blank]
    · simp [blank, chars]
    · simp

/-- Macros that are defined beforehand have printable bodies. -/
theorem printable_of_defines (defines : List (String × String)) {p : Preprocessor}
    (macros : p.macros.All Token.Printable) :
    (defines.foldl (fun (q : Preprocessor) d => q.define d.1 d.2) p).macros.All
      Token.Printable := by
  induction defines generalizing p with
  | nil => exact macros
  | cons d defines ih => exact ih (Preprocessor.all_define Token.lasting_printable macros _ _)

/-- An expanded file is a text and an end token. -/
theorem Preprocessor.expand_eq_append (p : Preprocessor) (lib : Library) (path : String) :
    ∃ ts eof q, p.expand lib path = (ts ++ [eof], q) ∧ NoEnd ts ∧ eof.kind = .eof := by
  cases read : lib.read path with
  | error reason =>
    refine ⟨[], ⟨.eof, "", path, 1, 1⟩, p.report ⟨path, 0, 0, .includeNotFound path reason⟩, ?_,
      noEnd_nil, rfl⟩
    let s : Stream := { path, reader := .ofTokens [], last := ⟨.eof, "", path, 1, 1⟩, done := true }
    have started : p.stream lib path = (s, p.report ⟨path, 0, 0, .includeNotFound path reason⟩) := by
      simp only [stream, read, s]
    have filled := Stream.fill_of_ready (s := s) (.inr rfl) lib
      (p.report ⟨path, 0, 0, .includeNotFound path reason⟩)
    rw [expand, started]
    simp only [Stream.collect]
    rw [Stream.collectOnto_of_empty (by rw [filled]), filled]
    rfl
  | ok data =>
    obtain ⟨ts, eof, w, ran, expanded⟩ := p.expand_eq_run read
    obtain ⟨inside, ended⟩ := noEnd_run lib [path] true (p.start path data) #[] noEnd_nil
    rw [ran] at inside ended
    exact ⟨ts.toList, eof, p.after w, expanded, inside, ended eof rfl⟩

/-! ## Content -/

/-- The tokens of a text without their places, layout and end tokens left out. -/
def Token.content (ts : List Token) : List Token :=
  (ts.filter fun t => !t.isLayout && t.kind != .eof).map Token.bare

theorem Token.filter_isLayout_map_bare (ts : List Token) :
    (ts.map Token.bare).filter (! ·.isLayout) = (ts.filter (! ·.isLayout)).map Token.bare := by
  rw [List.filter_map]
  rfl

theorem Token.content_append_eof {ts : List Token} {eof : Token} (inside : NoEnd ts)
    (ended : eof.kind = .eof) :
    Token.content (ts ++ [eof]) = (ts.map Token.bare).filter (! ·.isLayout) := by
  have same : ts.filter (fun t => !t.isLayout && t.kind != .eof) = ts.filter (! ·.isLayout) :=
    List.filter_congr fun t mem => by simp [inside t mem]
  have last : [eof].filter (fun t => !t.isLayout && t.kind != .eof) = [] := by simp [ended]
  rw [content, List.filter_append, last, List.append_nil, same, filter_isLayout_map_bare]

/-- The content of a text comes from its tokens. -/
theorem Scanner.content_scan (path text : String) :
    Token.content (scan path text).1 = (tokensOf text.toList).filter (! ·.isLayout) := by
  obtain ⟨ts, eof, scanned, bare, ended⟩ := scan_eq_tokensOf path text
  have inside : NoEnd ts := by
    intro t mem
    have listed : t.bare ∈ tokensOf text.toList := by
      rw [← bare]
      exact List.mem_map_of_mem mem
    obtain ⟨c, cs, same⟩ := exists_of_mem_tokensOf listed
    have kind : t.kind = (lexeme c cs).kind := congrArg Token.kind same
    rw [kind]
    exact lexeme_kind_ne_eof c cs
  rw [scanned, Token.content_append_eof inside ended, bare]

/-! ## Printed text -/

/-- The tokens of an expanded text that leave something in print. -/
def printed (ts : List Token) : List Token :=
  ts.filter fun t => t.kind != .comment && t.kind != .eof

theorem printed_append_eof (ts : List Token) {eof : Token} (ended : eof.kind = .eof) :
    printed (ts ++ [eof]) = printed ts := by
  rw [printed, List.filter_append]
  simp [ended, printed]

theorem printed_map_bare (ts : List Token) :
    printed (ts.map Token.bare) = (printed ts).map Token.bare := by
  rw [printed, List.filter_map]
  rfl

/-- What all expanded tokens are, and what the printed ones are. -/
theorem printed_of_expand {p : Preprocessor} (macros : p.macros.All Token.Printable)
    {lib : Library} {path : String} {ts : List Token} {eof : Token} {q : Preprocessor}
    (expanded : p.expand lib path = (ts ++ [eof], q)) (ended : eof.kind = .eof) :
    eof.chars = [] ∧ ∀ t ∈ printed ts, t.IsWord := by
  have all := Preprocessor.all_expand Token.lasting_printable macros lib path
  rw [expanded] at all
  constructor
  · rcases all eof (List.mem_append_right ts List.mem_cons_self) with comment | last | word
    · rw [ended] at comment
      cases comment
    · exact last.2
    · obtain ⟨c, w, fault, -, -, alone⟩ := word
      exact absurd ((congrArg Lexeme.kind alone).trans ended) (lexeme_kind_ne_eof c w)
  · intro t mem
    obtain ⟨listed, solid⟩ := List.mem_filter.1 mem
    rcases all t (List.mem_append_left _ listed) with comment | last | word
    · simp [comment] at solid
    · simp [last.1] at solid
    · exact word

namespace Command

theorem toList_printedText {ts : List Token} {eof : Token} (inside : NoEnd ts)
    (empty : eof.chars = []) :
    (printedText (ts ++ [eof])).toList = (printed ts).flatMap Token.chars := by
  have same : printed ts = ts.filter fun t => decide (t.kind ≠ .comment) :=
    List.filter_congr fun t mem => by
      by_cases comment : t.kind = .comment <;> simp [comment, inside t mem]
  have last : ([eof].filter fun t => decide (t.kind ≠ .comment)).flatMap (·.lexeme.toList) = [] := by
    rw [List.flatMap_eq_nil_iff]
    intro t mem
    obtain rfl := List.mem_singleton.1 (List.mem_of_mem_filter mem)
    exact empty
  rw [printedText, String.toList_join, List.flatMap_map, List.filter_append, List.flatMap_append,
    last, List.append_nil, same]
  rfl

end Command

theorem filter_isLayout_printed {ts : List Token} (inside : NoEnd ts) :
    (printed ts).filter (! ·.isLayout) = ts.filter (! ·.isLayout) := by
  rw [printed, List.filter_filter]
  refine List.filter_congr fun t mem => ?_
  by_cases comment : t.kind = .comment
  · simp [Token.isLayout, comment]
  · simp [comment, inside t mem]

/-- The kinds of tokens in a text without directives and strings. -/
theorem plain_of_apart {ts : List Token} (words : ∀ t ∈ printed ts, t.IsWord)
    (kept : apart (printed ts) = true)
    (terms : ∀ t ∈ ts, t.IsTerm ∨ t.kind = .comma ∨ t.kind = .newline ∨ t.isLayout = true) :
    ∀ t ∈ tokensOf ((printed ts).flatMap Token.chars),
      t.kind ≠ .directive ∧ t.kind ≠ .string ∧ t.kind ≠ .comment := by
  have same := (filter_isLayout_eq_iff words).2 kept
  intro t mem
  by_cases blank : t.kind = .whitespace
  · simp [blank]
  · have comment := kind_ne_comment_of_eq words same t mem
    have shown : t ∈ ((printed ts).map Token.bare).filter (! ·.isLayout) := by
      rw [← same]
      exact List.mem_filter.2 ⟨mem, by simp [Token.isLayout, blank, comment]⟩
    obtain ⟨u, listed, rfl⟩ := List.mem_map.1 (List.mem_of_mem_filter shown)
    rw [Token.bare_kind] at *
    rcases terms u (List.mem_of_mem_filter listed) with (h | h | h) | h | h | layout
    · simp [h]
    · simp [h]
    · simp [h]
    · simp [h]
    · simp [h]
    · simp [Token.isLayout, blank, comment] at layout

/-- A text that is kept apart is assembled like the tokens it was printed from. -/
theorem assembleFile_of_apart {ts : List Token} (inside : NoEnd ts)
    (words : ∀ t ∈ printed ts, t.IsWord) (kept : apart (printed ts) = true)
    (silent : (Assembly.assemble ts).diagnostics = []) {lib : Library} {path text : String}
    (whole : text.toList = (printed ts).flatMap Token.chars)
    (read : lib.read path = .ok text.toUTF8) :
    (Assembly.assembleFile lib path []).result = .ok (Assembly.assemble ts).script := by
  have plain := plain_of_apart words kept (Assembly.isTerm_of_assemble silent inside)
  have said : Says text.toList ((tokensOf text.toList).filter (! ·.isLayout)) [] := by
    rw [whole]
    exact ⟨_, spells_tokensOf fun t mem => (plain t mem).2, rfl⟩
  obtain ⟨script, quiet⟩ := Assembly.assembleFile_plain read said fun t mem => by
    rw [whole] at mem
    exact (plain t (List.mem_of_mem_filter mem)).1
  have same : (tokensOf text.toList).filter (! ·.isLayout) =
      (ts.filter (! ·.isLayout)).map Token.bare := by
    rw [whole, (filter_isLayout_eq_iff words).2 kept, Token.filter_isLayout_map_bare,
      filter_isLayout_printed inside]
  have bare := Assembly.assemble_map_bare (ts.filter (! ·.isLayout))
  have shown := Assembly.assemble_of_ofText (Assembly.Line.ofText_filter inside)
  rw [same, bare.1, shown.1] at script
  rw [same, bare.2, shown.2, silent] at quiet
  rw [Assembly.Outcome.result, quiet.2 rfl, script]
  rfl

/-! ## The command -/

namespace Command

/-- The macros of a project, before a file is expanded. -/
def Project.start (p : Project) : Preprocessor :=
  p.settings.sortedDefines.foldl (fun (q : Preprocessor) d => q.define d.1 d.2) {}

/-- The files that a project's sources come from. -/
def Project.library (p : Project) (s : Session) : Library :=
  s.tree.library (p.settings.includeDirs.getD [])

/-- The command succeeds when nothing is reported and the text can be written. -/
theorem runPreprocess_eq_none_iff {p : Project} {flags : List Flag} {file : String}
    {s s' : Session} {ts : List Token} {q : Preprocessor}
    (expanded : p.start.expand (p.library s) (s.absolute file) = (ts, q)) :
    runPreprocess p flags file s = (none, s') ↔ q.diagnostics = [] ∧
      (s.note .debug q.remarks).output (Flag.textOf flags "output") (printedText ts) = .ok s' := by
  unfold Project.start Project.library at expanded
  simp only [runPreprocess, expanded]
  by_cases quiet : q.diagnostics.isEmpty = true
  · rw [if_pos quiet]
    have quiet := List.isEmpty_iff.1 quiet
    cases (s.note .debug q.remarks).output (Flag.textOf flags "output") (printedText ts) <;>
      simp [quiet]
  · rw [if_neg quiet]
    rw [List.isEmpty_iff] at quiet
    simp [quiet]

/-- **When printed text is faithful.**  When a file is expanded without an error, the text that is
printed has the tokens of the expanded text, layout aside, if and only if no printed token goes on
with the character behind it; and then it assembles to the same script as the file itself. -/
theorem runPreprocess_faithful_iff {p : Project} {flags : List Flag} {file : String}
    {s s' : Session} (ran : runPreprocess p flags file s = (none, s')) :
    ∃ ts q, p.start.expand (p.library s) (s.absolute file) = (ts, q) ∧
      (s.note .debug q.remarks).output (Flag.textOf flags "output") (printedText ts) = .ok s' ∧
      (∀ path, Token.content (Scanner.scan path (printedText ts)).1 = Token.content ts ↔
        apart (printed ts) = true) ∧
      (apart (printed ts) = true → ∀ (lib : Library) (path : String),
        lib.read path = .ok (printedText ts).toUTF8 → ∀ script,
        (Assembly.assembleFile (p.library s) (s.absolute file)
            p.settings.sortedDefines).result = .ok script →
          (Assembly.assembleFile lib path []).result = .ok script) := by
  obtain ⟨ts, eof, q, expanded, inside, ended⟩ :=
    p.start.expand_eq_append (p.library s) (s.absolute file)
  have start : p.start.macros.All Token.Printable :=
    printable_of_defines p.settings.sortedDefines (p := {}) (List.forall_mem_nil _)
  obtain ⟨empty, words⟩ := printed_of_expand start expanded ended
  have whole := toList_printedText inside empty
  obtain ⟨quiet, written⟩ := (runPreprocess_eq_none_iff expanded).1 ran
  refine ⟨ts ++ [eof], q, expanded, written, fun path => ?_,
    fun kept lib path read script made => ?_⟩
  · rw [Scanner.content_scan, whole, Token.content_append_eof inside ended,
      printed_append_eof ts ended, ← filter_isLayout_eq_iff words,
      Token.filter_isLayout_map_bare (printed ts), filter_isLayout_printed inside,
      Token.filter_isLayout_map_bare]
  · rw [printed_append_eof ts ended] at kept
    have source : Assembly.assembleFile (p.library s) (s.absolute file) p.settings.sortedDefines =
        Assembly.assemble (ts ++ [eof]) [] q.remarks := by
      unfold Project.start at expanded
      simp only [Assembly.assembleFile, expanded, quiet]
    obtain ⟨same, reported⟩ :=
      Assembly.assemble_of_ofText (Assembly.Line.ofText_append_eof ended inside)
    rw [source, Assembly.Outcome.result] at made
    split at made
    · rename_i silent
      cases made
      have silent : (Assembly.assemble ts).diagnostics = [] := by
        rw [← reported]
        exact List.isEmpty_iff.1 silent
      rw [assembleFile_of_apart inside words kept silent whole read, ← same]
      rfl
    · cases made

/-! ## Examples -/

/-- A project in which nothing is set. -/
def bareProject : Project :=
  { settings := {}, level := .warning, version := .bio2 }

/-- A session with one source. -/
def roomSession (text : String) : Session :=
  { tree := { nodes := [(["room.s"], .file text.toUTF8)] } }

theorem absolute_room (text : String) : (roomSession text).absolute "room.s" = "/room.s" := by
  show Path.absolute ("/" ++ "/".intercalate []) "room.s" = "/room.s"
  decide +kernel

theorem read_room (text : String) :
    (bareProject.library (roomSession text)).read "/room.s" = .ok text.toUTF8 := rfl

/-- The source is assembled from its own tokens. -/
theorem assembleFile_room {text : String} {us : List Token} (spelled : Spells text.toList us [])
    (plain : ∀ t ∈ us, t.kind ≠ .directive) {script : Script}
    (made : (Assembly.assemble (us.filter (! ·.isLayout))).result = .ok script) :
    (Assembly.assembleFile (bareProject.library (roomSession text))
      ((roomSession text).absolute "room.s") bareProject.settings.sortedDefines).result =
        .ok script := by
  have defines : bareProject.settings.sortedDefines = [] := by
    simp [bareProject, Settings.sortedDefines]
  rw [absolute_room, defines]
  exact Assembly.result_assembleFile_plain (read_room text) spelled plain made

/-- A source without directives is printed as it stands, without its comments. -/
theorem runPreprocess_room {text : String} {us : List Token} (spelled : Spells text.toList us [])
    (plain : ∀ t ∈ us, t.kind ≠ .directive) :
    ∃ ts, bareProject.start.expand (bareProject.library (roomSession text))
        ((roomSession text).absolute "room.s") = (ts, {}) ∧
      Token.content ts = us.filter (! ·.isLayout) ∧
      apart (printed ts) = apart (printed us) ∧
      printedText ts = String.ofList ((printed us).flatMap Token.chars) ∧
      runPreprocess bareProject [] "room.s" (roomSession text) =
        (none, (roomSession text).print (printedText ts)) := by
  have start : bareProject.start = {} := by
    simp [Project.start, bareProject, Settings.sortedDefines]
  rw [← Text.ofBytes_toUTF8 text] at spelled
  obtain ⟨ts, eof, expanded, bare, ended⟩ :=
    Preprocessor.expand_plain (read_room text) spelled plain
  have inside : NoEnd ts := fun t mem => spelled.kind_ne_eof t.bare (by
    rw [← bare]
    exact List.mem_map_of_mem mem)
  have printable : bareProject.start.macros.All Token.Printable := by
    rw [start]
    exact List.forall_mem_nil _
  have expanded : bareProject.start.expand (bareProject.library (roomSession text))
      ((roomSession text).absolute "room.s") = (ts ++ [eof], {}) := by
    rw [absolute_room, start]
    exact expanded
  obtain ⟨empty, -⟩ := printed_of_expand printable expanded ended
  refine ⟨ts ++ [eof], expanded, ?_, ?_, ?_, (runPreprocess_eq_none_iff expanded).2 ⟨rfl, rfl⟩⟩
  · rw [Token.content_append_eof inside ended, bare]
  · rw [printed_append_eof ts ended, ← bare, printed_map_bare, apart_map_bare]
  · rw [← bare, printed_map_bare, flatMap_chars_bare, ← toList_printedText inside empty,
      String.ofList_toList]

/-- A source with a comment between blanks. -/
def spacedText : String :=
  ".proc main\nevt_end /**/ 0\n"

def spacedTokens : List Token :=
  [.ofChars .symbol ".proc".toList, .ofChars .whitespace [' '], .ofChars .symbol "main".toList,
    .ofChars .newline ['\n'], .ofChars .symbol "evt_end".toList, .ofChars .whitespace [' '],
    .ofChars .comment "/**/".toList, .ofChars .whitespace [' '], .ofChars .number ['0'],
    .ofChars .newline ['\n']]

/-- A script with one procedure that ends at once. -/
def endScript : Script :=
  { version := .bio2, procedures := [⟨.main, 0, "main", [1, 0]⟩] }

theorem runPreprocess_faithful_iff_spaced :
    ∃ s', runPreprocess bareProject [] "room.s" (roomSession spacedText) = (none, s') ∧
      s'.out = ".proc main\nevt_end  0\n" ∧
      Token.content (Scanner.scan "out.s" s'.out).1 = spacedTokens.filter (! ·.isLayout) ∧
      ∀ (lib : Library) (path : String), lib.read path = .ok s'.out.toUTF8 →
        (Assembly.assembleFile lib path []).result = .ok endScript := by
  have spelled : Spells spacedText.toList spacedTokens [] :=
    .token rfl (.token rfl (.token rfl (.token rfl (.token rfl
      (.token rfl (.token rfl (.token rfl (.token rfl (.token rfl (.done []))))))))))
  have plain : ∀ t ∈ spacedTokens, t.kind ≠ .directive := by decide
  have made : (Assembly.assemble (spacedTokens.filter (! ·.isLayout))).result = .ok endScript := by
    decide +kernel
  obtain ⟨ts, expanded, content, same, text, ran⟩ := runPreprocess_room spelled plain
  obtain ⟨ts', q, expanded', -, faithful, again⟩ := runPreprocess_faithful_iff ran
  obtain ⟨rfl, rfl⟩ := Prod.mk.inj (expanded.symm.trans expanded')
  have out : ((roomSession spacedText).print (printedText ts)).out = printedText ts :=
    String.empty_append
  have kept : apart (printed ts) = true := by
    rw [same]
    decide
  refine ⟨_, ran, ?_, ?_, ?_⟩
  · rw [out, text]
    decide
  · rw [out, (faithful "out.s").2 kept, content]
  · rw [out]
    intro lib path read
    exact again kept lib path read endScript (assembleFile_room spelled plain made)

/-- A source in which only a comment separates two words. -/
def joinedText : String :=
  ".proc main\nevt_end/**/0\n"

def joinedTokens : List Token :=
  [.ofChars .symbol ".proc".toList, .ofChars .whitespace [' '], .ofChars .symbol "main".toList,
    .ofChars .newline ['\n'], .ofChars .symbol "evt_end".toList, .ofChars .comment "/**/".toList,
    .ofChars .number ['0'], .ofChars .newline ['\n']]

/-- The words are printed as one, which is not in the expanded text, and what is printed cannot be
assembled although the source can. -/
theorem runPreprocess_joined :
    ∃ s' ts, runPreprocess bareProject [] "room.s" (roomSession joinedText) = (none, s') ∧
      (bareProject.start.expand (bareProject.library (roomSession joinedText))
        ((roomSession joinedText).absolute "room.s")).1 = ts ∧
      s'.out = ".proc main\nevt_end0\n" ∧
      Token.content (Scanner.scan "out.s" s'.out).1 ≠ Token.content ts ∧
      (Assembly.assembleFile (bareProject.library (roomSession joinedText))
        ((roomSession joinedText).absolute "room.s") bareProject.settings.sortedDefines).result =
          .ok endScript ∧
      ∀ (lib : Library) (path : String), lib.read path = .ok s'.out.toUTF8 →
        (Assembly.assembleFile lib path []).result ≠ .ok endScript := by
  have spelled : Spells joinedText.toList joinedTokens [] :=
    .token rfl (.token rfl (.token rfl (.token rfl (.token rfl
      (.token rfl (.token rfl (.token rfl (.done []))))))))
  have plain : ∀ t ∈ joinedTokens, t.kind ≠ .directive := by decide
  have made : (Assembly.assemble (joinedTokens.filter (! ·.isLayout))).result = .ok endScript := by
    decide +kernel
  obtain ⟨ts, expanded, content, -, text, ran⟩ := runPreprocess_room spelled plain
  -- What is printed is one word.
  let us : List Token :=
    [.ofChars .symbol ".proc".toList, .ofChars .whitespace [' '], .ofChars .symbol "main".toList,
      .ofChars .newline ['\n'], .ofChars .symbol "evt_end0".toList, .ofChars .newline ['\n']]
  have out : ((roomSession joinedText).print (printedText ts)).out = ".proc main\nevt_end0\n" := by
    refine String.empty_append.trans ?_
    rw [text]
    decide
  have again : Spells ".proc main\nevt_end0\n".toList us [] :=
    .token rfl (.token rfl (.token rfl (.token rfl (.token rfl (.token rfl (.done []))))))
  refine ⟨_, ts, ran, by rw [expanded], out, ?_, assembleFile_room spelled plain made, ?_⟩
  · rw [out, Scanner.content_scan, tokensOf_of_spells again, content]
    decide
  · rw [out]
    intro lib path read made
    have said : Says ".proc main\nevt_end0\n".toList (us.filter (! ·.isLayout)) [] :=
      ⟨us, again, rfl⟩
    obtain ⟨-, quiet⟩ := Assembly.assembleFile_plain read said (by decide)
    have loud : (Assembly.assemble (us.filter (! ·.isLayout))).diagnostics ≠ [] := by
      decide +kernel
    rw [Assembly.Outcome.result] at made
    split at made
    · rename_i silent
      exact loud (quiet.1 (List.isEmpty_iff.1 silent))
    · cases made

end Command

end RoomScript
