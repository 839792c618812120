import Mathlib
import RoomScript.Proofs.Macro.Steps

/-!
# Calls with arguments

A call of a macro with parameters gives way to the body of the macro, in which all parameters have
been replaced by their arguments at the same time.

* `Token.Nested` are token lists with balanced parentheses, and `Token.Writes` says how a list of
  arguments may be written: separated by commas, with blanks around each of them;
* `Reader.readArguments_of_leads` says that the arguments of a written list are read back, and that
  reading them ends behind the closing parenthesis;
* `Macro.standIn` is what stands for a token of the body;
* `Reader.becomes_of_leads` puts these together.
-/

namespace RoomScript

/-! ## Writing arguments -/

namespace Token

/-- Tokens that may be written for an argument, at its outer level or inside of parentheses: pairs
of parentheses are closed, and the outer level has no comma. -/
inductive Nested : Bool → List Token → Prop
  | nil {inside : Bool} : Nested inside []
  | token {inside : Bool} {t : Token} {ts : List Token}
    (plain : t.kind ∉ [.eof, .lparen, .rparen, .newline, .comment])
    (comma : t.kind = .comma → inside) (rest : Nested inside ts) : Nested inside (t :: ts)
  | group {inside : Bool} {opening closing : Token} {us ts : List Token}
    (opens : opening.kind = .lparen) (closes : closing.kind = .rparen) (inner : Nested true us)
    (rest : Nested inside ts) : Nested inside (opening :: (us ++ closing :: ts))

theorem Nested.append {inside : Bool} {ts us : List Token} (h : Nested inside ts)
    (h' : Nested inside us) : Nested inside (ts ++ us) := by
  induction h with
  | nil => exact h'
  | token plain comma _ ih => exact .token plain comma (ih h')
  | group opens closes inner _ _ ih =>
    rw [List.cons_append, List.append_assoc, List.cons_append]
    exact .group opens closes inner (ih h')

theorem nested_of_blanks {inside : Bool} {ts : List Token} (blank : ∀ b ∈ ts, b.kind = .whitespace) :
    Nested inside ts := by
  induction ts with
  | nil => exact .nil
  | cons b ts ih =>
    obtain ⟨first, others⟩ := List.forall_mem_cons.1 blank
    exact .token (by simp [first]) (by simp [first]) (ih others)

/-- Blanks in front of a list and behind it do not count. -/
theorem trimBlanks_pad {before after : List Token} (front : ∀ b ∈ before, b.kind = .whitespace)
    (back : ∀ b ∈ after, b.kind = .whitespace) (ts : List Token) :
    trimBlanks (before ++ (ts ++ after)) = trimBlanks ts := by
  have drop : ∀ {us vs : List Token}, (∀ b ∈ us, b.kind = .whitespace) →
      (us ++ vs).dropWhile (·.kind == .whitespace) = vs.dropWhile (·.kind == .whitespace) :=
    fun blank => List.dropWhile_append_of_pos (by simpa using blank)
  unfold trimBlanks
  rw [drop front]
  cases kept : ts.dropWhile (·.kind == .whitespace) with
  | nil =>
    have none : after.dropWhile (·.kind == .whitespace) = [] := by
      rw [← List.append_nil after, drop back, List.dropWhile_nil]
    rw [List.dropWhile_append, kept]
    simp [none]
  | cons t kept' =>
    rw [List.dropWhile_append, kept, if_neg (by simp), List.reverse_append,
      drop fun b mem => back b (List.mem_reverse.1 mem)]

/-- The text is the argument with blanks around it. -/
def Pads (arg written : List Token) : Prop :=
  ∃ before after, written = before ++ (arg ++ after) ∧ (∀ b ∈ before, b.kind = .whitespace) ∧
    ∀ b ∈ after, b.kind = .whitespace

theorem Pads.trimBlanks_eq {arg written : List Token} (pads : Pads arg written) :
    trimBlanks written = trimBlanks arg := by
  obtain ⟨before, after, rfl, front, back⟩ := pads
  exact trimBlanks_pad front back arg

/-- The text is the arguments with blanks around them and commas in between. -/
inductive Separates : List (List Token) → List Token → Prop
  | last {arg written : List Token} (nested : Nested false arg) (trimmed : trimBlanks arg = arg)
    (pads : Pads arg written) : Separates [arg] written
  | more {arg written others : List Token} {args : List (List Token)} {comma : Token}
    (nested : Nested false arg) (trimmed : trimBlanks arg = arg) (pads : Pads arg written)
    (separator : comma.kind = .comma) (rest : Separates args others) :
    Separates (arg :: args) (written ++ comma :: others)

/-- The text is an argument list.  When there is only one argument it is not empty, as an empty text
means that there is none. -/
inductive Writes : List (List Token) → List Token → Prop
  | none {written : List Token} (blank : ∀ b ∈ written, b.kind = .whitespace) : Writes [] written
  | some {args : List (List Token)} {written : List Token} (separated : Separates args written)
    (notEmpty : args ≠ [[]]) : Writes args written

end Token

/-! ## Reading arguments -/

namespace Reader

variable {a : Arguments} {ts written : List Token} {args : List (List Token)}

/-- Nested tokens are added to the argument that is being read. -/
theorem Arguments.track_of_nested {inside : Bool} (nested : Token.Nested inside ts)
    (outer : a.depth ≠ 0) (deep : inside → a.depth ≠ 1) :
    track Arguments.judge a ts = ({ a with current := a.current ++ ts }, none) := by
  induction nested generalizing a with
  | nil => rw [track, Array.appendList_nil]
  | @token inside t ts plain comma _ ih =>
    have pushed : a.judge t = .more (a.push t) := by
      unfold Arguments.judge
      split <;> simp_all
    rw [track, pushed]
    refine (ih (a := a.push t) outer deep).trans ?_
    rw [Array.appendList_cons]
    rfl
  | @group inside opening closing us ts opens closes _ _ ihInner ihRest =>
    have opened : a.judge opening =
        .more { a.push opening with depth := a.depth + 1 } := by
      simp [Arguments.judge, opens]
    have passes : track Arguments.judge a (opening :: us) =
        ({ a with current := a.current ++ (opening :: us), depth := a.depth + 1 }, none) := by
      rw [track, opened, Array.appendList_cons]
      exact ihInner (Nat.succ_ne_zero _) fun _ => by simpa using outer
    rw [← List.cons_append, track_append_of_pass passes, track]
    have closed : Arguments.judge
          { a with current := a.current ++ (opening :: us), depth := a.depth + 1 } closing =
        .more { a with current := (a.current ++ (opening :: us)).push closing } := by
      simp [Arguments.judge, closes, outer, Arguments.push]
    rw [closed]
    refine (ihRest (a := { a with current := (a.current ++ (opening :: us)).push closing }) outer
      deep).trans ?_
    rw [← Array.appendList_cons, append_append]

/-- An argument is read with the blanks around it. -/
theorem Arguments.track_of_pads {arg : List Token} (nested : Token.Nested false arg)
    (pads : Token.Pads arg written) (outer : a.depth = 1) (fresh : a.current = #[]) :
    track Arguments.judge a written = ({ a with current := written.toArray }, none) := by
  have whole : Token.Nested false written := by
    obtain ⟨before, after, rfl, front, back⟩ := pads
    exact (Token.nested_of_blanks front).append (nested.append (Token.nested_of_blanks back))
  rw [track_of_nested whole (by simp [outer]) (by simp), fresh]
  simp

theorem Arguments.judge_closing {closing : Token} (closes : closing.kind = .rparen)
    (outer : a.depth = 1) : a.judge closing = .last a.close := by
  simp [judge, closes, outer]

/-- The last argument counts, unless it is empty and the only one. -/
theorem Arguments.close_eq_finish
    (shown : Token.trimBlanks a.current.toList = [] → a.finished ≠ #[]) :
    a.close = { a.finish with closed := true } := by
  unfold close
  refine if_neg fun both => ?_
  obtain ⟨none, first⟩ := Bool.and_eq_true_iff.1 both
  exact shown (List.isEmpty_iff.1 none) (Array.isEmpty_iff.1 first)

/-- A written argument list is read up to its closing parenthesis. -/
theorem Arguments.track_of_separates {closing : Token} (separated : Token.Separates args written)
    (closes : closing.kind = .rparen) (outer : a.depth = 1) (fresh : a.current = #[])
    (notEmpty : args = [[]] → a.finished ≠ #[]) : ∃ b,
      track Arguments.judge a (written ++ [closing]) = (b, some []) ∧ b.closed = true ∧
        b.finished.toList = a.finished.toList ++ args := by
  induction separated generalizing a with
  | @last arg written nested trimmed pads =>
    have ended : Arguments.judge { a with current := written.toArray } closing =
        .last (Arguments.close { a with current := written.toArray }) :=
      judge_closing closes outer
    have read : Token.trimBlanks written = arg := pads.trimBlanks_eq.trans trimmed
    refine ⟨_, by rw [track_append_of_pass (track_of_pads nested pads outer fresh), track, ended],
      ?_⟩
    have kept := close_eq_finish (a := { a with current := written.toArray }) fun none =>
      notEmpty (by rw [← read]; exact congrArg ([·]) none)
    rw [kept]
    simp [Arguments.finish, read]
  | @more arg written others args comma nested trimmed pads separator _ ih =>
    have finished : Arguments.judge { a with current := written.toArray } comma =
        .more (Arguments.finish { a with current := written.toArray }) := by
      simp [Arguments.judge, separator, outer]
    have read : Token.trimBlanks written = arg := pads.trimBlanks_eq.trans trimmed
    obtain ⟨b, stops, closed, all⟩ :=
      ih (a := Arguments.finish { a with current := written.toArray }) outer rfl
        (by simp [Arguments.finish])
    refine ⟨b, ?_, closed, ?_⟩
    · rw [List.append_assoc, List.cons_append,
        track_append_of_pass (track_of_pads nested pads outer fresh), track, finished]
      exact stops
    · rw [all]
      simp [Arguments.finish, read]

/-- **The arguments that are written are read back**, and reading them ends behind the closing
parenthesis. -/
theorem readArguments_of_leads {r rest : Reader} {closing : Token}
    (writes : Token.Writes args written) (closes : closing.kind = .rparen)
    (leads : r.Leads (written ++ [closing]) rest) : r.readArguments = (some args, rest) := by
  have stops : ∃ b : Arguments, track Arguments.judge {} (written ++ [closing]) = (b, some []) ∧
      b.closed = true ∧ b.finished.toList = args := by
    cases writes with
    | none blank =>
      have nested : Token.Nested false written := Token.nested_of_blanks blank
      have passes := Arguments.track_of_nested (a := {}) nested (by simp) (by simp)
      have nothing : Token.trimBlanks written = [] := by
        simpa [Token.trimBlanks] using Token.trimBlanks_pad blank (List.forall_mem_nil _) []
      refine ⟨_, by rw [track_append_of_pass passes, track, Arguments.judge_closing closes rfl], ?_⟩
      simp [Arguments.close, nothing]
    | some separated notEmpty =>
      obtain ⟨b, stops, closed, all⟩ := Arguments.track_of_separates (a := {}) separated closes rfl
        rfl fun h => absurd h notEmpty
      exact ⟨b, stops, closed, by rw [all]; rfl⟩
  obtain ⟨b, stops, closed, all⟩ := stops
  obtain ⟨s, ran, behind⟩ := loop_of_stop stops leads
  rw [readArguments, ran]
  simp [closed, all, leads_nil.1 behind]

end Reader

/-! ## Replacing parameters -/

namespace Macro

/-- What stands for a token of the body: a symbol that is a parameter gives way to its argument. -/
def standIn (m : Macro) (args : List (List Token)) (t : Token) : List Token :=
  if t.kind = .symbol then
    match m.params.idxOf? t.lexeme with
    | some i => args.getD i []
    | none => [t]
  else [t]

theorem lookup_zip (params : List String) (args : List (List Token)) (name : String) :
    (params.zip args).lookup name = (params.idxOf? name).bind (args[·]?) := by
  induction params generalizing args with
  | nil => rfl
  | cons param params ih =>
    cases args with
    | nil =>
      cases List.idxOf? name (param :: params) <;> rfl
    | cons arg args =>
      rw [List.zip_cons_cons, List.lookup_cons, List.idxOf?_cons, ih, BEq.comm (a := name)]
      cases param == name with
      | true => rfl
      | false => cases params.idxOf? name <;> rfl

theorem substitute_eq {m : Macro} {args : List (List Token)}
    (same : args.length = m.params.length) :
    m.substitute args = m.body.flatMap (m.standIn args) := by
  have each : ∀ t, (if t.kind = .symbol then ((m.params.zip args).lookup t.lexeme).getD [t]
      else [t]) = m.standIn args t := by
    intro t
    unfold standIn
    split
    · rw [lookup_zip]
      cases found : m.params.idxOf? t.lexeme with
      | none => rfl
      | some i =>
        have inside : i < args.length := by
          rw [same]
          exact (List.findIdx?_eq_some_iff_findIdx_eq.1 found).1
        simp [List.getD_eq_getElem?_getD, inside]
    · rfl
  simp only [substitute, each]

end Macro

/-! ## Calls -/

namespace Reader

variable {table : Macro.Table} {condition : Bool} {active : List String} {r after rest : Reader}
  {ts written blanks : List Token} {args : List (List Token)} {name opening closing : Token}
  {m : Macro}

/-- The call in front of a reader gives way to the tokens: they are what it expands to, and wherever
it stands, in a captured list or in a file, this takes its place and all goes on behind the call
with the same macros active. -/
structure Becomes (table : Macro.Table) (condition : Bool) (active : List String) (r : Reader)
    (ts : List Token) (after : Reader) : Prop where
  expands : r.expandCall table condition active = (some ts, after)
  captured : (condition → r.peek.1.lexeme ≠ "defined") → ∀ out,
    Macro.expandOnto table condition active r out =
      Macro.expandOnto table condition active after (out ++ ts)
  filed : condition = false → active = [] → ∀ w : Work, w.reader = r → w.macros = table →
    w.turn = (.emit ts, w.withReader after)

theorem becomes_of_expandCall (found : r.expandCall table condition active = (some ts, after)) :
    r.Becomes table condition active ts after := by
  have symbol : r.peek.1.kind = .symbol := by
    cases named : table.named? r.peek.1 with
    | none =>
      rw [expandCall_of_unnamed named] at found
      cases found
    | some m => exact (Macro.Table.named?_eq_some_iff.1 named).1
  refine ⟨found, fun other out => ?_, ?_⟩
  · rw [Macro.expandOnto_eq (by simp [symbol]) fun inside word => other inside word.2, found]
  · rintro rfl rfl w rfl rfl
    have turned : w.turn = (w.withReader w.reader.peek.2).turnToken w.reader.peek.1 := by
      simp [Work.turn, symbol]
    rw [turned, Work.turnToken_eq]
    simp only [Work.withReader, expandCall_peek, found]

/-- A call with arguments is read to its end, and gives way to the expanded body if there is one
argument for every parameter. -/
theorem expandCall_of_leads (condition : Bool)
    (ahead : r.Leads (name :: (blanks ++ opening :: (written ++ [closing]))) rest)
    (named : table.named? name = some m) (idle : m.name ∉ active)
    (blank : ∀ b ∈ blanks, b.kind = .whitespace) (opens : opening.kind = .lparen)
    (writes : Token.Writes args written) (closes : closing.kind = .rparen) :
    r.expandCall table condition active =
      if args.length = m.params.length then
        let (us, diagnostics) := Macro.expand table condition (m.name :: active)
          (m.substitute args) rest.diagnostics
        (some us, { rest with diagnostics })
      else (some [], rest.report
        (name.diagnostic (.wrongOperandCount m.params.length args.length))) := by
  obtain ⟨rfl, -, behind⟩ := leads_cons.1 ahead
  obtain ⟨s, seen, leads⟩ := peekNoWhitespace_of_leads blank (by simp [opens]) behind
  have inside : (s.skip (blanks.length + 1)).Leads (written ++ [closing]) rest := by
    have whole : s.Leads ((blanks ++ [opening]) ++ (written ++ [closing])) rest := by
      simpa using leads
    simpa using whole.skip
  rw [expandCall, call_eq, named]
  simp only [idle, if_false, callBody, seen, opens, ne_eq, not_true_eq_false,
    readArguments_of_leads writes closes inside]
  by_cases same : args.length = m.params.length
  · simp [same]
  · simp [same]

/-- **A call is simultaneous substitution.**  Let a macro that is not active be called with a
written argument list.  If there is one argument for every parameter, and the body with the
arguments in it names no macro, nor asks for one with `defined` in a condition, then the call gives
way to the body, in which every parameter has been replaced by its argument, and nothing is
reported.  If the number of arguments is another, the call gives way to nothing, and just this is
reported at the name.  In both cases reading goes on right behind the closing parenthesis. -/
theorem becomes_of_leads (condition : Bool)
    (ahead : r.Leads (name :: (blanks ++ opening :: (written ++ [closing]))) rest)
    (named : table.named? name = some m) (idle : m.name ∉ active)
    (blank : ∀ b ∈ blanks, b.kind = .whitespace) (opens : opening.kind = .lparen)
    (writes : Token.Writes args written) (closes : closing.kind = .rparen) :
    let body := Token.untilEnd (m.body.flatMap (m.standIn args))
    (args.length = m.params.length → (∀ t ∈ body, table.named? t = none) →
      (condition → ∀ t ∈ body, ¬(t.kind = .symbol ∧ t.lexeme = "defined")) →
      r.Becomes table condition active body rest) ∧
    (args.length ≠ m.params.length →
      r.Becomes table condition active [] (rest.report
        (name.diagnostic (.wrongOperandCount m.params.length args.length)))) := by
  intro body
  have called := expandCall_of_leads condition ahead named idle blank opens writes closes
  refine ⟨fun same plain other => becomes_of_expandCall ?_,
    fun different => becomes_of_expandCall ?_⟩
  · rw [called, if_pos same, Macro.substitute_eq same,
      Macro.expand_of_unnamed (m.name :: active) plain other]
  · rw [called, if_neg different]

/-! ## An example -/

namespace Door

/-- A token of the example. -/
def piece (kind : Token.Kind) (lexeme : String) : Token :=
  ⟨kind, lexeme, "main.scd", 1, 1⟩

/-- A macro that puts its second argument in front of the first one. -/
def swap : Macro :=
  ⟨"SWAP", ["a", "b"], [piece .symbol "b", piece .punct "+", piece .symbol "a"]⟩

/-- A macro that asks whether its argument is defined. -/
def ask : Macro :=
  ⟨"ASK", ["x"],
    [piece .symbol "defined", piece .lparen "(", piece .symbol "x", piece .rparen ")"]⟩

/-- The second argument of a call: it has parentheses, and a comma inside of them. -/
def call : List Token :=
  [piece .symbol "max", piece .lparen "(", piece .number "1", piece .comma ",", piece .number "2",
    piece .rparen ")"]

/-- The end of a list that has been read. -/
def behind (ts : List Token) : Reader :=
  ⟨.replay [] (.ofTokens ts), [], []⟩

/-- The name `b` in the first argument is not replaced again, and two parameters are not met by an
empty list. -/
theorem becomes_of_swap :
    let text := [piece .symbol "b"] ++ piece .comma "," :: ([piece .whitespace " "] ++ (call ++ []))
    let swapped := piece .symbol "SWAP" :: ([] ++ piece .lparen "(" :: (text ++ [piece .rparen ")"]))
    let empty := piece .symbol "SWAP" ::
      ([piece .whitespace " "] ++ piece .lparen "(" :: ([] ++ [piece .rparen ")"]))
    (ofTokens swapped).Becomes [swap] false []
        (call ++ [piece .punct "+", piece .symbol "b"]) (behind swapped) ∧
      (ofTokens empty).Becomes [swap] false [] []
        ((behind empty).report ((piece .symbol "SWAP").diagnostic (.wrongOperandCount 2 0))) := by
  intro text swapped empty
  have nested : Token.Nested false call :=
    .token (by decide) (by decide) (.group rfl rfl
      (.token (by decide) (by decide) (.token (by decide) (by decide) (.token (by decide) (by decide)
        .nil))) .nil)
  have writes : Token.Writes [[piece .symbol "b"], call] text :=
    .some (.more (.token (by decide) (by decide) .nil) (by decide)
      ⟨[], [], rfl, by decide, by decide⟩ rfl
      (.last nested (by decide) ⟨[piece .whitespace " "], [], rfl, by decide, by decide⟩))
      (by decide)
  have first : (ofTokens swapped).Leads swapped (behind swapped) := leads_ofTokens (by decide) []
  have second : (ofTokens empty).Leads empty (behind empty) := leads_ofTokens (by decide) []
  refine ⟨?_, ?_⟩
  · exact (becomes_of_leads false first (m := swap) (by decide) (by decide) (by decide) rfl writes
      rfl).1 rfl (by decide) (by decide)
  · exact (becomes_of_leads false second (m := swap) (by decide) (by decide) (by decide) rfl
      (.none (by decide)) rfl).2 (by decide)

/-- In a condition a body that asks with `defined` gets its answer, although `defined` is no
macro. -/
theorem expandCall_ask :
    let text := [piece .symbol "ASK", piece .lparen "(", piece .symbol "KEY", piece .rparen ")"]
    let substituted := ask.body.flatMap (ask.standIn [[piece .symbol "KEY"]])
    (ofTokens text).Leads text (behind text) ∧
      Macro.Table.named? [ask] (piece .symbol "ASK") = some ask ∧
      Token.Writes [[piece .symbol "KEY"]] [piece .symbol "KEY"] ∧
      (∀ t ∈ substituted, Macro.Table.named? [ask] t = none) ∧
      ((ofTokens text).expandCall [ask] true []).1 = some [piece .number "0"] ∧
      [piece .number "0"] ≠ substituted := by
  refine ⟨leads_ofTokens (by decide) [], by decide, ?_, by decide, ?_, by decide⟩
  · exact .some (.last (.token (by decide) (by decide) .nil) (by decide)
      ⟨[], [], by decide, by decide, by decide⟩) (by decide)
  · cbv

end Door

end Reader

end RoomScript
