import Mathlib.Data.List.TakeWhile
import RoomScript.Assembly
import RoomScript.Proofs.Preprocess.Plain

/-!
# Assembling does not depend on places

Where a token stands decides nothing but the place of a diagnostic.  Taking the places away from the
tokens leaves the script as it is and takes the places away from the diagnostics.

* `Line.ofText_map_bare` cuts the same lines, `Line.encode_bare` encodes them to the same bytes;
* `Declarations.ofLines_map_bare` and `Block.ofLines_map_bare` collect the same procedures;
* `assemble_map_bare` puts these together, and `assembleFile_plain` is the case of a file without
  directives.
-/

namespace RoomScript

/-- A diagnostic without its place. -/
def Diagnostic.bare (d : Diagnostic) : Diagnostic :=
  ⟨"", 0, 0, d.cause⟩

@[simp] theorem Token.diagnostic_bare (t : Token) (cause : Cause) :
    t.bare.diagnostic cause = (t.diagnostic cause).bare := rfl

theorem splitOnP_map {α β : Type} (f : α → β) (p : β → Bool) (xs : List α) :
    (xs.map f).splitOnP p = (xs.splitOnP (p ∘ f)).map (List.map f) := by
  induction xs with
  | nil => simp
  | cons x xs ih =>
    rw [List.map_cons, List.splitOnP_cons_eq_if_modifyHead, List.splitOnP_cons_eq_if_modifyHead, ih]
    by_cases h : p (f x) = true
    · simp [h]
    · simp [h]
      cases xs.splitOnP (p ∘ f) <;> simp

namespace Assembly

/-! ## Lines -/

namespace Line

/-- A line without places. -/
def bare (l : Line) : Line :=
  ⟨l.head.bare, l.operands.map (List.map Token.bare)⟩

theorem ofTokens?_map_bare (ts : List Token) :
    ofTokens? (ts.map Token.bare) = (ofTokens? ts).map bare := by
  match ts with
  | [] => rfl
  | [head] => rfl
  | head :: t :: rest =>
    show some (Line.mk head.bare (((t :: rest).map Token.bare).splitOnP (·.kind == .comma))) = _
    rw [splitOnP_map]
    rfl

/-- The lines of tokens without places. -/
theorem ofText_map_bare (ts : List Token) : ofText (ts.map Token.bare) = (ofText ts).map bare := by
  unfold ofText
  rw [List.takeWhile_map, List.filter_map, splitOnP_map, List.filterMap_map, List.map_filterMap]
  congr 1
  funext ts
  exact ofTokens?_map_bare ts

@[simp] theorem mnemonic_bare (l : Line) : l.bare.mnemonic = l.mnemonic := by
  simp [mnemonic, bare]

@[simp] theorem role_bare (l : Line) : l.bare.role = l.role := by
  simp [role]

@[simp] theorem procedureName?_bare (l : Line) : l.bare.procedureName? = l.procedureName? := by
  unfold procedureName? bare
  match l.operands with
  | [] => rfl
  | [[]] => rfl
  | [[t]] => simp
  | [_ :: _ :: _] => rfl
  | _ :: _ :: _ => simp

end Line

/-! ## Values -/

theorem termValue_bare (procedures : List String) (t : Token) :
    termValue procedures t.bare = (termValue procedures t).mapError Diagnostic.bare := by
  unfold termValue
  rw [Token.bare_kind, Token.bare_lexeme]
  cases t.kind with
  | number => cases Text.int32? t.lexeme <;> rfl
  | symbol =>
    cases procedures.idxOf? t.lexeme with
    | some index => rfl
    | none => cases Opcode.symbolValue? t.lexeme <;> rfl
  | _ => rfl

@[simp] theorem isPunct_bare (t : Token) (lexeme : String) :
    isPunct t.bare lexeme = isPunct t lexeme := by
  simp [isPunct]

theorem signedTerm_bare (t : Token) (rest : List Token) :
    signedTerm t.bare (rest.map Token.bare) =
      (((signedTerm t rest).1.1, (signedTerm t rest).1.2.bare),
        (signedTerm t rest).2.map Token.bare) := by
  cases rest with
  | nil => rfl
  | cons u after =>
    simp only [List.map_cons, signedTerm, isPunct_bare]
    split <;> rfl

section Terms

variable {procedures : List String} {last t : Token} {value v : Int} {rest : List Token}

theorem joinTerms_of_error {d : Diagnostic}
    (failed : termValue procedures (signedTerm t rest).1.2 = .error d) :
    joinTerms procedures last value (t :: rest) = .error d := by
  rw [joinTerms, failed]

/-- The last term of an operand. -/
theorem joinTerms_of_nil (found : termValue procedures (signedTerm t rest).1.2 = .ok v)
    (left : (signedTerm t rest).2 = []) :
    joinTerms procedures last value (t :: rest) =
      .ok (union value (if (signedTerm t rest).1.1 then -v else v)) := by
  rw [joinTerms, found]
  simp only
  split
  · rfl
  · rename_i h
    rw [left] at h
    cases h

/-- A term with something behind it. -/
theorem joinTerms_of_cons {bar : Token} {more : List Token}
    (found : termValue procedures (signedTerm t rest).1.2 = .ok v)
    (left : (signedTerm t rest).2 = bar :: more) :
    joinTerms procedures last value (t :: rest) =
      if isPunct bar "|" then
        joinTerms procedures bar (union value (if (signedTerm t rest).1.1 then -v else v)) more
      else .error (bar.diagnostic (.unexpectedToken bar.lexeme)) := by
  rw [joinTerms, found]
  simp only
  split
  · rename_i h
    rw [left] at h
    cases h
  · rename_i h
    rw [left] at h
    cases h
    rfl

end Terms

theorem joinTerms_bare (procedures : List String) (last : Token) (value : Int) (ts : List Token) :
    joinTerms procedures last.bare value (ts.map Token.bare) =
      (joinTerms procedures last value ts).mapError Diagnostic.bare := by
  have bareTerm : ∀ {t : Token} {rest : List Token} {v : Int},
      termValue procedures (signedTerm t rest).1.2 = .ok v →
      termValue procedures (signedTerm t.bare (rest.map Token.bare)).1.2 = .ok v := by
    intro t rest v found
    rw [signedTerm_bare, termValue_bare, found]
    rfl
  have bareRest : ∀ {t : Token} {rest left : List Token}, (signedTerm t rest).2 = left →
      (signedTerm t.bare (rest.map Token.bare)).2 = left.map Token.bare := by
    rintro t rest left rfl
    rw [signedTerm_bare]
  fun_induction joinTerms procedures last value ts with
  | case1 last value => simp [joinTerms, Except.mapError]
  | case2 last value t rest d failed =>
    refine joinTerms_of_error ?_
    rw [signedTerm_bare, termValue_bare, failed]
    rfl
  | case3 last value t rest v found value' left =>
    rw [List.map_cons, joinTerms_of_nil (bareTerm found) (bareRest left), signedTerm_bare]
    rfl
  | case4 last value t rest v found value' bar more left isBar ih =>
    rw [List.map_cons, joinTerms_of_cons (bareTerm found) (bareRest left), isPunct_bare,
      if_pos isBar, signedTerm_bare]
    exact ih
  | case5 last value t rest v found bar more left noBar =>
    rw [List.map_cons, joinTerms_of_cons (bareTerm found) (bareRest left), isPunct_bare,
      if_neg noBar, Token.bare_lexeme]
    rfl

theorem operandValue_bare (procedures : List String) (head : Token) (operand : Operand)
    (ts : List Token) :
    operandValue procedures head.bare operand (ts.map Token.bare) =
      (operandValue procedures head operand ts).mapError Diagnostic.bare := by
  cases ts with
  | nil => rfl
  | cons first rest =>
    have joined := joinTerms_bare procedures head 0 (first :: rest)
    rw [List.map_cons] at joined ⊢
    simp only [operandValue, joined]
    cases joinTerms procedures head 0 (first :: rest) with
    | error d => rfl
    | ok value =>
      simp only [Except.mapError]
      split <;> rfl

/-! ## Encoding -/

namespace Line

theorem encodeOperands_bare (procedures : List String) (head : Token)
    (operands : List (Operand × List Token)) :
    encodeOperands procedures head.bare
        (operands.map fun o => (o.1, o.2.map Token.bare)) =
      ((encodeOperands procedures head operands).1,
        (encodeOperands procedures head operands).2.map Diagnostic.bare) := by
  induction operands with
  | nil => rfl
  | cons o rest ih =>
    simp only [List.map_cons, encodeOperands, ih, operandValue_bare]
    cases operandValue procedures head o.1 o.2 <;> rfl

@[simp] theorem wrongCount_bare (l : Line) (expected : ℕ) :
    l.bare.wrongCount expected = (l.wrongCount expected).bare := by
  have count : l.bare.operands.length = l.operands.length := by simp [bare]
  unfold wrongCount
  rw [count, ← Token.diagnostic_bare]
  rfl

theorem versionDiagnostics_single (head t : Token) :
    versionDiagnostics ⟨head, [[t]]⟩ =
      (if t.kind = .number then Text.int32? t.lexeme else none).elim
        [t.diagnostic (.invalidNumber t.lexeme)] fun v =>
          if v = Version.bio2.number then []
          else [t.diagnostic (.versionMismatch v Version.bio2.number)] := by
  simp only [versionDiagnostics]
  cases if t.kind = .number then Text.int32? t.lexeme else none <;> rfl

theorem versionDiagnostics_bare (l : Line) :
    l.bare.versionDiagnostics = l.versionDiagnostics.map Diagnostic.bare := by
  have count := l.wrongCount_bare 1
  obtain ⟨head, operands⟩ := l
  match operands with
  | [] => exact congrArg ([·]) count
  | [[]] => exact congrArg ([·]) count
  | [[t]] =>
    show versionDiagnostics ⟨head.bare, [[t.bare]]⟩ = _
    rw [versionDiagnostics_single, versionDiagnostics_single, Token.bare_kind, Token.bare_lexeme]
    cases if t.kind = .number then Text.int32? t.lexeme else none with
    | none => rfl
    | some v =>
      simp only [Option.elim_some]
      split <;> rfl
  | [_ :: _ :: _] => exact congrArg ([·]) count
  | [] :: _ :: _ => exact congrArg ([·]) count
  | [_] :: _ :: _ => exact congrArg ([·]) count
  | (_ :: _ :: _) :: _ :: _ => exact congrArg ([·]) count

theorem procedureDiagnostics_bare (l : Line) :
    l.bare.procedureDiagnostics = l.procedureDiagnostics.map Diagnostic.bare := by
  have count := l.wrongCount_bare 1
  have name := l.procedureName?_bare
  unfold procedureDiagnostics
  rw [name]
  obtain ⟨head, operands⟩ := l
  match operands with
  | [] => exact congrArg ([·]) count
  | [[]] => cases (Line.mk head [[]]).procedureName? <;> rfl
  | [t :: rest] =>
    cases (Line.mk head [t :: rest]).procedureName? with
    | some name => rfl
    | none =>
      show [t.bare.diagnostic (.unexpectedToken t.bare.lexeme)] = _
      rw [Token.bare_lexeme]
      rfl
  | _ :: _ :: _ => exact congrArg ([·]) count

theorem encodeInstruction_bare (procedures : List String) (l : Line) :
    l.bare.encodeInstruction procedures =
      ((l.encodeInstruction procedures).1,
        (l.encodeInstruction procedures).2.map Diagnostic.bare) := by
  have count : l.bare.operands.length = l.operands.length := by simp [bare]
  have zipped : ∀ layout : List Operand, layout.zip l.bare.operands =
      (layout.zip l.operands).map fun o => (o.1, o.2.map Token.bare) := fun layout => by
    rw [bare, List.zip_map_right]
    rfl
  unfold encodeInstruction
  rw [mnemonic_bare]
  cases Opcode.find? l.mnemonic with
  | none => rfl
  | some opcode =>
    simp only [count, wrongCount_bare]
    split
    · rfl
    · have operands := encodeOperands_bare procedures l.head
        (((Opcode.signature opcode).layout (Opcode.size opcode)).zip l.operands)
      rw [zipped]
      rw [show l.bare.head = l.head.bare from rfl, operands]
      generalize encodeOperands procedures l.head _ = encoded
      obtain ⟨bytes, diagnostics⟩ := encoded
      cases diagnostics <;> simp

/-- A line without places is encoded to the same bytes. -/
theorem encode_bare (procedures : List String) (l : Line) :
    l.bare.encode procedures =
      ((l.encode procedures).1, (l.encode procedures).2.map Diagnostic.bare) := by
  unfold encode
  rw [role_bare]
  cases l.role with
  | stray =>
    simp only [show l.bare.head = l.head.bare from rfl, Token.bare_lexeme, Token.diagnostic_bare,
      List.map_cons, List.map_nil]
  | switch kind =>
    have empty : l.bare.operands.isEmpty = l.operands.isEmpty := by simp [bare]
    simp only [empty, wrongCount_bare]
    split <;> rfl
  | version => exact congrArg (Prod.mk []) l.versionDiagnostics_bare
  | procedure => exact congrArg (Prod.mk []) l.procedureDiagnostics_bare
  | bytes =>
    have operands := encodeOperands_bare procedures l.head (l.operands.map fun o => (rawByte, o))
    rw [List.map_map] at operands
    simp only [bare, List.map_map]
    exact operands
  | unknownDirective =>
    simp only [mnemonic_bare, show l.bare.head = l.head.bare from rfl, Token.diagnostic_bare,
      List.map_cons, List.map_nil]
  | instruction => exact l.encodeInstruction_bare procedures

end Line

/-! ## Procedures -/

namespace Declarations

/-- Declarations whose diagnostics have no places. -/
def bare (d : Declarations) : Declarations :=
  { d with diagnostics := d.diagnostics.map Diagnostic.bare }

theorem declare_bare (d : Declarations) (name? : Option String) (place : Token) :
    d.bare.declare name? place.bare = (d.declare name? place).bare := by
  have reported : ∀ (known : Bool) (d : Diagnostic) (ds : Array Diagnostic),
      (if known then (ds.map Diagnostic.bare).push d.bare else ds.map Diagnostic.bare) =
        (if known then ds.push d else ds).map Diagnostic.bare := by
    intro known d ds
    cases known <;> simp
  exact congrArg (Declarations.mk d.kind true (d.names.push _))
    (reported _ (place.diagnostic (.duplicateProcedure _)) d.diagnostics)

theorem line_bare (d : Declarations) (l : Line) : d.bare.line l.bare = (d.line l).bare := by
  unfold line
  rw [Line.role_bare]
  cases l.role with
  | procedure =>
    simp only [Line.procedureName?_bare]
    exact declare_bare ..
  | bytes | unknownDirective | instruction =>
    simp only
    rw [show d.bare.isOpen = d.isOpen from rfl]
    split
    · rfl
    · exact declare_bare ..
  | _ => rfl

/-- Lines without places declare the same procedures. -/
theorem ofLines_map_bare (lines : List Line) :
    ofLines (lines.map Line.bare) = (ofLines lines).bare := by
  have run : ∀ (lines : List Line) (d : Declarations),
      (lines.map Line.bare).foldl line d.bare = (lines.foldl line d).bare := by
    intro lines
    induction lines with
    | nil => exact fun _ => rfl
    | cons l lines ih =>
      intro d
      rw [List.map_cons, List.foldl_cons, line_bare, ih, List.foldl_cons]
  have start : bare {} = {} := by simp [bare]
  have ran := run lines {}
  rwa [start] at ran

end Declarations

/-- A block without places. -/
def Block.bare (b : Block) : Block :=
  { b with lines := b.lines.map Line.bare }

namespace Blocks

/-- Collected blocks without places. -/
def bare (b : Blocks) : Blocks :=
  { b with collected := b.collected.map Block.bare }

theorem addStatement_bare (b : Blocks) (l : Line) :
    b.bare.addStatement l.bare = (b.addStatement l).bare := by
  obtain ⟨kind, isOpen, collected⟩ := b
  cases collected <;> rfl

theorem line_bare (b : Blocks) (l : Line) : b.bare.line l.bare = (b.line l).bare := by
  unfold line
  rw [Line.role_bare]
  cases l.role with
  | procedure =>
    simp only [Line.procedureName?_bare]
    rfl
  | bytes | unknownDirective | instruction =>
    simp only
    rw [show b.bare.isOpen = b.isOpen from rfl]
    split
    · exact addStatement_bare ..
    · exact addStatement_bare (b.start none) l
  | _ => rfl

end Blocks

/-- Lines without places are collected into the same blocks. -/
theorem Block.ofLines_map_bare (lines : List Line) :
    ofLines (lines.map Line.bare) = (ofLines lines).map Block.bare := by
  have run : ∀ (lines : List Line) (b : Blocks),
      (lines.map Line.bare).foldl Blocks.line b.bare = (lines.foldl Blocks.line b).bare := by
    intro lines
    induction lines with
    | nil => exact fun _ => rfl
    | cons l lines ih =>
      intro b
      rw [List.map_cons, List.foldl_cons, Blocks.line_bare, ih, List.foldl_cons]
  have collected := run lines {}
  unfold ofLines
  rw [show (({} : Blocks)) = Blocks.bare {} from rfl, collected]
  simp [Blocks.bare, Block.bare, Function.comp_def]

theorem Block.addTo_bare (procedures : List String) (s : Script) (b : Block) :
    b.bare.addTo procedures s = b.addTo procedures s := by
  unfold addTo bare
  simp only [List.flatMap_map, Line.encode_bare]

/-! ## Scripts -/

/-- **Assembling does not depend on places**: without them the script is the same, and so are the
causes of the diagnostics. -/
theorem assemble_map_bare (ts : List Token) :
    (assemble (ts.map Token.bare)).script = (assemble ts).script ∧
      (assemble (ts.map Token.bare)).diagnostics =
        (assemble ts).diagnostics.map Diagnostic.bare := by
  have procedures : (Declarations.ofLines (Line.ofText ts)).bare.ofKind .main =
      (Declarations.ofLines (Line.ofText ts)).ofKind .main := rfl
  have folded : ∀ (names : List String) (blocks : List Block) (s : Script),
      (blocks.map Block.bare).foldl (Block.addTo names) s =
        blocks.foldl (Block.addTo names) s := by
    intro names blocks s
    rw [List.foldl_map]
    simp only [Block.addTo_bare]
  unfold assemble
  simp only [Line.ofText_map_bare, Declarations.ofLines_map_bare, Block.ofLines_map_bare,
    procedures, folded]
  refine ⟨trivial, ?_⟩
  simp [Declarations.bare, List.flatMap_map, List.map_flatMap, Line.encode_bare]

/-! ## Files without directives -/

theorem Line.ofText_append_eof {ts : List Token} {eof : Token} (ended : eof.kind = .eof)
    (going : ∀ t ∈ ts, t.kind ≠ .eof) : ofText (ts ++ [eof]) = ofText ts := by
  have all : ∀ t ∈ ts, (t.kind != .eof) = true := by simpa using going
  have whole : ts.takeWhile (·.kind != .eof) = ts := List.takeWhile_eq_self_iff.2 all
  unfold ofText
  rw [List.takeWhile_append_of_pos all, whole]
  simp [ended]

theorem Line.ofText_filter {ts : List Token} (going : ∀ t ∈ ts, t.kind ≠ .eof) :
    ofText (ts.filter (! ·.isLayout)) = ofText ts := by
  have all : ∀ t ∈ ts, (t.kind != .eof) = true := by simpa using going
  have whole : ts.takeWhile (·.kind != .eof) = ts := List.takeWhile_eq_self_iff.2 all
  have filtered : (ts.filter (! ·.isLayout)).takeWhile (·.kind != .eof) =
      ts.filter (! ·.isLayout) :=
    List.takeWhile_eq_self_iff.2 fun t ht => all t (List.mem_of_mem_filter ht)
  unfold ofText
  rw [whole, filtered, List.filter_filter]
  simp

/-- Only the lines of a text matter. -/
theorem assemble_of_ofText {ts us : List Token} (same : Line.ofText ts = Line.ofText us) :
    (assemble ts).script = (assemble us).script ∧
      (assemble ts).diagnostics = (assemble us).diagnostics := by
  unfold assemble
  simp only [same, and_self]

/-- A file without directives is assembled from the tokens that its text says. -/
theorem assembleFile_plain {lib : Library} {path text : String}
    (read : lib.read path = .ok text.toUTF8) {ts : List Token} (said : Says text.toList ts [])
    (plain : ∀ t ∈ ts, t.kind ≠ .directive) :
    (assembleFile lib path []).script = (assemble ts).script ∧
      ((assembleFile lib path []).diagnostics = [] ↔ (assemble ts).diagnostics = []) := by
  obtain ⟨us, spelled, rfl⟩ := said
  have noDirective : ∀ t ∈ us, t.kind ≠ .directive := by
    intro t ht directive
    refine plain t (List.mem_filter.2 ⟨ht, ?_⟩) directive
    simp [Token.isLayout, directive]
  rw [← Text.ofBytes_toUTF8 text] at spelled
  obtain ⟨read', eof, expanded, rfl, ended⟩ := Preprocessor.expand_plain read spelled noDirective
  have going : ∀ t ∈ read', t.kind ≠ .eof := fun t ht =>
    spelled.kind_ne_eof t.bare (List.mem_map_of_mem ht)
  have going' : ∀ t ∈ read'.map Token.bare, t.kind ≠ .eof := fun t ht => spelled.kind_ne_eof t ht
  have whole := assemble_of_ofText (Line.ofText_append_eof ended going)
  have shown := assemble_of_ofText (Line.ofText_filter going')
  have bare := assemble_map_bare read'
  have file : assembleFile lib path [] = assemble (read' ++ [eof]) := by
    simp only [assembleFile, List.foldl_nil, expanded]
  rw [file, whole.1, whole.2, shown.1, shown.2, bare.1, bare.2, List.map_eq_nil_iff]
  exact ⟨rfl, Iff.rfl⟩

/-- A file without directives is assembled without an error when its tokens are. -/
theorem result_assembleFile_plain {lib : Library} {path text : String} {us : List Token}
    {script : Script} (read : lib.read path = .ok text.toUTF8) (spelled : Spells text.toList us [])
    (plain : ∀ t ∈ us, t.kind ≠ .directive)
    (made : (assemble (us.filter (! ·.isLayout))).result = .ok script) :
    (assembleFile lib path []).result = .ok script := by
  have said : Says text.toList (us.filter (! ·.isLayout)) [] := ⟨us, spelled, rfl⟩
  obtain ⟨same, quiet⟩ := assembleFile_plain read said fun t mem =>
    plain t (List.mem_of_mem_filter mem)
  rw [Outcome.result] at made ⊢
  split at made
  · rename_i silent
    rw [quiet.2 (List.isEmpty_iff.1 silent), same]
    exact made
  · cases made

end Assembly

end RoomScript
