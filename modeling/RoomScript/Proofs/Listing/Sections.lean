import RoomScript.Proofs.Listing.Statements

/-!
# A listing in sections

The listing of a script reads as a version line and one section for each kind that has procedures.
A procedure with a negative index is written with a name that is no name, so nothing but its own
line is reported then.

* `exists_routine` is the listing of one procedure, `exists_sections` that of one kind;
* `reads_script` puts the sections together.
-/

namespace RoomScript.Listing

open Assembly

/-! ## Directives -/

/-- The first token of a directive line. -/
def directiveToken (word : String) : Token :=
  .ofChars .symbol ('.' :: word.toList)

/-- A directive with one operand on a line of its own. -/
theorem reads_directive {word : String} (isWord : IsWord isIdentStart word.toList)
    {text : List Char} {ts : List Token} (phrase : Phrase text ts) (filled : ts ≠ [])
    (noComma : ∀ t ∈ ts, t.kind ≠ .comma) :
    Reads ('.' :: word.toList ++ (" ".toList ++ (text ++ "\n".toList)))
      [⟨directiveToken word, [ts]⟩] := by
  have row : Reads ([] ++ (_ ++ ([] ++ "\n".toList))) _ :=
    Reads.row (by simp) ((Phrase.dotted isWord).spaced phrase) .nil
  have plain : ∀ t ∈ ts, (t.kind == .comma) = false := by simpa using noComma
  have line : Line.ofTokens? ([directiveToken word] ++ ts) = some ⟨directiveToken word, [ts]⟩ := by
    obtain ⟨t, rest, rfl⟩ := List.exists_cons_of_ne_nil filled
    rw [List.singleton_append, Line.ofTokens?, List.splitOnP_eq_singleton plain]
    simp
  rw [show Token.ofChars .symbol ('.' :: word.toList) = directiveToken word from rfl, line] at row
  simpa using row

/-- A directive alone on a line. -/
theorem reads_bareDirective {word : String} (isWord : IsWord isIdentStart word.toList) :
    Reads ('.' :: word.toList ++ "\n".toList) [⟨directiveToken word, []⟩] := by
  have row : Reads ([] ++ (_ ++ ([] ++ "\n".toList))) [⟨directiveToken word, []⟩] :=
    Reads.row (by simp) (Phrase.dotted isWord) .nil
  simpa using row

/-! ## The version -/

/-- The version line is free of reports exactly for the version that can be assembled. -/
theorem exists_version (v : Version) :
    ∃ l : Line, Reads (".version " ++ Text.decimal 0 v.number ++ "\n").toList [l] ∧
      l.role = .version ∧
      ∀ procedures, (l.encode procedures).2 = [] ↔ v = .bio2 := by
  have isWord : IsWord isIdentStart "version".toList :=
    ⟨'v', "ersion".toList, rfl, rfl, List.all_eq_true.1 (by decide)⟩
  have role : ∀ ts, Line.role ⟨directiveToken "version", [ts]⟩ = .version := fun _ => rfl
  have encoded : ∀ ts procedures, (Line.encode procedures ⟨directiveToken "version", [ts]⟩).2 =
      Line.versionDiagnostics ⟨directiveToken "version", [ts]⟩ := fun _ _ => rfl
  obtain ⟨n⟩ := v
  by_cases nonneg : 0 ≤ n
  · refine ⟨⟨directiveToken "version", [[.ofChars .number (Nat.toDigits 10 n.toNat)]]⟩, ?_,
      role _, fun procedures => ?_⟩
    · have reads := reads_directive isWord (.digits n.toNat) (by simp) (by simp)
      simpa [Text.toList_decimal_of_nonneg nonneg] using reads
    · rw [encoded]
      have same : Version.mk n = .bio2 ↔ n = 2 := by simp [Version.bio2]
      simp only [Line.versionDiagnostics, Token.ofChars_kind, Token.ofChars_lexeme, if_true, same]
      cases found : Text.int32? (String.ofList (Nat.toDigits 10 n.toNat)) with
      | none =>
        refine ⟨fun h => absurd h (List.cons_ne_nil _ _), ?_⟩
        rintro rfl
        have literal := Text.int32?_toDigits (n := 2) (by decide)
        exact absurd (found.symm.trans literal) (by simp)
      | some v =>
        have value := Text.eq_of_int32?_toDigits found
        have number : Version.bio2.number = 2 := rfl
        simp only [number, ite_eq_left_iff, List.cons_ne_nil, imp_false, not_not]
        omega
  -- A negative number is two tokens, and the line of a version has one.
  · refine ⟨⟨directiveToken "version",
      [[.ofChars .punct ['-'], .ofChars .number (Nat.toDigits 10 n.natAbs)]]⟩, ?_, role _,
      fun procedures => ?_⟩
    · have reads := reads_directive isWord (Phrase.digits n.natAbs).minus (by simp) (by simp)
      simpa [Text.toList_decimal_of_neg (Int.not_le.1 nonneg)] using reads
    · rw [encoded]
      refine ⟨fun h => absurd h (List.cons_ne_nil _ _), fun h => ?_⟩
      have number : n = 2 := congrArg Version.number h
      omega

/-! ## Procedures -/

theorem isWord_name {kind : Kind} (named : kind ∈ Kind.named) :
    IsWord isIdentStart kind.name.toList := by
  have names : ∀ kind ∈ Kind.named, kind.name.toList.head?.any isIdentStart = true ∧
      kind.name.toList.all isIdentPart = true := by decide
  obtain ⟨first, all⟩ := names kind named
  exact Opcode.isWord_of_head first (List.all_eq_true.1 all)

/-- The default name of a procedure with an index is a name. -/
theorem isWord_defaultName {kind : Kind} (named : kind ∈ Kind.named) {index : ℤ}
    (nonneg : 0 ≤ index) : IsWord isIdentStart (Procedure.defaultName kind index).toList := by
  unfold Procedure.defaultName
  split
  · exact ⟨'m', "ain".toList, rfl, rfl, List.all_eq_true.1 (by decide)⟩
  split
  · exact ⟨'a', "ot".toList, rfl, rfl, List.all_eq_true.1 (by decide)⟩
  split
  · exact ⟨'i', "nit".toList, rfl, rfl, List.all_eq_true.1 (by decide)⟩
  · rw [String.toList_append, String.toList_append]
    have mark : ∀ c ∈ "_".toList, isIdentPart c = true := List.all_eq_true.1 (by decide)
    exact ((isWord_name named).append mark).append (Opcode.isIdentPart_of_mem_hex nonneg)

/-- Upper-case digits are one token. -/
theorem exists_phrase_hex {cs : List Char} (filled : cs ≠ [])
    (digits : ∀ c ∈ cs, ∃ d < 16, c = (Nat.digitChar d).toUpper) :
    ∃ t, Phrase cs [t] ∧ t.kind ≠ .comma := by
  have classes : ∀ d < 16, isIdentPart (Nat.digitChar d).toUpper = true ∧
      (isIdentStart (Nat.digitChar d).toUpper = true ∨
        ('0' ≤ (Nat.digitChar d).toUpper && (Nat.digitChar d).toUpper ≤ '9') = true) := by decide
  have parts : ∀ c ∈ cs, isIdentPart c = true := by
    intro c hc
    obtain ⟨d, small, rfl⟩ := digits c hc
    exact (classes d small).1
  obtain ⟨c, rest, rfl⟩ := List.exists_cons_of_ne_nil filled
  obtain ⟨d, small, rfl⟩ := digits c List.mem_cons_self
  have rest := fun e he => parts e (List.mem_cons_of_mem _ he)
  rcases (classes d small).2 with start | digit
  · exact ⟨_, .word ⟨_, _, rfl, start, rest⟩, by simp⟩
  · exact ⟨_, .number digit rest, by simp⟩

/-- The default name for a negative index is several tokens. -/
theorem exists_phrase_defaultName {kind : Kind} (named : kind ∈ Kind.named) {index : ℤ}
    (negative : index < 0) :
    ∃ t u rest, Phrase (Procedure.defaultName kind index).toList (t :: u :: rest) ∧
      ∀ x ∈ t :: u :: rest, x.kind ≠ .comma := by
  have written : Procedure.defaultName kind index = kind.name ++ "_" ++ Text.hex 2 index := by
    have first : index ≠ 0 := by omega
    have second : index ≠ 1 := by omega
    simp [Procedure.defaultName, first, second]
  obtain ⟨cs, chars, filled, digits⟩ := Text.toList_hex_of_neg 2 negative
  obtain ⟨t, phrase, noComma⟩ := exists_phrase_hex filled digits
  have front : Phrase (kind.name ++ "_").toList [.ofChars .symbol (kind.name ++ "_").toList] := by
    refine .word ?_
    rw [String.toList_append]
    exact (isWord_name named).append (List.all_eq_true.1 (by decide))
  have joined : Phrase ((kind.name ++ "_").toList ++ (['-'] ++ cs))
      ([.ofChars .symbol (kind.name ++ "_").toList] ++ ([.ofChars .punct ['-']] ++ [t])) :=
    front.between phrase (fun _ => rfl)
      (fun rest _ => .of_spells (.punctuation (by decide) (by decide) rest) rfl) (by decide)
  refine ⟨.ofChars .symbol (kind.name ++ "_").toList, .ofChars .punct ['-'], [t], ?_, ?_⟩
  · rw [written, String.toList_append, chars]
    exact joined
  · simp [noComma]

/-- A procedure and how it is written. -/
structure Lists (p : Procedure) (x : Kind × Routine) : Prop where
  kind : x.1 = p.kind
  name : 0 ≤ p.index → x.2.head.procedureName? = some (Procedure.defaultName p.kind p.index)
  head : ∀ procedures, (x.2.head.encode procedures).2 = [] ↔ 0 ≤ p.index
  body : ∀ {procedures : List String}, Consistent procedures →
    (∀ l ∈ x.2.body, (l.encode procedures).2 = []) ∧ x.2.bytes procedures = p.data

/-- The line that a procedure begins with. -/
theorem exists_procedureLine {kind : Kind} (named : kind ∈ Kind.named) (index : ℤ) :
    ∃ l : Line, Reads (".proc " ++ Procedure.defaultName kind index ++ "\n").toList [l] ∧
      l.role = .procedure ∧
      (0 ≤ index → l.procedureName? = some (Procedure.defaultName kind index)) ∧
      ∀ procedures, (l.encode procedures).2 = [] ↔ 0 ≤ index := by
  have isWord : IsWord isIdentStart "proc".toList :=
    ⟨'p', "roc".toList, rfl, rfl, List.all_eq_true.1 (by decide)⟩
  by_cases nonneg : 0 ≤ index
  · let l : Line := ⟨directiveToken "proc",
      [[.ofChars .symbol (Procedure.defaultName kind index).toList]]⟩
    have filled : Procedure.defaultName kind index ≠ "" := by
      obtain ⟨c, cs, chars, -⟩ := isWord_defaultName named nonneg
      intro none
      simp [none] at chars
    have name : l.procedureName? = some (Procedure.defaultName kind index) := by
      simp [l, Line.procedureName?, filled]
    have silent : l.procedureDiagnostics = [] := by
      simp only [Line.procedureDiagnostics, name, l]
    refine ⟨l, ?_, rfl, fun _ => name, fun procedures => ⟨fun _ => nonneg, fun _ => silent⟩⟩
    have reads := reads_directive isWord (Phrase.word (isWord_defaultName named nonneg))
      (by simp) (by simp)
    simpa [l] using reads
  · obtain ⟨t, u, rest, phrase, noComma⟩ :=
      exists_phrase_defaultName named (Int.not_le.1 nonneg)
    refine ⟨⟨directiveToken "proc", [t :: u :: rest]⟩, ?_, rfl, fun h => absurd h nonneg, ?_⟩
    · have reads := reads_directive isWord phrase (by simp) noComma
      simpa using reads
    · exact fun procedures => ⟨nofun, fun h => absurd h nonneg⟩

/-- The listing of a procedure is a routine. -/
theorem exists_routine (options : Options) (text : String) {p : Procedure}
    (named : p.kind ∈ Kind.named) :
    ∃ added, ∃ r : Routine, procedureOnto options text p = text ++ added ∧
      Reads added.toList r.lines ∧ Lists p (p.kind, r) := by
  obtain ⟨head, reads, role, name, silent⟩ := exists_procedureLine named p.index
  obtain ⟨bytes, whole⟩ := cut_sound p.data
  obtain ⟨added, written, body, reads', roles, encoded⟩ := statements_pieces options
    { text := text ++ ".proc " ++ Procedure.defaultName p.kind p.index ++ "\n" } whole
  rw [bytes] at encoded
  refine ⟨".proc " ++ Procedure.defaultName p.kind p.index ++ "\n" ++ added,
    ⟨head, body, role, roles⟩, ?_, ?_, rfl, name, silent, encoded⟩
  · rw [procedureOnto, written]
    simp only [String.append_assoc]
  · rw [String.toList_append]
    exact reads.append reads'

theorem exists_routines (options : Options) (text : String) {procedures : List Procedure}
    {kind : Kind} (named : kind ∈ Kind.named) (same : ∀ p ∈ procedures, p.kind = kind) :
    ∃ added, ∃ routines : List Routine,
      procedures.foldl (fun text p => procedureOnto options (text ++ "\n") p) text = text ++ added ∧
        Reads added.toList (routines.flatMap Routine.lines) ∧
        List.Forall₂ (fun p r => Lists p (kind, r)) procedures routines := by
  induction procedures generalizing text with
  | nil => exact ⟨"", [], by simp, .nil, .nil⟩
  | cons p procedures ih =>
    obtain ⟨rfl, later⟩ := List.forall_mem_cons.1 same
    obtain ⟨front, r, written, reads, lists⟩ := exists_routine options (text ++ "\n") named
    obtain ⟨back, routines, written', reads', lists'⟩ :=
      ih (procedureOnto options (text ++ "\n") p) later
    refine ⟨"\n" ++ front ++ back, r :: routines, ?_, ?_, .cons lists lists'⟩
    · rw [List.foldl_cons, written', written]
      simp only [String.append_assoc]
    · rw [String.toList_append, String.toList_append, List.append_assoc, List.flatMap_cons]
      exact Reads.empty.append (reads.append reads')

/-! ## Kinds -/

/-- The line that switches to a kind. -/
theorem reads_switch {kind : Kind} (named : kind ∈ Kind.named) :
    Line.role ⟨directiveToken kind.name, []⟩ = .switch kind ∧
      Reads ("\n." ++ kind.name ++ "\n").toList [⟨directiveToken kind.name, []⟩] := by
  have roles : ∀ kind ∈ Kind.named, Line.role ⟨directiveToken kind.name, []⟩ = .switch kind := by
    decide
  refine ⟨roles kind named, ?_⟩
  have reads := Reads.empty.append (reads_bareDirective (isWord_name named))
  simpa using reads

/-- The listing of a kind is a section, or nothing. -/
theorem exists_sections (options : Options) (s : Script) (text : String) {kind : Kind}
    (named : kind ∈ Kind.named) :
    ∃ added, ∃ sections : List Section, kindOnto options s text kind = text ++ added ∧
      Reads added.toList (sections.flatMap Section.lines) ∧
      List.Forall₂ Lists (s.ofKind kind) (Section.tagged sections) := by
  have same : ∀ p ∈ s.ofKind kind, p.kind = kind := by
    intro p hp
    simpa using (List.mem_filter.1 hp).2
  unfold kindOnto
  split
  · rename_i empty
    exact ⟨"", [], by simp, .nil, by rw [empty]; exact .nil⟩
  · obtain ⟨role, switch⟩ := reads_switch named
    obtain ⟨added, routines, written, reads, lists⟩ :=
      exists_routines options (text ++ "\n." ++ kind.name ++ "\n") named same
    refine ⟨"\n." ++ kind.name ++ "\n" ++ added,
      [⟨⟨directiveToken kind.name, []⟩, kind, routines, role, rfl⟩], ?_, ?_, ?_⟩
    · rw [written]
      simp only [String.append_assoc]
    · rw [String.toList_append, List.flatMap_singleton]
      exact switch.append reads
    · simpa [Section.tagged] using lists

/-! ## Scripts -/

/-- The procedures that a listing shows, in its order. -/
def listed (s : Script) : List Procedure :=
  Kind.named.flatMap s.ofKind

theorem exists_kinds (options : Options) (s : Script) (text : String) {kinds : List Kind}
    (named : ∀ kind ∈ kinds, kind ∈ Kind.named) :
    ∃ added, ∃ sections : List Section,
      kinds.foldl (kindOnto options s) text = text ++ added ∧
        Reads added.toList (sections.flatMap Section.lines) ∧
        List.Forall₂ Lists (kinds.flatMap s.ofKind) (Section.tagged sections) := by
  induction kinds generalizing text with
  | nil => exact ⟨"", [], by simp, .nil, .nil⟩
  | cons kind kinds ih =>
    obtain ⟨first, later⟩ := List.forall_mem_cons.1 named
    obtain ⟨front, before, written, reads, lists⟩ := exists_sections options s text first
    obtain ⟨back, after, written', reads', lists'⟩ := ih (kindOnto options s text kind) later
    refine ⟨front ++ back, before ++ after, ?_, ?_, ?_⟩
    · rw [List.foldl_cons, written', written, String.append_assoc]
    · rw [String.toList_append, List.flatMap_append]
      exact reads.append reads'
    · rw [List.flatMap_cons, Section.tagged, List.flatMap_append]
      exact List.rel_append lists lists'

/-- **A listing reads as sections**: a version line, and the procedures of each kind. -/
theorem reads_script (options : Options) (s : Script) :
    ∃ (version : Line) (sections : List Section),
      Reads (script options s).toList (version :: sections.flatMap Section.lines) ∧
        version.role = .version ∧
        (∀ procedures, (version.encode procedures).2 = [] ↔ s.version = .bio2) ∧
        List.Forall₂ Lists (listed s) (Section.tagged sections) := by
  obtain ⟨version, reads, role, silent⟩ := exists_version s.version
  obtain ⟨added, sections, written, reads', lists⟩ := exists_kinds options s
    (".version " ++ Text.decimal 0 s.version.number ++ "\n") (fun _ h => h)
  refine ⟨version, sections, ?_, role, silent, lists⟩
  rw [script, written, String.toList_append]
  exact reads.append reads'

end RoomScript.Listing
