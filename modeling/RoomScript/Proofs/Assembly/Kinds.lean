import RoomScript.Proofs.Assembly.Framing

/-!
# What stands in an assembled text

A text that assembles without diagnostics consists of names, numbers and punctuation, apart from
its commas, line ends and layout: everything else is reported where it stands.

* `Token.IsTerm` are the tokens that operands are made of, and `isTerm_of_joinTerms` says so;
* `Line.isTerm_of_encode` is one line;
* `isTerm_of_assemble` is the whole text.
-/

namespace RoomScript

/-- A token that can be a part of an operand. -/
def Token.IsTerm (t : Token) : Prop :=
  t.kind = .symbol ∨ t.kind = .number ∨ t.kind = .punct

/-- A list element is a separator or stands in one of the pieces. -/
theorem mem_splitOnP {α : Type} {p : α → Bool} {xs : List α} {x : α} (mem : x ∈ xs) :
    p x = true ∨ ∃ piece ∈ xs.splitOnP p, x ∈ piece := by
  induction xs with
  | nil => cases mem
  | cons y xs ih =>
    rw [List.splitOnP_cons_eq_if_modifyHead]
    cases split : xs.splitOnP p with
    | nil => exact absurd split (List.splitOnP_ne_nil p xs)
    | cons first others =>
      rw [split] at ih
      by_cases h : p y = true
      · rw [if_pos h]
        rcases List.mem_cons.1 mem with rfl | later
        · exact .inl h
        · exact (ih later).imp_right fun ⟨piece, listed, inside⟩ =>
            ⟨piece, List.mem_cons_of_mem _ listed, inside⟩
      · rw [if_neg h, List.modifyHead_cons]
        rcases List.mem_cons.1 mem with rfl | later
        · exact .inr ⟨x :: first, List.mem_cons_self, List.mem_cons_self⟩
        · refine (ih later).imp_right ?_
          rintro ⟨piece, listed, inside⟩
          rcases List.mem_cons.1 listed with rfl | there
          · exact ⟨y :: piece, List.mem_cons_self, List.mem_cons_of_mem y inside⟩
          · exact ⟨piece, List.mem_cons_of_mem _ there, inside⟩

namespace Assembly

theorem isTerm_of_isPunct {t : Token} {lexeme : String} (punct : isPunct t lexeme = true) :
    t.IsTerm := by
  rw [isPunct, Bool.and_eq_true, beq_iff_eq] at punct
  exact .inr (.inr punct.1)

theorem isTerm_of_termValue {procedures : List String} {t : Token} {v : ℤ}
    (value : termValue procedures t = .ok v) : t.IsTerm := by
  unfold termValue at value
  split at value
  · rename_i number
    exact .inr (.inl number)
  · rename_i symbol
    exact .inl symbol
  · cases value

theorem isTerm_of_signedTerm {t : Token} {rest : List Token}
    (first : (signedTerm t rest).1.2.IsTerm) (others : ∀ u ∈ (signedTerm t rest).2, u.IsTerm) :
    ∀ u ∈ t :: rest, u.IsTerm := by
  cases rest with
  | nil => exact List.forall_mem_singleton.2 first
  | cons u after =>
    rw [signedTerm] at first others
    split at first <;> rename_i minus
    · rw [if_pos minus] at others
      exact List.forall_mem_cons.2 ⟨isTerm_of_isPunct minus, List.forall_mem_cons.2 ⟨first, others⟩⟩
    · rw [if_neg minus] at others
      exact List.forall_mem_cons.2 ⟨first, others⟩

/-- Tokens that have a value as an operand are terms, with signs and bars. -/
theorem isTerm_of_joinTerms {procedures : List String} {last : Token} {value v : ℤ}
    {ts : List Token} (joined : joinTerms procedures last value ts = .ok v) :
    ∀ t ∈ ts, t.IsTerm := by
  fun_induction joinTerms procedures last value ts with
  | case1 last value => cases joined
  | case2 last value t rest d failed => cases joined
  | case3 last value t rest w found value' left =>
    refine isTerm_of_signedTerm (isTerm_of_termValue found) ?_
    rw [left]
    exact List.forall_mem_nil _
  | case4 last value t rest w found value' bar more left isBar ih =>
    refine isTerm_of_signedTerm (isTerm_of_termValue found) ?_
    rw [left]
    exact List.forall_mem_cons.2 ⟨isTerm_of_isPunct isBar, ih joined⟩
  | case5 last value t rest w found bar more left noBar => cases joined

theorem isTerm_of_operandValue {procedures : List String} {head : Token} {operand : Operand}
    {ts : List Token} {v : ℤ} (value : operandValue procedures head operand ts = .ok v) :
    ∀ t ∈ ts, t.IsTerm := by
  unfold operandValue at value
  split at value
  · cases value
  · split at value
    · cases value
    · rename_i joined
      exact isTerm_of_joinTerms joined

theorem isTerm_of_encodeOperands {procedures : List String} {head : Token}
    {operands : List (Operand × List Token)}
    (silent : (Line.encodeOperands procedures head operands).2 = []) :
    ∀ o ∈ operands, ∀ t ∈ o.2, t.IsTerm := by
  induction operands with
  | nil => exact List.forall_mem_nil _
  | cons o operands ih =>
    simp only [Line.encodeOperands] at silent
    cases value : operandValue procedures head o.1 o.2 with
    | error d => simp [value] at silent
    | ok v =>
      simp only [value] at silent
      exact List.forall_mem_cons.2 ⟨isTerm_of_operandValue value, ih silent⟩

namespace Line

variable {procedures : List String} {l : Line}

theorem symbol_of_role (role : l.role ≠ .stray) : l.head.kind = .symbol := by
  by_contra other
  have unnamed : l.mnemonic = "" := by rw [mnemonic, if_neg other]
  refine role ?_
  rw [Line.role, unnamed]
  rfl

theorem isTerm_of_versionDiagnostics (silent : l.versionDiagnostics = []) :
    ∀ o ∈ l.operands, ∀ t ∈ o, t.IsTerm := by
  unfold versionDiagnostics at silent
  split at silent
  · rename_i t single
    have term : t.IsTerm := by
      refine .inr (.inl ?_)
      by_contra other
      simp [other] at silent
    rw [single]
    simpa using term
  · cases silent

theorem isTerm_of_procedureName? {name : String} (named : l.procedureName? = some name) :
    ∀ o ∈ l.operands, ∀ t ∈ o, t.IsTerm := by
  unfold procedureName? at named
  split at named
  · rename_i t alone
    split at named
    · rename_i symbol
      have term : t.IsTerm := .inl symbol.1
      rw [alone]
      simpa using term
    · cases named
  · cases named

theorem isTerm_of_procedureDiagnostics (silent : l.procedureDiagnostics = []) :
    ∀ o ∈ l.operands, ∀ t ∈ o, t.IsTerm := by
  cases named : l.procedureName? with
  | some name => exact isTerm_of_procedureName? named
  | none =>
    unfold procedureDiagnostics at silent
    split at silent
    · rename_i o single
      rw [named] at silent
      cases o with
      | nil => simp [single]
      | cons t rest => cases silent
    · cases silent

/-- The operands of a line on which nothing is reported. -/
theorem isTerm_operands (silent : (l.encode procedures).2 = []) :
    ∀ o ∈ l.operands, ∀ t ∈ o, t.IsTerm := by
  unfold encode at silent
  split at silent
  · cases silent
  · have none : l.operands = [] := by
      by_contra some
      simp [some] at silent
    rw [none]
    exact List.forall_mem_nil _
  · exact isTerm_of_versionDiagnostics silent
  · exact isTerm_of_procedureDiagnostics silent
  · intro o mem
    exact isTerm_of_encodeOperands silent (rawByte, o) (List.mem_map_of_mem mem)
  · cases silent
  · obtain ⟨opcode, -, count, quiet, -⟩ := exists_of_encodeInstruction silent
    have few : l.operands.length ≤ (slots opcode).length := by
      have := length_kinds_le opcode
      omega
    intro o mem
    obtain ⟨i, small, rfl⟩ := List.mem_iff_getElem.1 mem
    have slot : i < ((slots opcode).zip l.operands).length := by
      rw [List.length_zip, Nat.min_eq_right few]
      exact small
    have quiet := isTerm_of_encodeOperands quiet _ (List.getElem_mem slot)
    simpa using quiet

end Line

/-- **A text on which nothing is reported consists of terms**, apart from its commas, line ends and
layout. -/
theorem isTerm_of_assemble {tokens : List Token} {before : List Diagnostic} {remarks : List String}
    (silent : (assemble tokens before remarks).diagnostics = [])
    (going : ∀ t ∈ tokens, t.kind ≠ .eof) :
    ∀ t ∈ tokens, t.IsTerm ∨ t.kind = .comma ∨ t.kind = .newline ∨ t.isLayout = true := by
  intro t mem
  by_cases layout : t.isLayout = true
  · exact .inr (.inr (.inr layout))
  · have all : ∀ t ∈ tokens, (t.kind != .eof) = true := by simpa using going
    have shown : t ∈ (tokens.takeWhile (·.kind != .eof)).filter (! ·.isLayout) := by
      rw [List.takeWhile_eq_self_iff.2 all]
      exact List.mem_filter.2 ⟨mem, by simpa using layout⟩
    rcases mem_splitOnP (p := (·.kind == .newline)) shown with newline | ⟨row, listed, inside⟩
    · exact .inr (.inr (.inl (eq_of_beq newline)))
    · obtain ⟨head, rest, rfl⟩ := List.exists_cons_of_ne_nil (List.ne_nil_of_mem inside)
      obtain ⟨l, made, front, pieces⟩ : ∃ l, Line.ofTokens? (head :: rest) = some l ∧
          l.head = head ∧ ∀ u ∈ rest, u.kind = .comma ∨ ∃ o ∈ l.operands, u ∈ o := by
        cases rest with
        | nil => exact ⟨_, rfl, rfl, List.forall_mem_nil _⟩
        | cons u rest =>
          refine ⟨_, rfl, rfl, fun v mem => ?_⟩
          exact (mem_splitOnP (p := (·.kind == .comma)) mem).imp_left eq_of_beq
      have known : l ∈ Line.ofText tokens := List.mem_filterMap.2 ⟨_, listed, made⟩
      have silent := silent_of_assemble silent l known
      rcases List.mem_cons.1 inside with rfl | behind
      · refine .inl (.inl ?_)
        rw [← front]
        refine Line.symbol_of_role fun stray => ?_
        simp [Line.encode, stray] at silent
      · rcases pieces t behind with comma | ⟨o, operand, within⟩
        · exact .inr (.inl comma)
        · exact .inl (Line.isTerm_operands silent o operand t within)

end Assembly

end RoomScript
