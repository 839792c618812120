import RoomScript.Proofs.Preprocess.Within

/-!
# Expanding whole lines in their surroundings

Whole lines without a backslash that expand without diagnostics as a text of their own expand in
every surrounding as they do alone.

* `Work.Turns` describes a turn over whole lines in every surrounding, and `Work.exists_turns` says
  that a turn that reports nothing on the lines alone is such a turn;
* `Work.run_within` is the run over all of the lines.
-/

namespace RoomScript

namespace Work

variable {macros : Macro.Table} {inner : List Token} {remarks : List String} {o : Reader}
  {t : Token} {ts : List Token}

/-! ## Which turn is taken -/

theorem turn_of_endsBranch (h : t.endsBranch) : ∃ stray, ∀ w : Work, w.reader.peek.1 = t →
    w.turn = (w.withReader w.reader.peek.2).turnBranchEnd t stray := by
  simp only [Token.endsBranch, Token.isDirective, Bool.or_eq_true, Bool.and_eq_true, beq_iff_eq] at h
  rcases h with (⟨kind, word⟩ | ⟨kind, word⟩) | ⟨kind, word⟩
  · exact ⟨.strayElif, fun w front => by simp [turn, front, kind, word]⟩
  · exact ⟨.strayElse, fun w front => by simp [turn, front, kind, word]⟩
  · exact ⟨.strayEndif, fun w front => by simp [turn, front, kind, word]⟩

theorem turn_of_if (h : t.isDirective "#if") (w : Work) (front : w.reader.peek.1 = t) :
    w.turn = (w.withReader w.reader.peek.2).turnIf t := by
  simp only [Token.isDirective, Bool.and_eq_true, beq_iff_eq] at h
  simp [turn, front, h.1, h.2]

theorem turn_of_include (h : t.isDirective "#include") (w : Work) (front : w.reader.peek.1 = t) :
    w.turn = (w.withReader w.reader.peek.2).turnInclude := by
  simp only [Token.isDirective, Bool.and_eq_true, beq_iff_eq] at h
  simp [turn, front, h.1, h.2]

theorem turn_of_define (h : t.isDirective "#define") (w : Work) (front : w.reader.peek.1 = t) :
    w.turn = (w.withReader w.reader.peek.2).turnDefine := by
  simp only [Token.isDirective, Bool.and_eq_true, beq_iff_eq] at h
  simp [turn, front, h.1, h.2]

theorem turn_of_other (going : t.kind ≠ .eof) (branch : ¬t.endsBranch)
    (conditional : ¬t.isDirective "#if") (file : ¬t.isDirective "#include")
    (definition : ¬t.isDirective "#define") (w : Work) (front : w.reader.peek.1 = t) :
    w.turn = (w.withReader w.reader.peek.2).turnToken t := by
  unfold turn
  simp only [front, going, if_false]
  split
  · rename_i kind
    split <;> rename_i word <;> simp [Token.endsBranch, Token.isDirective, kind, word] at *
  · rfl

/-! ## One turn -/

/-- A turn over whole lines that goes the same way in every surrounding.  With `ts` ahead, and with
`inner` the conditionals among the lines that are being taken, what it produces and what it leaves
of the lines do not depend on what is around them. -/
def Turns (turn : Work → Step × Work) (macros : Macro.Table) (inner ts : List Token) : Prop :=
  ∃ step macros' inner' us, us <:+ ts ∧ us.length < ts.length ∧ (∀ eof, step ≠ .stop eof) ∧
    ∀ (r r' : Reader) (outer : List Token) (remarks : List String), r.Leads ts r' →
      ∃ s, turn ⟨macros, r, inner ++ outer, remarks⟩ =
        (step, ⟨macros', s, inner' ++ outer, remarks⟩) ∧ s.Leads us r'

/-- A turn is what the operation for the token in front makes of it. -/
theorem Turns.of_front {f : Work → Step × Work} (h : Turns f macros inner (t :: ts))
    (same : ∀ w : Work, w.reader.peek.1 = t → w.turn = f (w.withReader w.reader.peek.2)) :
    Turns turn macros inner (t :: ts) := by
  obtain ⟨step, macros', inner', us, part, shorter, going, turned⟩ := h
  refine ⟨step, macros', inner', us, part, shorter, going, fun r r' outer remarks leads => ?_⟩
  rw [same _ (Reader.leads_cons.1 leads).1]
  exact turned r.peek.2 r' outer remarks leads.peek

/-- A branch of a conditional among the lines is left within them. -/
theorem turns_branchEnd {stray : Cause} (lined : Lined (t :: ts)) (own : o.Holds (t :: ts))
    (quiet : (turnBranchEnd ⟨macros, o, inner, remarks⟩ t stray).2.reader.diagnostics = []) :
    Turns (turnBranchEnd · t stray) macros inner (t :: ts) := by
  cases inner with
  | nil =>
    have := Reader.quiet_before Reader.skipToNewline_earlier quiet
    simp [Reader.report] at this
  | cons innermost inner =>
    obtain ⟨us, moves, shorter⟩ := Reader.exists_moves_leaveBranch lined own quiet
    refine ⟨.emit [], macros, inner, us, moves.1, shorter, by simp,
      fun r r' outer remarks leads => ?_⟩
    exact ⟨r.leaveBranch innermost, rfl, moves.2 r r' leads⟩

/-- A conditional among the lines is entered within them. -/
theorem turns_if (directive : t.isDirective "#if") (lined : Lined (t :: ts))
    (own : o.Holds (t :: ts))
    (quiet : (turnIf ⟨macros, o, inner, remarks⟩ t).2.reader.diagnostics = []) :
    Turns (turnIf · t) macros inner (t :: ts) := by
  obtain ⟨lined', nonempty⟩ := Reader.after_directive_of_lined lined directive
  have calm : (o.read.2.enterBranch macros t).2.diagnostics = [] := by
    unfold turnIf at quiet
    split at quiet <;> rename_i entered <;> rw [entered] <;> exact quiet
  obtain ⟨x, us, settles⟩ := Reader.exists_settles_enterBranch lined' nonempty own.read calm
  refine ⟨.emit [], macros, if x then t :: inner else inner, us,
    settles.1.trans (List.suffix_cons t ts), Nat.lt_succ_of_le settles.1.length_le, by simp,
    fun r r' outer remarks leads => ?_⟩
  obtain ⟨s, entered, after⟩ := settles.2 _ r' (Reader.leads_cons.1 leads).2.2
  refine ⟨s, ?_, after⟩
  cases x <;> simp [turnIf, entered]

/-- A file is asked for within the lines. -/
theorem turns_include (directive : t.isDirective "#include") (lined : Lined (t :: ts))
    (own : o.Holds (t :: ts))
    (quiet : (turnInclude ⟨macros, o, inner, remarks⟩).2.reader.diagnostics = []) :
    Turns turnInclude macros inner (t :: ts) := by
  obtain ⟨lined', nonempty⟩ := Reader.after_directive_of_lined lined directive
  obtain ⟨place, us, moves⟩ := Reader.exists_moves_skipWhitespace lined' nonempty
  have seen := (own.read.move moves).front.1
  cases path : place.quotedPath? with
  | none => simp [turnInclude, seen, path, withReader, Reader.report] at quiet
  | some quoted =>
    have part : us <:+ ts := (List.suffix_cons place us).trans moves.1
    refine ⟨.enter place quoted, macros, inner, us, part.trans (List.suffix_cons t ts),
      Nat.lt_succ_of_le part.length_le, by simp, fun r r' outer remarks leads => ?_⟩
    have ahead := moves.2 _ r' (Reader.leads_cons.1 leads).2.2
    obtain ⟨front, -, after⟩ := Reader.leads_cons.1 ahead
    exact ⟨_, by simp [turnInclude, front, path, withReader], after⟩

/-- A macro is defined within the lines. -/
theorem turns_define (directive : t.isDirective "#define") (lined : Lined (t :: ts))
    (plain : ∀ u ∈ t :: ts, u.kind ≠ .backslash) (own : o.Holds (t :: ts))
    (quiet : (turnDefine ⟨macros, o, inner, remarks⟩).2.reader.diagnostics = []) :
    Turns turnDefine macros inner (t :: ts) := by
  obtain ⟨lined', nonempty⟩ := Reader.after_directive_of_lined lined directive
  have calm : o.read.2.readDefinition.2.diagnostics = [] := by
    unfold turnDefine at quiet
    split at quiet <;> rename_i defined <;> rw [defined] <;> exact quiet
  obtain ⟨m, us, settles⟩ := Reader.exists_settles_readDefinition lined' nonempty
    (fun u hu => plain u (List.mem_cons_of_mem t hu)) own.read calm
  refine ⟨.emit [], m.elim macros macros.define, inner, us,
    settles.1.trans (List.suffix_cons t ts), Nat.lt_succ_of_le settles.1.length_le, by simp,
    fun r r' outer remarks leads => ?_⟩
  obtain ⟨s, defined, after⟩ := settles.2 _ r' (Reader.leads_cons.1 leads).2.2
  refine ⟨s, ?_, after⟩
  cases m <;> simp [turnDefine, defined]

/-- A token passes, or a macro is called, within the lines. -/
theorem turns_token (lined : Lined (t :: ts)) (own : o.Holds (t :: ts))
    (quiet : (turnToken ⟨macros, o, inner, remarks⟩ t).2.reader.diagnostics = []) :
    Turns (turnToken · t) macros inner (t :: ts) := by
  have calm : (o.call macros []).2.diagnostics = [] := by
    unfold turnToken at quiet
    split at quiet <;> rename_i called <;> rw [called]
    · exact Reader.quiet_before (f := fun r => r.read.2) (fun ds r => by rw [Reader.read_earlier])
        quiet
    · exact quiet
    · rename_i m ts reader
      have later := Macro.expand_append macros false [m.name] ts reader.diagnostics []
      rw [List.append_nil] at later
      simp only [withReader, later, List.append_eq_nil_iff] at quiet
      exact quiet.1
  obtain ⟨x, us, settles, how⟩ := Reader.exists_settles_call lined own calm
  have shorter : x ≠ .keep → us.length < (t :: ts).length := fun read =>
    Nat.lt_succ_of_le (how.resolve_left read).length_le
  cases x with
  | keep =>
    refine ⟨.emit [t], macros, inner, ts, List.suffix_cons t ts, Nat.lt_succ_self _, by simp,
      fun r r' outer remarks leads => ⟨r.read.2, ?_, (Reader.leads_cons.1 leads).2.2⟩⟩
    obtain ⟨s, called, -⟩ := settles.2 r r' leads
    simp [turnToken, called, Reader.peek_of_call_keep called, withReader]
  | tokens us' =>
    refine ⟨.emit us', macros, inner, us, settles.1, shorter (by simp), by simp,
      fun r r' outer remarks leads => ?_⟩
    obtain ⟨s, called, after⟩ := settles.2 r r' leads
    exact ⟨s, by simp [turnToken, called, withReader], after⟩
  | rescan m body =>
    have later : ∀ ds, Macro.expand macros false [m.name] body ds =
        ((Macro.expand macros false [m.name] body []).1,
          ds ++ (Macro.expand macros false [m.name] body []).2) := fun ds => by
      simpa using Macro.expand_append macros false [m.name] body ds []
    have silent : (Macro.expand macros false [m.name] body []).2 = [] := by
      obtain ⟨s, called, -⟩ := own.settle settles
      simp only [turnToken, called, withReader] at quiet
      rw [later, List.append_eq_nil_iff] at quiet
      exact quiet.2
    refine ⟨.emit (Macro.expand macros false [m.name] body []).1, macros, inner, us, settles.1,
      shorter (by simp), by simp, fun r r' outer remarks leads => ?_⟩
    obtain ⟨s, called, after⟩ := settles.2 r r' leads
    refine ⟨s, ?_, after⟩
    simp only [turnToken, called, withReader]
    rw [later s.diagnostics, silent, List.append_nil]

/-- A turn that reports nothing on whole lines alone goes the same way in every surrounding. -/
theorem exists_turns (lined : Lined (t :: ts)) (plain : ∀ u ∈ t :: ts, u.kind ≠ .backslash)
    (own : o.Holds (t :: ts))
    (quiet : (turn ⟨macros, o, inner, remarks⟩).2.reader.diagnostics = []) :
    Turns turn macros inner (t :: ts) := by
  obtain ⟨front, going⟩ := own.front
  have own' : o.peek.2.Holds (t :: ts) := by
    obtain ⟨o', leads, atEnd⟩ := own
    exact ⟨o', leads.peek, atEnd⟩
  by_cases branch : t.endsBranch
  · obtain ⟨stray, same⟩ := turn_of_endsBranch branch
    rw [same _ front] at quiet
    exact (turns_branchEnd lined own' quiet).of_front same
  by_cases conditional : t.isDirective "#if"
  · rw [turn_of_if conditional _ front] at quiet
    exact (turns_if conditional lined own' quiet).of_front (turn_of_if conditional)
  by_cases file : t.isDirective "#include"
  · rw [turn_of_include file _ front] at quiet
    exact (turns_include file lined own' quiet).of_front (turn_of_include file)
  by_cases definition : t.isDirective "#define"
  · rw [turn_of_define definition _ front] at quiet
    exact (turns_define definition lined plain own' quiet).of_front (turn_of_define definition)
  · have same := turn_of_other going branch conditional file definition
    rw [same _ front] at quiet
    exact (turns_token lined own' quiet).of_front same

/-! ## The whole run -/

/-- A run keeps the diagnostics it starts with. -/
theorem quiet_before_run {lib : Library} {chain : List String} {whole : Bool} {w : Work}
    {out : Array Token} (quiet : (run lib chain whole w out).2.2.reader.diagnostics = []) :
    w.reader.diagnostics = [] := by
  have split : w =
      earlier w.reader.diagnostics (w.withReader { w.reader with diagnostics := [] }) := by
    simp [earlier, withReader, Reader.earlier]
  rw [split, run_earlier] at quiet
  simp only [earlier, withReader, Reader.diagnostics_earlier, List.append_eq_nil_iff] at quiet
  exact quiet.1

/-- A run that reports nothing brings in every file that it asks for, and nothing is reported
there. -/
theorem exists_fetched {lib : Library} {chain : List String} {w w' : Work} {place : Token}
    {quoted : String} {out : Array Token} (taken : w.turn = (.enter place quoted, w'))
    (quiet : (run lib chain true w out).2.2.reader.diagnostics = []) :
    ∃ found data, lib.fetch chain quoted = (found, .ok data) ∧
      (bring lib chain w' found data).2.2.reader.diagnostics = [] := by
  rcases fetched : lib.fetch chain quoted with ⟨found, cause | data⟩
  · rw [run_of_error taken fetched, if_neg (by simp)] at quiet
    have := quiet_before_run quiet
    simp [refuse, reportAt, withReader, Reader.report] at this
  · rw [run_of_ok taken fetched, if_neg (by simp)] at quiet
    have after := quiet_before_run quiet
    exact ⟨found, data, rfl, after⟩

/-- A run that reports nothing begins with a turn that reports nothing. -/
theorem quiet_turn {lib : Library} {chain : List String} {w : Work} {out : Array Token}
    (quiet : (run lib chain true w out).2.2.reader.diagnostics = []) :
    w.turn.2.reader.diagnostics = [] := by
  rcases taken : w.turn with ⟨step, w'⟩
  cases step with
  | stop eof => rwa [run_of_stop taken] at quiet
  | emit ts =>
    rw [run_of_emit taken, if_neg (by simp)] at quiet
    exact quiet_before_run quiet
  | enter place quoted =>
    obtain ⟨found, data, -, silent⟩ := exists_fetched taken quiet
    exact quiet_before_run (w := (w'.noting chain found).visit found.path data) silent

/-- A file that brings in no diagnostics brings in the same whatever was found before it and
whatever is around. -/
theorem bring_alike {lib : Library} {chain : List String} {found : Resolution} {data : ByteArray}
    {r : Reader} (clean : r.diagnostics = [])
    (silent : (bring lib chain ⟨macros, r, inner, remarks⟩ found data).2.2.reader.diagnostics = [])
    (s : Reader) (outer : List Token) :
    (bring lib chain ⟨macros, s, outer, remarks⟩ found data).1 =
        (bring lib chain ⟨macros, r, inner, remarks⟩ found data).1 ∧
      (noting ⟨macros, s, outer, remarks⟩ chain found).resume
          (bring lib chain ⟨macros, s, outer, remarks⟩ found data).2.2 =
        ⟨(bring lib chain ⟨macros, r, inner, remarks⟩ found data).2.2.macros, s, outer,
          (bring lib chain ⟨macros, r, inner, remarks⟩ found data).2.2.remarks⟩ := by
  have start : (noting ⟨macros, s, outer, remarks⟩ chain found).visit found.path data =
      ((noting ⟨macros, r, inner, remarks⟩ chain found).visit found.path data).earlier
        s.diagnostics := by
    simp [earlier, withReader, visit, noting, remarkOn, remark, Reader.earlier, Reader.ofText,
      clean]
  have same : bring lib chain ⟨macros, s, outer, remarks⟩ found data =
      ((bring lib chain ⟨macros, r, inner, remarks⟩ found data).1,
        (bring lib chain ⟨macros, r, inner, remarks⟩ found data).2.1,
        (bring lib chain ⟨macros, r, inner, remarks⟩ found data).2.2.earlier s.diagnostics) := by
    rw [bring, start, run_earlier]
    rfl
  rw [same]
  refine ⟨rfl, ?_⟩
  simp [resume, noting, remark, remarkOn, earlier, withReader, silent]

/-- **Whole lines expand alike alone and in their surroundings.**  When a run over the lines alone
reports nothing, a run that comes to them inside of a conditional gets behind them with the macros,
the remarks and the tokens of the run over the lines alone. -/
theorem run_within (lib : Library) (chain : List String) (lined : Lined ts)
    (plain : ∀ t ∈ ts, t.kind ≠ .backslash) (own : o.Holds ts) {acc : Array Token}
    (quiet : (run lib chain true ⟨macros, o, inner, remarks⟩ acc).2.2.reader.diagnostics = [])
    {r r' : Reader} (leads : r.Leads ts r') {outer : List Token} (inside : outer ≠ []) (whole : Bool)
    (out : Array Token) :
    run lib chain whole ⟨macros, r, inner ++ outer, remarks⟩ (out ++ acc) =
      run lib chain whole
        ⟨(run lib chain true ⟨macros, o, inner, remarks⟩ acc).2.2.macros, r', outer,
          (run lib chain true ⟨macros, o, inner, remarks⟩ acc).2.2.remarks⟩
        (out ++ (run lib chain true ⟨macros, o, inner, remarks⟩ acc).1) := by
  induction hn : ts.length using Nat.strongRecOn generalizing ts o r macros inner remarks acc with
  | _ n ih =>
  cases ts with
  | nil =>
    obtain rfl := Reader.leads_nil.1 leads
    have atEnd := Reader.holds_nil.1 own
    cases inner with
    | nil =>
      have stopped : turn ⟨macros, o, [], remarks⟩ =
          (.stop o.peek.1, ⟨macros, o.peek.2, [], remarks⟩) := by
        simp [turn, atEnd, turnEnd, withReader]
      rw [run_of_stop stopped]
      rfl
    | cons innermost inner =>
      -- A conditional that is still open at the end of the lines is reported.
      have := quiet_turn quiet
      simp [turn, atEnd, turnEnd, withReader, Reader.report] at this
  | cons t ts =>
    obtain ⟨step, macros', inner', us, part, shorter, going, turned⟩ :=
      exists_turns lined plain own (quiet_turn quiet)
    obtain ⟨o', away, atEnd⟩ := own
    obtain ⟨s₀, alone, away⟩ := turned o o' [] remarks away
    obtain ⟨s, among, leads⟩ := turned r r' outer remarks leads
    rw [List.append_nil, List.append_nil] at alone
    have left : Lined us := lined.of_suffix part
    have plain' : ∀ u ∈ us, u.kind ≠ .backslash := fun u hu => plain u (part.subset hu)
    have going' : ∀ (macros : Macro.Table) (remarks : List String) (s : Reader),
        ¬((Work.mk macros s (inner' ++ outer) remarks).opened.isEmpty && !whole) := by
      intro macros remarks s
      simp [inside]
    cases step with
    | stop eof => exact absurd rfl (going eof)
    | emit us' =>
      rw [run_of_emit alone, if_neg (by simp)] at quiet ⊢
      have joined : out ++ acc ++ us' = out ++ (acc ++ us') := by
        apply Array.toList_inj.1
        simp
      rw [run_of_emit among, if_neg (going' _ _ _), joined]
      exact ih us.length (hn ▸ shorter) left plain' ⟨o', away, atEnd⟩ quiet leads rfl
    | enter place quoted =>
      have clean : s₀.diagnostics = [] := by
        have := quiet_turn quiet
        rwa [alone] at this
      obtain ⟨found, data, fetched, silent⟩ := exists_fetched alone quiet
      rw [run_of_ok alone fetched, if_neg (by simp)] at quiet ⊢
      rw [run_of_ok among fetched, if_neg (going' _ _ _), Array.append_assoc]
      obtain ⟨sameTokens, sameWork⟩ := bring_alike clean silent s (inner' ++ outer)
      obtain ⟨-, alone'⟩ := bring_alike clean silent s₀ inner'
      rw [alone'] at quiet ⊢
      rw [sameTokens, sameWork]
      exact ih us.length (hn ▸ shorter) left plain' ⟨o', away, atEnd⟩ quiet leads rfl

end Work

end RoomScript
