import RoomScript.Preprocess.Run
import RoomScript.Proofs.Token.Advance

/-!
# Diagnostics found earlier

Reading and expanding append diagnostics, and nothing ever looks at those that are there already.
So diagnostics that were found earlier may be put in front before an operation or after it.

* every operation of the preprocessor on a reader commutes with `Reader.earlier`;
* `Work.earlier` is the same for the work on a file, and a turn and a run of turns commute with it
  (`Work.turn_earlier`, `Work.run_earlier`).
-/

namespace RoomScript

/-! ## Macro calls -/

namespace Reader

variable (ds : List Diagnostic)

@[simp] theorem readArguments_earlier (r : Reader) :
    (r.earlier ds).readArguments = (r.readArguments.1, r.readArguments.2.earlier ds) := by
  simp [readArguments]

@[simp] theorem callBody_earlier (m : Macro) (name : Token) (r : Reader) :
    (r.earlier ds).callBody m name = ((r.callBody m name).1, (r.callBody m name).2.earlier ds) := by
  unfold callBody
  simp only [peekNoWhitespace_earlier, skip_earlier, readArguments_earlier, report_earlier]
  split
  · split <;> rfl
  · rcases (r.peekNoWhitespace.2.skip (r.peekNoWhitespace.1.2 + 1)).readArguments with
      ⟨_ | args, after⟩
    · simp only [report_earlier]
    · simp only [report_earlier]
      split <;> rfl

@[simp] theorem refuseCall_earlier (m : Macro) (name : Token) (r : Reader) :
    (r.earlier ds).refuseCall m name = (r.refuseCall m name).earlier ds := by
  unfold refuseCall
  simp only [report_earlier, peekNoWhitespace_earlier, skip_earlier, readArguments_earlier]
  split <;> rfl

@[simp] theorem call_earlier (table : Macro.Table) (active : List String) (r : Reader) :
    (r.earlier ds).call table active =
      ((r.call table active).1, (r.call table active).2.earlier ds) := by
  unfold call
  simp only [peek_earlier, read_earlier, refuseCall_earlier, callBody_earlier]
  split
  · rfl
  · split <;> rfl

@[simp] theorem readDefined_earlier (table : Macro.Table) (r : Reader) :
    (r.earlier ds).readDefined table =
      ((r.readDefined table).1, (r.readDefined table).2.earlier ds) := by
  unfold readDefined
  simp only [readNoWhitespace_earlier, report_earlier]
  split
  · rfl
  · split
    · rfl
    · split <;> rfl

@[simp] theorem replace_earlier (table : Macro.Table) (condition : Bool) (active : List String)
    (r : Reader) : (r.earlier ds).replace table condition active =
      ((r.replace table condition active).1, (r.replace table condition active).2.earlier ds) := by
  unfold replace
  simp only [peek_earlier, read_earlier, readDefined_earlier, call_earlier]
  split <;> rfl

end Reader

/-! ## Expanding captured tokens -/

theorem Macro.expandOnto_earlier (ds : List Diagnostic) (table : Table) (condition : Bool)
    (active : List String) (r : Reader) (out : Array Token) :
    expandOnto table condition active (r.earlier ds) out =
      ((expandOnto table condition active r out).1,
        ds ++ (expandOnto table condition active r out).2) := by
  fun_induction expandOnto table condition active r out with
  | case1 active r out seen atEnd =>
    rw [expandOnto, dif_pos (by simpa using atEnd)]
    simp [seen]
  | case2 active r out seen going after found ih =>
    have found' : (r.earlier ds).replace table condition active = (.keep, after.earlier ds) := by
      rw [Reader.replace_earlier, found]
    rw [expandOnto, dif_neg (by simpa using going)]
    split <;> rename_i h <;> rw [found'] at h <;> cases h
    simpa [seen] using ih
  | case3 active r out seen going ts after found ih =>
    have found' :
        (r.earlier ds).replace table condition active = (.tokens ts, after.earlier ds) := by
      rw [Reader.replace_earlier, found]
    rw [expandOnto, dif_neg (by simpa using going)]
    split <;> rename_i h <;> rw [found'] at h <;> cases h
    exact ih
  | case4 active r out seen going m ts after found inner ihInner ih =>
    have found' : (r.earlier ds).replace table condition active =
        (.rescan m ts, after.earlier ds) := by
      rw [Reader.replace_earlier, found]
    have nested : expandOnto table condition (m.name :: active)
        (.ofTokens ts (after.earlier ds).diagnostics) #[] = (inner.1, ds ++ inner.2) := ihInner
    rw [expandOnto, dif_neg (by simpa using going)]
    split <;> rename_i h <;> rw [found'] at h <;> cases h
    simp only [nested]
    exact ih

/-- Expanding a list adds the same diagnostics whatever was found earlier. -/
theorem Macro.expand_append (table : Table) (condition : Bool) (active : List String)
    (tokens : List Token) (ds es : List Diagnostic) :
    expand table condition active tokens (ds ++ es) =
      ((expand table condition active tokens es).1,
        ds ++ (expand table condition active tokens es).2) := by
  have whole := expandOnto_earlier ds table condition active (.ofTokens tokens es) #[]
  simp only [expand]
  exact congrArg (fun x : Array Token × List Diagnostic => (x.1.toList, x.2)) whole

/-! ## Branches step by step -/

theorem Token.not_isDirective {t : Token} {word other : String} (h : t.isDirective word)
    (differ : word ≠ other) : t.isDirective other = false := by
  simp only [Token.isDirective, Bool.and_eq_true, beq_iff_eq] at h
  simp [Token.isDirective, h.2, differ]

namespace Reader

section Branch

variable {table : Macro.Table} {opened : Token} {r : Reader}

/-- At `#elif` the condition decides whether the branch is taken. -/
theorem findBranch_elif (h : r.peek.1.isDirective "#elif") : r.findBranch table opened =
    if (r.read.2.condition table r.peek.1).1 then (true, (r.read.2.condition table r.peek.1).2)
    else (r.read.2.condition table r.peek.1).2.skipBranch.findBranch table opened := by
  rw [findBranch]
  simp only [h, if_true]
  split <;> rename_i found <;> simp [found]

theorem findBranch_else (h : r.peek.1.isDirective "#else") :
    r.findBranch table opened = (true, r.read.2.endOfDirective) := by
  rw [findBranch]
  simp [h, Token.not_isDirective h (by decide : _ ≠ "#elif")]

theorem findBranch_endif (h : r.peek.1.isDirective "#endif") :
    r.findBranch table opened = (false, r.read.2.endOfDirective) := by
  rw [findBranch]
  simp [h, Token.not_isDirective h (by decide : _ ≠ "#elif"),
    Token.not_isDirective h (by decide : _ ≠ "#else")]

theorem leaveBranch_elif (h : r.peek.1.isDirective "#elif") :
    r.leaveBranch opened = r.read.2.skipLine.skipBranch.leaveBranch opened := by
  rw [leaveBranch]
  simp [h]

theorem leaveBranch_else (h : r.peek.1.isDirective "#else") :
    r.leaveBranch opened = r.read.2.endOfDirective.skipBranch.leaveBranch opened := by
  rw [leaveBranch]
  simp [h, Token.not_isDirective h (by decide : _ ≠ "#elif")]

theorem leaveBranch_endif (h : r.peek.1.isDirective "#endif") :
    r.leaveBranch opened = r.read.2.endOfDirective := by
  rw [leaveBranch]
  simp [h, Token.not_isDirective h (by decide : _ ≠ "#elif"),
    Token.not_isDirective h (by decide : _ ≠ "#else")]

end Branch

end Reader

/-! ## Branches and definitions -/

namespace Reader

variable (ds : List Diagnostic)

@[simp] theorem skipBranch_earlier (r : Reader) :
    (r.earlier ds).skipBranch = r.skipBranch.earlier ds := by
  simp [skipBranch]

@[simp] theorem endOfDirective_earlier (r : Reader) :
    (r.earlier ds).endOfDirective = r.endOfDirective.earlier ds := by
  unfold endOfDirective
  rw [loop_earlier]
  rcases r.loop endOfDirective.judge none with ⟨_ | t, after⟩ <;> simp

@[simp] theorem condition_earlier (table : Macro.Table) (directive : Token) (r : Reader) :
    (r.earlier ds).condition table directive =
      ((r.condition table directive).1, (r.condition table directive).2.earlier ds) := by
  unfold condition
  simp only [readLine_earlier, diagnostics_earlier, Macro.expand_append, earlier_with_diagnostics]
  split <;> simp

theorem findBranch_earlier (table : Macro.Table) (opened : Token) (r : Reader) :
    (r.earlier ds).findBranch table opened =
      ((r.findBranch table opened).1, (r.findBranch table opened).2.earlier ds) := by
  have seen : ∀ r : Reader, (r.earlier ds).peek.1 = r.peek.1 := fun r => by rw [peek_earlier]
  fun_induction findBranch table opened r with
  | case1 r front isElif after found =>
    rw [findBranch_elif (by rw [seen]; exact isElif), seen, read_earlier, condition_earlier, found]
    rfl
  | case2 r front isElif after found ih =>
    rw [findBranch_elif (by rw [seen]; exact isElif), seen, read_earlier, condition_earlier, found]
    simpa using ih
  | case3 r front noElif isElse =>
    rw [findBranch]
    simp only [seen]
    rw [if_neg noElif, if_pos isElse]
    simp
  | case4 r front noElif noElse isEndif =>
    rw [findBranch]
    simp only [seen]
    rw [if_neg noElif, if_neg noElse, if_pos isEndif]
    simp
  | case5 r front noElif noElse noEndif =>
    rw [findBranch]
    simp only [seen]
    rw [if_neg noElif, if_neg noElse, if_neg noEndif]
    simp

@[simp] theorem enterBranch_earlier (table : Macro.Table) (opened : Token) (r : Reader) :
    (r.earlier ds).enterBranch table opened =
      ((r.enterBranch table opened).1, (r.enterBranch table opened).2.earlier ds) := by
  unfold enterBranch
  rw [condition_earlier]
  rcases r.condition table opened with ⟨_ | _, after⟩
  · simp [findBranch_earlier]
  · rfl

@[simp] theorem leaveBranch_earlier (opened : Token) (r : Reader) :
    (r.earlier ds).leaveBranch opened = (r.leaveBranch opened).earlier ds := by
  have seen : ∀ r : Reader, (r.earlier ds).peek.1 = r.peek.1 := fun r => by rw [peek_earlier]
  fun_induction leaveBranch opened r with
  | case1 r front isElif ih =>
    rw [leaveBranch]
    simp only [seen]
    rw [if_pos isElif]
    simpa using ih
  | case2 r front noElif isElse ih =>
    rw [leaveBranch]
    simp only [seen]
    rw [if_neg noElif, if_pos isElse]
    simpa using ih
  | case3 r front noElif noElse isEndif =>
    rw [leaveBranch]
    simp only [seen]
    rw [if_neg noElif, if_neg noElse, if_pos isEndif]
    simp
  | case4 r front noElif noElse noEndif =>
    rw [leaveBranch]
    simp only [seen]
    rw [if_neg noElif, if_neg noElse, if_neg noEndif]
    simp

@[simp] theorem readParameters_earlier (r : Reader) :
    (r.earlier ds).readParameters = (r.readParameters.1, r.readParameters.2.earlier ds) := by
  unfold readParameters
  simp only [loop_earlier]
  split <;> simp

@[simp] theorem readBody_earlier (r : Reader) :
    (r.earlier ds).readBody = (r.readBody.1, r.readBody.2.earlier ds) := by
  unfold readBody
  simp only [skipWhitespace_earlier, loop_earlier]
  split <;> simp

@[simp] theorem readDefinition_earlier (r : Reader) :
    (r.earlier ds).readDefinition = (r.readDefinition.1, r.readDefinition.2.earlier ds) := by
  unfold readDefinition
  simp only [skipWhitespace_earlier, peek_earlier, read_earlier, report_earlier,
    skipToNewline_earlier, readParameters_earlier, readBody_earlier]
  split
  · rfl
  · split
    · rcases r.skipWhitespace.peek.2.read.2.peek.2.read.2.readParameters with ⟨_ | params, after⟩
      · simp
      · simp
    · rfl

end Reader

/-! ## Turns and runs -/

namespace Work

variable (ds : List Diagnostic)

/-- The work after diagnostics found earlier. -/
def earlier (w : Work) : Work :=
  w.withReader (w.reader.earlier ds)

theorem turnEnd_earlier (w : Work) (eof : Token) :
    (w.earlier ds).turnEnd eof = ((w.turnEnd eof).1, (w.turnEnd eof).2.earlier ds) := by
  obtain ⟨macros, r, opened, remarks⟩ := w
  cases opened <;> simp [turnEnd, earlier, withReader]

theorem turnBranchEnd_earlier (w : Work) (directive : Token) (stray : Cause) :
    (w.earlier ds).turnBranchEnd directive stray =
      ((w.turnBranchEnd directive stray).1, (w.turnBranchEnd directive stray).2.earlier ds) := by
  obtain ⟨macros, r, opened, remarks⟩ := w
  cases opened <;> simp [turnBranchEnd, earlier, withReader]

theorem turnIf_earlier (w : Work) (directive : Token) :
    (w.earlier ds).turnIf directive =
      ((w.turnIf directive).1, (w.turnIf directive).2.earlier ds) := by
  obtain ⟨macros, r, opened, remarks⟩ := w
  simp only [turnIf, earlier, withReader, Reader.read_earlier, Reader.enterBranch_earlier]
  rcases r.read.2.enterBranch macros directive with ⟨_ | _, after⟩ <;> rfl

theorem turnInclude_earlier (w : Work) :
    (w.earlier ds).turnInclude = (w.turnInclude.1, w.turnInclude.2.earlier ds) := by
  obtain ⟨macros, r, opened, remarks⟩ := w
  simp only [turnInclude, earlier, withReader, Reader.read_earlier, Reader.skipWhitespace_earlier,
    Reader.peek_earlier]
  split <;> simp

theorem turnDefine_earlier (w : Work) :
    (w.earlier ds).turnDefine = (w.turnDefine.1, w.turnDefine.2.earlier ds) := by
  obtain ⟨macros, r, opened, remarks⟩ := w
  simp only [turnDefine, earlier, withReader, Reader.read_earlier, Reader.readDefinition_earlier]
  rcases r.read.2.readDefinition with ⟨_ | m, after⟩ <;> rfl

theorem turnToken_earlier (w : Work) (t : Token) :
    (w.earlier ds).turnToken t = ((w.turnToken t).1, (w.turnToken t).2.earlier ds) := by
  obtain ⟨macros, r, opened, remarks⟩ := w
  simp only [turnToken, earlier, withReader, Reader.call_earlier]
  rcases r.call macros [] with ⟨_ | ts | ⟨m, ts⟩, after⟩
  · simp
  · rfl
  · simp only [Reader.diagnostics_earlier, Macro.expand_append, Reader.earlier_with_diagnostics]

/-- A turn does not look at the diagnostics found before it. -/
theorem turn_earlier (w : Work) : (w.earlier ds).turn = (w.turn.1, w.turn.2.earlier ds) := by
  have peeked : (w.earlier ds).withReader (w.reader.peek.2.earlier ds) =
      (w.withReader w.reader.peek.2).earlier ds := rfl
  have seen : (w.earlier ds).reader.peek = (w.reader.peek.1, w.reader.peek.2.earlier ds) :=
    Reader.peek_earlier ds w.reader
  unfold turn
  simp only [seen, peeked]
  split
  · exact turnEnd_earlier ..
  · split
    · split
      · exact turnBranchEnd_earlier ..
      · exact turnBranchEnd_earlier ..
      · exact turnBranchEnd_earlier ..
      · exact turnIf_earlier ..
      · exact turnInclude_earlier ..
      · exact turnDefine_earlier ..
      · exact turnToken_earlier ..
    · exact turnToken_earlier ..

/-! ## Runs step by step -/

section Run

variable {lib : Library} {chain : List String} {whole : Bool} {w w' : Work} {out : Array Token}

theorem run_of_stop {eof : Token} (h : w.turn = (.stop eof, w')) :
    run lib chain whole w out = (out, some eof, w') := by
  rw [run]
  split <;> rename_i taken <;> rw [h] at taken <;> cases taken
  rfl

theorem run_of_emit {ts : List Token} (h : w.turn = (.emit ts, w')) :
    run lib chain whole w out = if w'.opened.isEmpty && !whole then (out ++ ts, none, w')
      else run lib chain whole w' (out ++ ts) := by
  rw [run]
  split <;> rename_i taken <;> rw [h] at taken <;> cases taken
  rfl

/-- The work after a file that cannot be brought in. -/
def refuse (w : Work) (place : Token) (found : Resolution) (cause : Cause) : Work :=
  (w.remarkOn found).reportAt place cause

theorem run_of_error {place : Token} {quoted : String} {found : Resolution} {cause : Cause}
    (h : w.turn = (.enter place quoted, w'))
    (fetched : lib.fetch chain quoted = (found, .error cause)) :
    run lib chain whole w out =
      if (w'.refuse place found cause).opened.isEmpty && !whole then
        (out, none, w'.refuse place found cause)
      else run lib chain whole (w'.refuse place found cause) out := by
  rw [run]
  split <;> rename_i taken <;> rw [h] at taken <;> cases taken
  split <;> rename_i got <;> rw [fetched] at got <;> cases got
  rfl

/-- The work that goes to bring in a file. -/
def noting (w : Work) (chain : List String) (found : Resolution) : Work :=
  (w.remarkOn found).remark (includingRemark found.path (chain.headD ""))

/-- The run over the file that is brought in. -/
def bring (lib : Library) (chain : List String) (w : Work) (found : Resolution)
    (data : ByteArray) : Array Token × Option Token × Work :=
  run lib (found.path :: chain) true ((w.noting chain found).visit found.path data) #[]

theorem run_of_ok {place : Token} {quoted : String} {found : Resolution} {data : ByteArray}
    (h : w.turn = (.enter place quoted, w'))
    (fetched : lib.fetch chain quoted = (found, .ok data)) :
    run lib chain whole w out =
      if w'.opened.isEmpty && !whole then
        (out ++ (bring lib chain w' found data).1, none,
          (w'.noting chain found).resume (bring lib chain w' found data).2.2)
      else run lib chain whole ((w'.noting chain found).resume (bring lib chain w' found data).2.2)
        (out ++ (bring lib chain w' found data).1) := by
  rw [run]
  split <;> rename_i taken <;> rw [h] at taken <;> cases taken
  split <;> rename_i got <;> rw [fetched] at got <;> cases got
  rfl

end Run

/-- A run of turns does not look at the diagnostics found before it. -/
theorem run_earlier (lib : Library) (chain : List String) (whole : Bool) (w : Work)
    (out : Array Token) : run lib chain whole (w.earlier ds) out =
      ((run lib chain whole w out).1, (run lib chain whole w out).2.1,
        (run lib chain whole w out).2.2.earlier ds) := by
  have turned : ∀ {w w' : Work} {step : Step}, w.turn = (step, w') →
      (w.earlier ds).turn = (step, w'.earlier ds) := by
    intro w w' step h
    rw [turn_earlier, h]
  have refused : ∀ (w : Work) (place : Token) (found : Resolution) (cause : Cause),
      (w.earlier ds).refuse place found cause = (w.refuse place found cause).earlier ds := by
    intro w place found cause
    simp [refuse, earlier, withReader, remarkOn, reportAt]
  fun_induction run lib chain whole w out with
  | case1 chain whole w out eof w' taken => rw [run_of_stop (turned taken)]
  | case2 chain whole w out ts w' taken left =>
    rw [run_of_emit (turned taken)]
    exact if_pos left
  | case3 chain whole w out ts w' taken going ih =>
    rw [run_of_emit (turned taken)]
    exact (if_neg going).trans ih
  | case4 chain whole w out place quoted w' taken found cause fetched w'' left =>
    rw [run_of_error (turned taken) fetched, refused]
    exact if_pos left
  | case5 chain whole w out place quoted w' taken found cause fetched w'' going ih =>
    rw [run_of_error (turned taken) fetched, refused]
    exact (if_neg going).trans ih
  | case6 chain whole w out place quoted w₁ taken found data fetched w₂ brought last visited ran
      w₃ left ih =>
    have same : bring lib chain (w₁.earlier ds) found data =
        (brought, last, visited.earlier ds) := by
      rw [ran] at ih
      exact ih
    rw [run_of_ok (turned taken) fetched, same]
    exact if_pos left
  | case7 chain whole w out place quoted w₁ taken found data fetched w₂ brought last visited ran
      w₃ going ihInner ih =>
    have same : bring lib chain (w₁.earlier ds) found data =
        (brought, last, visited.earlier ds) := by
      rw [ran] at ihInner
      exact ihInner
    rw [run_of_ok (turned taken) fetched, same]
    exact (if_neg going).trans ih

end Work

end RoomScript
