import RoomScript.Preprocess.Stream

/-!
# What all expanded tokens have in common

Expanding moves tokens about and makes only blanks of its own.  A property that every token of the
scanner has, and those blanks too, is a property of every token of an expanded text.

* `Token.Lasting` are these properties;
* `Reader.All` says that all tokens a reader can come to have the property, and there is one lemma
  for each operation on readers;
* `Work.All.turn` is one turn, `Work.All.run` a run of turns, and `Preprocessor.All.expand` a file.
-/

namespace RoomScript

/-- A property of all tokens of the scanner, of end tokens, and of the blank that is written for a
line end or a comment. -/
structure Token.Lasting (P : Token → Prop) : Prop where
  scanned (s : Scanner) : P s.next.1
  ended (place : EndPlace) : P place.token
  blank (t : Token) : P t → P { t with kind := .whitespace, lexeme := " " }

variable {P : Token → Prop}

theorem all_empty : ∀ t ∈ (#[] : Array Token), P t := by
  simp

/-- All tokens of a text have the property. -/
theorem Scanner.all_scanOnto (lasting : Token.Lasting P) (s : Scanner) {tokens : Array Token}
    (found : Array Diagnostic) (all : ∀ t ∈ tokens, P t) :
    ∀ t ∈ (s.scanOnto tokens found).1, P t := by
  have longer : ∀ {s : Scanner} {tokens : Array Token}, (∀ t ∈ tokens, P t) →
      ∀ t ∈ tokens.push s.next.1, P t := by
    intro s tokens all
    simpa [or_imp, forall_and] using ⟨all, lasting.scanned s⟩
  fun_induction Scanner.scanOnto s tokens found with
  | case1 => exact longer all
  | case2 s tokens found pulled tokens' found' going ih => exact ih (longer all)

/-! ## Readers -/

/-- All tokens that a source holds have the property. -/
def Source.All (P : Token → Prop) : Source → Prop
  | .scanner _ => True
  | .replay ts _ => ∀ t ∈ ts, P t

theorem Source.All.next (lasting : Token.Lasting P) {s : Source} (all : s.All P) :
    P s.next.1 ∧ s.next.2.2.All P := by
  match s, all with
  | .scanner s, _ => exact ⟨lasting.scanned s, trivial⟩
  | .replay (t :: ts) last, all => exact List.forall_mem_cons.1 all
  | .replay [] last, all => exact ⟨lasting.ended last, all⟩

namespace Reader

/-- All tokens that a reader holds have the property. -/
structure All (P : Token → Prop) (r : Reader) : Prop where
  source : r.source.All P
  lookahead : ∀ t ∈ r.lookahead, P t

theorem all_ofTokens {ts : List Token} (all : ∀ t ∈ ts, P t) (ds : List Diagnostic) :
    (ofTokens ts ds).All P :=
  ⟨all, List.forall_mem_nil _⟩

theorem all_ofText (path text : String) (ds : List Diagnostic) : (ofText path text ds).All P :=
  ⟨trivial, List.forall_mem_nil _⟩

/-- A verdict goes on with a state that has the property. -/
def Verdict.All {σ : Type} (Q : σ → Prop) : Verdict σ → Prop
  | .stay s | .last s | .more s => Q s

namespace All

variable {r : Reader}

theorem report (all : r.All P) (d : Diagnostic) : (r.report d).All P :=
  ⟨all.source, all.lookahead⟩

theorem with_diagnostics (all : r.All P) (ds : List Diagnostic) :
    All P { r with diagnostics := ds } :=
  ⟨all.source, all.lookahead⟩

theorem peek (lasting : Token.Lasting P) (all : r.All P) : P r.peek.1 ∧ r.peek.2.All P := by
  obtain ⟨source, lookahead, ds⟩ := r
  cases lookahead with
  | cons t ts => exact ⟨all.lookahead t List.mem_cons_self, all⟩
  | nil =>
    obtain ⟨front, after⟩ := all.source.next lasting
    exact ⟨front, after, List.forall_mem_singleton.2 front⟩

theorem read (lasting : Token.Lasting P) (all : r.All P) : P r.read.1 ∧ r.read.2.All P := by
  obtain ⟨source, lookahead, ds⟩ := r
  cases lookahead with
  | cons t ts =>
    obtain ⟨front, others⟩ := List.forall_mem_cons.1 all.lookahead
    refine ⟨front, ?_⟩
    rw [read_cons]
    split
    · exact all
    · exact ⟨all.source, others⟩
  | nil =>
    obtain ⟨front, after⟩ := all.source.next lasting
    refine ⟨front, after, ?_⟩
    show ∀ t ∈ if source.next.1.kind = .eof then [source.next.1] else [], P t
    split
    · exact List.forall_mem_singleton.2 front
    · exact List.forall_mem_nil _

/-- A loop keeps the property of the tokens, and any property of its state that one verdict
keeps. -/
theorem loop (lasting : Token.Lasting P) {σ : Type} {judge : σ → Token → Verdict σ} {Q : σ → Prop}
    (step : ∀ a t, Q a → P t → (judge a t).All Q) {a : σ} (ha : Q a) (all : r.All P) :
    Q (r.loop judge a).1 ∧ (r.loop judge a).2.All P := by
  have next : ∀ {r : Reader}, r.All P → r.peek.2.read.2.All P := fun all =>
    ((all.peek lasting).2.read lasting).2
  fun_induction Reader.loop judge a r with
  | case1 a r seen b verdict =>
    have kept := step a seen.1 ha (all.peek lasting).1
    rw [verdict] at kept
    exact ⟨kept, (all.peek lasting).2⟩
  | case2 a r seen b verdict =>
    have kept := step a seen.1 ha (all.peek lasting).1
    rw [verdict] at kept
    exact ⟨kept, next all⟩
  | case3 a r seen b verdict =>
    have kept := step a seen.1 ha (all.peek lasting).1
    rw [verdict] at kept
    exact ⟨kept, (all.peek lasting).2⟩
  | case4 a r seen b verdict going ih =>
    have kept := step a seen.1 ha (all.peek lasting).1
    rw [verdict] at kept
    exact ih kept (next all)

/-- A loop of which only the reader matters. -/
theorem loop_reader (lasting : Token.Lasting P) {σ : Type} (judge : σ → Token → Verdict σ) (a : σ)
    (all : r.All P) : (r.loop judge a).2.All P := by
  refine (all.loop lasting (Q := fun _ => True) (fun a t _ _ => ?_) trivial).2
  cases judge a t <;> trivial

theorem skipWhitespace (lasting : Token.Lasting P) (all : r.All P) : r.skipWhitespace.All P :=
  all.loop_reader lasting _ _

theorem skipLine (lasting : Token.Lasting P) (all : r.All P) : r.skipLine.All P :=
  all.loop_reader lasting _ _

theorem skipToNewline (lasting : Token.Lasting P) (all : r.All P) : r.skipToNewline.All P :=
  all.loop_reader lasting _ _

theorem skipBranch (lasting : Token.Lasting P) (all : r.All P) : r.skipBranch.All P :=
  all.loop_reader lasting _ _

theorem readLine (lasting : Token.Lasting P) (all : r.All P) : r.readLine.2.All P :=
  all.loop_reader lasting _ _

theorem pull (lasting : Token.Lasting P) (all : r.All P) : r.pull.All P := by
  obtain ⟨front, after⟩ := all.source.next lasting
  refine ⟨after, fun t mem => ?_⟩
  rcases List.mem_append.1 mem with old | new
  · exact all.lookahead t old
  · rwa [List.mem_singleton.1 new]

theorem pullNoWhitespace (lasting : Token.Lasting P) (all : r.All P) (distance : Nat) :
    (r.pullNoWhitespace distance).2.All P := by
  fun_induction Reader.pullNoWhitespace r distance with
  | case1 r distance _ _ ih => exact ih (all.pull lasting)
  | case2 r distance _ _ => exact all.pull lasting

theorem peekNoWhitespace (lasting : Token.Lasting P) (all : r.All P) :
    r.peekNoWhitespace.2.All P := by
  unfold Reader.peekNoWhitespace
  simp only
  split
  · exact all
  · exact all.pullNoWhitespace lasting _

theorem skip (lasting : Token.Lasting P) (all : r.All P) (count : Nat) : (r.skip count).All P := by
  induction count generalizing r with
  | zero => exact all
  | succ count ih => exact ih (all.read lasting).2

end All

end Reader

/-! ## Calls -/

/-- All tokens of the bodies have the property. -/
def Macro.Table.All (P : Token → Prop) (table : Macro.Table) : Prop :=
  ∀ m ∈ table, ∀ t ∈ m.body, P t

/-- All tokens that take the place of something have the property. -/
def Replacement.All (P : Token → Prop) : Replacement → Prop
  | .keep => True
  | .tokens ts | .rescan _ ts => ∀ t ∈ ts, P t

theorem Token.all_trimBlanks {ts : List Token} (all : ∀ t ∈ ts, P t) :
    ∀ t ∈ Token.trimBlanks ts, P t := by
  intro t mem
  have inside := (List.dropWhile_suffix _).subset (List.mem_reverse.1 mem)
  exact all t ((List.dropWhile_suffix _).subset (List.mem_reverse.1 inside))

theorem Macro.all_substitute {m : Macro} {args : List (List Token)} (body : ∀ t ∈ m.body, P t)
    (all : ∀ arg ∈ args, ∀ t ∈ arg, P t) : ∀ t ∈ m.substitute args, P t := by
  intro t mem
  obtain ⟨u, inBody, mem⟩ := List.mem_flatMap.1 mem
  have alone : t ∈ [u] → P t := fun h => List.mem_singleton.1 h ▸ body u inBody
  split at mem
  · cases found : (m.params.zip args).lookup u.lexeme with
    | none =>
      rw [found] at mem
      exact alone mem
    | some arg =>
      rw [found] at mem
      obtain ⟨before, after, split, -⟩ := List.lookup_eq_some_iff.1 found
      have listed : (u.lexeme, arg) ∈ m.params.zip args := by
        rw [split]
        exact List.mem_append_right _ List.mem_cons_self
      exact all arg (List.of_mem_zip listed).2 t mem
  · exact alone mem

namespace Reader

/-- All tokens of an argument list have the property. -/
structure Arguments.All (P : Token → Prop) (a : Arguments) : Prop where
  finished : ∀ arg ∈ a.finished.toList, ∀ t ∈ arg, P t
  current : ∀ t ∈ a.current.toList, P t

namespace Arguments.All

variable {a : Arguments} {t : Token}

theorem push (all : a.All P) (ht : P t) : (a.push t).All P := by
  refine ⟨all.finished, fun u mem => ?_⟩
  have either : u ∈ a.current.toList ∨ u = t := by simpa [Arguments.push] using mem
  rcases either with old | rfl
  · exact all.current u old
  · exact ht

theorem finish (all : a.All P) : a.finish.All P := by
  refine ⟨fun arg mem => ?_, by simp [Arguments.finish]⟩
  have either : arg ∈ a.finished.toList ∨ arg = Token.trimBlanks a.current.toList := by
    simpa [Arguments.finish] using mem
  rcases either with old | rfl
  · exact all.finished arg old
  · exact Token.all_trimBlanks all.current

theorem close (all : a.All P) : a.close.All P := by
  unfold Arguments.close
  split
  · exact ⟨all.finished, all.current⟩
  · exact ⟨all.finish.finished, all.finish.current⟩

theorem judge (lasting : Token.Lasting P) (all : a.All P) (ht : P t) :
    (a.judge t).All (Arguments.All P) := by
  have kept := all.push ht
  have blank := all.push (lasting.blank t ht)
  unfold Arguments.judge
  split
  · exact all
  · exact ⟨kept.finished, kept.current⟩
  · split
    · exact all.close
    · exact ⟨kept.finished, kept.current⟩
  · split
    · exact all.finish
    · exact kept
  · exact blank
  · exact blank
  · exact kept

end Arguments.All

namespace All

variable {r : Reader} {table : Macro.Table}

theorem readArguments (lasting : Token.Lasting P) (all : r.All P) :
    (∀ args, r.readArguments.1 = some args → ∀ arg ∈ args, ∀ t ∈ arg, P t) ∧
      r.readArguments.2.All P := by
  have start : Arguments.All P {} := ⟨by simp, by simp⟩
  obtain ⟨args, after⟩ := all.loop lasting (fun a t ha ht => ha.judge lasting ht) start
  refine ⟨fun found h => ?_, after⟩
  unfold Reader.readArguments at h
  simp only at h
  split at h
  · cases h
    exact args.finished
  · cases h

theorem callBody (lasting : Token.Lasting P) {m : Macro} (body : ∀ t ∈ m.body, P t) (name : Token)
    (all : r.All P) : (r.callBody m name).1.All P ∧ (r.callBody m name).2.All P := by
  have peeked := all.peekNoWhitespace lasting
  obtain ⟨args, after⟩ := (peeked.skip lasting (r.peekNoWhitespace.1.2 + 1)).readArguments lasting
  have nothing : Replacement.All P (.tokens []) := List.forall_mem_nil _
  unfold Reader.callBody
  simp only
  split
  · split
    · exact ⟨body, peeked⟩
    · exact ⟨nothing, peeked.report _⟩
  · split
    · rename_i h
      rw [h] at after
      exact ⟨nothing, after.report _⟩
    · rename_i found s h
      rw [h] at args after
      split
      · exact ⟨nothing, after.report _⟩
      · exact ⟨Macro.all_substitute body (args found rfl), after⟩

theorem refuseCall (lasting : Token.Lasting P) (m : Macro) (name : Token) (all : r.All P) :
    (r.refuseCall m name).All P := by
  have peeked := (all.report (name.diagnostic (.recursiveMacro m.name))).peekNoWhitespace lasting
  unfold Reader.refuseCall
  simp only
  split
  · exact ((peeked.skip lasting _).readArguments lasting).2
  · exact peeked

theorem call (lasting : Token.Lasting P) (macros : table.All P) (active : List String)
    (all : r.All P) : (r.call table active).1.All P ∧ (r.call table active).2.All P := by
  have peeked := (all.peek lasting).2
  have read := (peeked.read lasting).2
  unfold Reader.call
  simp only
  split
  · exact ⟨trivial, peeked⟩
  · rename_i m found
    have known : m ∈ table := by
      split at found
      · exact Macro.Table.mem_of_find? found
      · cases found
    split
    · exact ⟨List.forall_mem_nil _, read.refuseCall lasting m _⟩
    · exact read.callBody lasting (macros m known) _

end All

end Reader

theorem all_append {out : Array Token} {ts : List Token} (hout : ∀ t ∈ out, P t)
    (hts : ∀ t ∈ ts, P t) : ∀ t ∈ out ++ ts, P t := by
  intro t mem
  rw [← Array.mem_toList_iff, Array.toList_appendList, List.mem_append, Array.mem_toList_iff] at mem
  exact mem.elim (hout t) (hts t)

/-- Outside of conditions, expanding a list keeps the property. -/
theorem Macro.all_expandOnto (lasting : Token.Lasting P) {table : Macro.Table}
    (macros : table.All P) (active : List String) {r : Reader} (all : r.All P) {out : Array Token}
    (hout : ∀ t ∈ out, P t) :
    ∀ t ∈ (Macro.expandOnto table false active r out).1, P t := by
  have replaced : ∀ (active : List String) {r : Reader}, r.All P →
      (r.replace table false active).1.All P ∧ (r.replace table false active).2.All P := by
    intro active r all
    have outside : r.replace table false active = r.peek.2.call table active := by
      simp [Reader.replace]
    rw [outside]
    exact (all.peek lasting).2.call lasting macros active
  generalize outside : false = condition at *
  fun_induction Macro.expandOnto table condition active r out with
  | case1 => exact hout
  | case2 active r out seen front _ _ ih =>
    have peeked := all.peek lasting
    refine ih (peeked.2.read lasting).2 ?_
    simpa [or_imp, forall_and] using ⟨hout, peeked.1⟩
  | case3 active r out seen front ts after found ih =>
    have kept := replaced active all
    rw [found] at kept
    exact ih kept.2 (all_append hout kept.1)
  | case4 active r out seen front m ts after found inner ihInner ih =>
    have kept := replaced active all
    rw [found] at kept
    refine ih (kept.2.with_diagnostics _) ?_
    have nested := ihInner (Reader.all_ofTokens kept.1 _) all_empty
    simpa [or_imp, forall_and] using ⟨hout, nested⟩

/-! ## Directives -/

namespace Reader.All

variable {r : Reader}

theorem readParameters (lasting : Token.Lasting P) (all : r.All P) : r.readParameters.2.All P := by
  have after := all.loop_reader lasting Parameters.judge {}
  unfold Reader.readParameters
  simp only
  split
  · exact after
  · exact after.report _

theorem readBody (lasting : Token.Lasting P) (all : r.All P) :
    (∀ t ∈ r.readBody.1, P t) ∧ r.readBody.2.All P := by
  have step : ∀ (b : Body) (t : Token), (∀ u ∈ b.tokens.toList, P u) → P t →
      (b.judge t).All fun b : Body => ∀ u ∈ b.tokens.toList, P u := by
    intro b t hb ht
    have longer : ∀ u ∈ (b.tokens.push t).toList, P u := by
      rw [Array.toList_push]
      exact List.forall_mem_append.2 ⟨hb, List.forall_mem_singleton.2 ht⟩
    unfold Body.judge
    split
    · exact hb
    · exact hb
    · exact hb
    · split <;> exact hb
    · exact longer
    · exact longer
  obtain ⟨body, after⟩ := (all.skipWhitespace lasting).loop lasting step (a := {}) (by simp)
  unfold Reader.readBody
  simp only
  refine ⟨Token.all_trimBlanks body, ?_⟩
  split
  · exact after.report _
  · exact after

theorem readDefinition (lasting : Token.Lasting P) (all : r.All P) :
    (∀ m, r.readDefinition.1 = some m → ∀ t ∈ m.body, P t) ∧ r.readDefinition.2.All P := by
  have name := ((all.skipWhitespace lasting).peek lasting).2
  have next := ((name.read lasting).2.peek lasting).2
  have params := (next.read lasting).2.readParameters lasting
  unfold Reader.readDefinition
  simp only
  split
  · exact ⟨fun m h => (by cases h), (name.report _).skipToNewline lasting⟩
  · split
    · split
      · rename_i h
        rw [h] at params
        exact ⟨fun m h => (by cases h), params.skipToNewline lasting⟩
      · rename_i h
        rw [h] at params
        refine ⟨?_, (params.readBody lasting).2⟩
        rintro _ ⟨⟩
        exact (params.readBody lasting).1
    · refine ⟨?_, (next.readBody lasting).2⟩
      rintro _ ⟨⟩
      exact (next.readBody lasting).1

theorem condition (lasting : Token.Lasting P) (table : Macro.Table) (directive : Token)
    (all : r.All P) : (r.condition table directive).2.All P := by
  have after := (all.readLine lasting).with_diagnostics
  unfold Reader.condition
  simp only
  split
  · exact (after _).report _
  · exact after _
  · exact (after _).report _

theorem endOfDirective (lasting : Token.Lasting P) (all : r.All P) : r.endOfDirective.All P := by
  have after := all.loop_reader lasting endOfDirective.judge none
  unfold Reader.endOfDirective
  split <;> rename_i h <;> rw [h] at after
  · exact after
  · exact (after.report _).skipLine lasting

theorem findBranch (lasting : Token.Lasting P) (table : Macro.Table) (opened : Token)
    (all : r.All P) : (r.findBranch table opened).2.All P := by
  fun_induction Reader.findBranch table opened r with
  | case1 r seen _ r' h =>
    have after := (all.read lasting).2.condition lasting table seen
    rwa [h] at after
  | case2 r seen _ r' h ih =>
    have after := (all.read lasting).2.condition lasting table seen
    rw [h] at after
    exact ih (after.skipBranch lasting)
  | case3 r seen _ _ => exact (all.read lasting).2.endOfDirective lasting
  | case4 r seen _ _ _ => exact (all.read lasting).2.endOfDirective lasting
  | case5 r seen _ _ _ => exact (all.read lasting).2.report _

theorem enterBranch (lasting : Token.Lasting P) (table : Macro.Table) (opened : Token)
    (all : r.All P) : (r.enterBranch table opened).2.All P := by
  have after := all.condition lasting table opened
  unfold Reader.enterBranch
  split <;> rename_i h <;> rw [h] at after
  · exact after
  · exact (after.skipBranch lasting).findBranch lasting table opened

theorem leaveBranch (lasting : Token.Lasting P) (opened : Token) (all : r.All P) :
    (r.leaveBranch opened).All P := by
  fun_induction Reader.leaveBranch opened r with
  | case1 r seen _ ih => exact ih (((all.read lasting).2.skipLine lasting).skipBranch lasting)
  | case2 r seen _ _ ih =>
    exact ih (((all.read lasting).2.endOfDirective lasting).skipBranch lasting)
  | case3 r seen _ _ _ => exact (all.read lasting).2.endOfDirective lasting
  | case4 r seen _ _ _ => exact (all.read lasting).2.report _

end Reader.All

/-! ## Turns -/

/-- All tokens that a step produces have the property. -/
def Step.All (P : Token → Prop) : Step → Prop
  | .emit ts => ∀ t ∈ ts, P t
  | .enter _ _ => True
  | .stop eof => P eof

namespace Work

/-- All tokens that a piece of work has to do with have the property. -/
structure All (P : Token → Prop) (w : Work) : Prop where
  macros : w.macros.All P
  reader : w.reader.All P

namespace All

variable {w : Work}

theorem withReader (all : w.All P) {r : Reader} (hr : r.All P) : (w.withReader r).All P :=
  ⟨all.macros, hr⟩

theorem turnEnd (all : w.All P) {eof : Token} (h : P eof) :
    (w.turnEnd eof).1.All P ∧ (w.turnEnd eof).2.All P := by
  unfold Work.turnEnd
  split
  · exact ⟨h, all⟩
  · exact ⟨List.forall_mem_nil _, all.macros, all.reader.report _⟩

theorem turnBranchEnd (lasting : Token.Lasting P) (all : w.All P) (directive : Token)
    (stray : Cause) :
    (w.turnBranchEnd directive stray).1.All P ∧ (w.turnBranchEnd directive stray).2.All P := by
  unfold Work.turnBranchEnd
  split
  · exact ⟨List.forall_mem_nil _, all.withReader ((all.reader.report _).skipToNewline lasting)⟩
  · exact ⟨List.forall_mem_nil _, all.macros, all.reader.leaveBranch lasting _⟩

theorem turnIf (lasting : Token.Lasting P) (all : w.All P) (directive : Token) :
    (w.turnIf directive).1.All P ∧ (w.turnIf directive).2.All P := by
  have after := (all.reader.read lasting).2.enterBranch lasting w.macros directive
  unfold Work.turnIf
  split <;> rename_i h <;> rw [h] at after
  · exact ⟨List.forall_mem_nil _, all.macros, after⟩
  · exact ⟨List.forall_mem_nil _, all.macros, after⟩

theorem turnInclude (lasting : Token.Lasting P) (all : w.All P) :
    w.turnInclude.1.All P ∧ w.turnInclude.2.All P := by
  have after := (((all.reader.read lasting).2.skipWhitespace lasting).peek lasting).2
  unfold Work.turnInclude
  simp only
  split
  · exact ⟨List.forall_mem_nil _, all.withReader (after.report _)⟩
  · exact ⟨trivial, all.withReader (after.read lasting).2⟩

theorem turnDefine (lasting : Token.Lasting P) (all : w.All P) :
    w.turnDefine.1.All P ∧ w.turnDefine.2.All P := by
  obtain ⟨body, after⟩ := (all.reader.read lasting).2.readDefinition lasting
  unfold Work.turnDefine
  split <;> rename_i h <;> rw [h] at body after
  · exact ⟨List.forall_mem_nil _, all.macros, after⟩
  · exact ⟨List.forall_mem_nil _, List.forall_mem_cons.2 ⟨body _ rfl, all.macros⟩, after⟩

theorem turnToken (lasting : Token.Lasting P) (all : w.All P) {t : Token} (ht : P t) :
    (w.turnToken t).1.All P ∧ (w.turnToken t).2.All P := by
  obtain ⟨tokens, after⟩ := all.reader.call lasting all.macros []
  unfold Work.turnToken
  split <;> rename_i h <;> rw [h] at tokens after
  · exact ⟨List.forall_mem_singleton.2 ht, all.withReader (after.read lasting).2⟩
  · exact ⟨tokens, all.withReader after⟩
  · refine ⟨?_, all.withReader (after.with_diagnostics _)⟩
    exact fun t mem => Macro.all_expandOnto lasting all.macros _ (Reader.all_ofTokens tokens _)
      all_empty t (Array.mem_toList_iff.1 mem)

/-- One turn. -/
theorem turn (lasting : Token.Lasting P) (all : w.All P) : w.turn.1.All P ∧ w.turn.2.All P := by
  obtain ⟨front, after⟩ := all.reader.peek lasting
  have seen := all.withReader after
  unfold Work.turn
  simp only
  split
  · exact seen.turnEnd front
  · split
    · split
      · exact seen.turnBranchEnd lasting _ _
      · exact seen.turnBranchEnd lasting _ _
      · exact seen.turnBranchEnd lasting _ _
      · exact seen.turnIf lasting _
      · exact seen.turnInclude lasting
      · exact seen.turnDefine lasting
      · exact seen.turnToken lasting front
    · exact seen.turnToken lasting front

/-- A run of turns. -/
theorem run (lasting : Token.Lasting P) (all : w.All P) (lib : Library) (chain : List String)
    (whole : Bool) {out : Array Token} (hout : ∀ t ∈ out, P t) :
    (∀ t ∈ (Work.run lib chain whole w out).1, P t) ∧
      (∀ eof, (Work.run lib chain whole w out).2.1 = some eof → P eof) ∧
      (Work.run lib chain whole w out).2.2.All P := by
  have step : ∀ {w w' : Work} {what : Step}, w.turn = (what, w') → w.All P →
      what.All P ∧ w'.All P := by
    intro w w' what taken all
    have turned := all.turn lasting
    rwa [taken] at turned
  fun_induction Work.run lib chain whole w out with
  | case1 chain whole w out eof w' taken =>
    obtain ⟨ended, after⟩ := step taken all
    refine ⟨hout, ?_, after⟩
    rintro _ ⟨⟩
    exact ended
  | case2 chain whole w out ts w' taken _ =>
    obtain ⟨emitted, after⟩ := step taken all
    refine ⟨all_append hout emitted, ?_, after⟩
    rintro _ ⟨⟩
  | case3 chain whole w out ts w' taken _ ih =>
    obtain ⟨emitted, after⟩ := step taken all
    exact ih after (all_append hout emitted)
  | case4 chain whole w out place quoted w' taken found cause fetched w₁ _ =>
    obtain ⟨-, after⟩ := step taken all
    refine ⟨hout, ?_, after.macros, after.reader.report _⟩
    rintro _ ⟨⟩
  | case5 chain whole w out place quoted w' taken found cause fetched w₁ _ ih =>
    obtain ⟨-, after⟩ := step taken all
    exact ih ⟨after.macros, after.reader.report _⟩ hout
  | case6 chain whole w out place quoted w₁ taken found data fetched w₂ brought last visited ran
      w₃ _ ih =>
    obtain ⟨-, after⟩ := step taken all
    obtain ⟨inner, -, there⟩ := ih ⟨after.macros, Reader.all_ofText _ _ _⟩ all_empty
    rw [ran] at inner there
    refine ⟨(by simpa [or_imp, forall_and] using ⟨hout, inner⟩), ?_, there.macros,
      after.reader.with_diagnostics _⟩
    rintro _ ⟨⟩
  | case7 chain whole w out place quoted w₁ taken found data fetched w₂ brought last visited ran
      w₃ _ ihInner ih =>
    obtain ⟨-, after⟩ := step taken all
    obtain ⟨inner, -, there⟩ := ihInner ⟨after.macros, Reader.all_ofText _ _ _⟩ all_empty
    rw [ran] at inner there
    exact ih ⟨there.macros, after.reader.with_diagnostics _⟩
      (by simpa [or_imp, forall_and] using ⟨hout, inner⟩)

end All

end Work

/-! ## Whole files -/

namespace Stream

/-- All tokens that a stream can come to have the property. -/
structure All (P : Token → Prop) (s : Stream) : Prop where
  reader : s.reader.All P
  pending : ∀ t ∈ s.pending, P t
  last : P s.last

theorem All.fill (lasting : Token.Lasting P) {s : Stream} (all : s.All P) (lib : Library)
    {p : Preprocessor} (macros : p.macros.All P) :
    (s.fill lib p).1.All P ∧ (s.fill lib p).2.macros.All P := by
  have ran : ∀ {p : Preprocessor} {s : Stream}, p.macros.All P → s.All P →
      _ := fun {p s} macros all =>
    Work.All.run lasting (w := s.work p) ⟨macros, all.reader.with_diagnostics _⟩ lib [s.path] false
      all_empty
  fun_induction Stream.fill lib p s with
  | case1 => exact ⟨all, macros⟩
  | case2 p s _ out eof w expanded =>
    obtain ⟨tokens, ended, after⟩ := ran macros all
    rw [expanded] at tokens ended after
    exact ⟨⟨after.reader, by simpa using tokens, ended eof rfl⟩, after.macros⟩
  | case3 p s _ out w expanded ih =>
    obtain ⟨tokens, -, after⟩ := ran macros all
    rw [expanded] at tokens after
    exact ih ⟨after.reader, by simpa using tokens, all.last⟩ after.macros

theorem All.collectOnto (lasting : Token.Lasting P) {s : Stream} (all : s.All P) (lib : Library)
    {p : Preprocessor} (macros : p.macros.All P) {out : Array Token}
    (hout : ∀ t ∈ out, P t) : ∀ t ∈ (s.collectOnto lib p out).1, P t := by
  fun_induction Stream.collectOnto lib p s out with
  | case1 p s out filled pending =>
    obtain ⟨after, -⟩ := all.fill lasting lib macros
    simpa [or_imp, forall_and] using ⟨hout, after.last⟩
  | case2 p s out filled pending ih =>
    obtain ⟨after, known⟩ := all.fill lasting lib macros
    refine ih ⟨after.reader, List.forall_mem_nil _, after.last⟩ known ?_
    exact all_append hout after.pending

end Stream

namespace Preprocessor

theorem all_define (lasting : Token.Lasting P) {p : Preprocessor} (macros : p.macros.All P)
    (name body : String) : (p.define name body).macros.All P := by
  refine List.forall_mem_cons.2 ⟨Token.all_trimBlanks fun t mem => ?_, macros⟩
  refine (Scanner.ofText "<define>" body).all_scanOnto lasting #[] all_empty t ?_
  simpa [Scanner.scan] using List.dropLast_subset _ mem

/-- **A property of all scanned tokens is a property of all expanded ones.** -/
theorem all_expand (lasting : Token.Lasting P) {p : Preprocessor} (macros : p.macros.All P)
    (lib : Library) (path : String) : ∀ t ∈ (p.expand lib path).1, P t := by
  have start : (p.stream lib path).1.All P ∧ (p.stream lib path).2.macros.All P := by
    unfold Preprocessor.stream
    simp only
    split
    · exact ⟨⟨Reader.all_ofTokens (List.forall_mem_nil _) _, List.forall_mem_nil _,
        lasting.ended ⟨path, 1, 1⟩⟩, macros⟩
    · exact ⟨⟨Reader.all_ofText _ _ _, List.forall_mem_nil _, lasting.ended ⟨path, 1, 1⟩⟩, macros⟩
  have collected := start.1.collectOnto lasting lib start.2 all_empty
  intro t mem
  exact collected t (by simpa [Preprocessor.expand, Stream.collect] using mem)

end Preprocessor

end RoomScript
