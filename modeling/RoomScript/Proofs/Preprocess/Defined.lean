import RoomScript.Proofs.Macro.Lines
import RoomScript.Proofs.Preprocess.Inclusion
import RoomScript.Proofs.Preprocess.Lines

/-!
# Names of macros in expanded text

No name of a macro is left in an expanded text.  A symbol is only put out when it names none of the
macros that are known at that time, and a macro that is known stays so.

* `Macro.unnamed_expandOnto` and `Work.unnamed_turn` say so for captured lists and for turns;
* `Work.learns_turn` says that a turn only adds macros whose bodies it has read;
* `Work.turns` are the turns of a run, those of included files in between, and
  `Work.run_eq_turns` says that the text of a run is what its turns put out;
* `Work.spans_turns` says that each turn knows the macros that the earlier ones have left;
* `Preprocessor.no_name_left` is the result.
-/

namespace RoomScript

/-! ## Growing tables -/

namespace Macro.Table

variable {table later : Table} {t : Token}

/-- A name that is defined stays so. -/
theorem isDefined_of_suffix {name : String} (grown : table <:+ later)
    (known : table.isDefined name) : later.isDefined name := by
  simp only [isDefined, find?, List.find?_isSome] at known ⊢
  obtain ⟨m, mem, same⟩ := known
  exact ⟨m, grown.subset mem, same⟩

/-- What names no macro has not done so before. -/
theorem unnamed_of_suffix (grown : table <:+ later) (plain : later.named? t = none) :
    table.named? t = none := by
  rw [named?_eq_none_iff] at plain ⊢
  exact fun named => plain ⟨named.1, isDefined_of_suffix grown named.2⟩

end Macro.Table

/-! ## Captured lists -/

namespace Reader

variable {table : Macro.Table} {condition : Bool} {active : List String} {r after : Reader}
  {ts : List Token}

theorem unnamed_of_replace_keep (found : r.replace table condition active = (.keep, after)) :
    table.named? r.peek.1 = none := by
  unfold replace at found
  simp only at found
  split at found
  · cases found
  · rw [call_peek] at found
    exact unnamed_of_call_keep found

end Reader

/-- Expanding puts out only tokens that name no macro. -/
theorem Macro.unnamed_expandOnto (table : Table) (condition : Bool) (active : List String)
    (r : Reader) {out : Array Token} (plain : ∀ t ∈ out, table.named? t = none) :
    ∀ t ∈ (expandOnto table condition active r out).1, table.named? t = none := by
  fun_induction expandOnto table condition active r out with
  | case1 => exact plain
  | case2 active r out seen front _ found ih =>
    refine ih ?_
    simpa [or_imp, forall_and] using ⟨plain, Reader.unnamed_of_replace_keep found⟩
  | case3 active r out seen front ts after found ih =>
    have numbers : ∀ t ∈ ts, table.named? t = none := fun t mem => by
      simp [Table.named?, Reader.kind_of_replace_tokens found t mem]
    exact ih (all_append plain numbers)
  | case4 active r out seen front m ts after found inner ihInner ih =>
    refine ih ?_
    simpa [or_imp, forall_and] using ⟨plain, ihInner all_empty⟩

/-! ## Turns -/

/-- The tokens that a step puts out. -/
def Step.text : Step → List Token
  | .emit ts => ts
  | .enter _ _ | .stop _ => []

@[simp] theorem Step.text_emit (ts : List Token) : (Step.emit ts).text = ts := rfl

@[simp] theorem Step.text_enter (place : Token) (quoted : String) :
    (Step.enter place quoted).text = [] := rfl

@[simp] theorem Step.text_stop (eof : Token) : (Step.stop eof).text = [] := rfl

namespace Work

theorem unnamed_turnToken {w : Work} {t : Token} (front : w.reader.peek.1 = t) :
    ∀ u ∈ (w.turnToken t).1.text, w.macros.named? u = none := by
  unfold turnToken
  split
  · rename_i found
    rw [← front]
    exact List.forall_mem_singleton.2 (Reader.unnamed_of_call_keep found)
  · rename_i found
    rw [Reader.call_tokens found]
    exact List.forall_mem_nil _
  · exact fun u mem => Macro.unnamed_expandOnto _ _ _ _ all_empty u (Array.mem_toList_iff.1 mem)

theorem macros_turnToken (w : Work) (t : Token) : (w.turnToken t).2.macros = w.macros := by
  unfold turnToken
  split <;> rfl

/-- Handling a directive puts out nothing, and at most a definition is learned from. -/
theorem turn_cases (w : Work) :
    (w.turn.1.text = [] ∧ w.macros.Learns w.turn.2.macros) ∨
      w.turn = (w.withReader w.reader.peek.2).turnToken w.reader.peek.1 := by
  have branchEnd : ∀ directive stray,
      let taken := (w.withReader w.reader.peek.2).turnBranchEnd directive stray
      taken.1.text = [] ∧ w.macros.Learns taken.2.macros := by
    intro directive stray
    unfold turnBranchEnd
    simp only
    split <;> exact ⟨rfl, .nothing⟩
  unfold turn
  simp only
  split
  · left
    unfold turnEnd
    split <;> exact ⟨rfl, .nothing⟩
  · split
    · split
      · exact .inl (branchEnd _ _)
      · exact .inl (branchEnd _ _)
      · exact .inl (branchEnd _ _)
      · left
        unfold turnIf
        split <;> exact ⟨rfl, .nothing⟩
      · left
        unfold turnInclude
        simp only
        split <;> exact ⟨rfl, .nothing⟩
      · left
        unfold turnDefine
        split
        · exact ⟨rfl, .nothing⟩
        · rename_i found
          exact ⟨rfl, .define .nothing (congrArg Prod.fst found)⟩
      · exact .inr rfl
    · exact .inr rfl

/-- A turn puts out only tokens that name no macro. -/
theorem unnamed_turn (w : Work) : ∀ t ∈ w.turn.1.text, w.macros.named? t = none := by
  rcases w.turn_cases with ⟨silent, -⟩ | called
  · rw [silent]
    exact List.forall_mem_nil _
  · rw [called]
    exact unnamed_turnToken (w := w.withReader w.reader.peek.2) (by simp [withReader])

/-- A turn learns from a definition, or nothing. -/
theorem learns_turn (w : Work) : w.macros.Learns w.turn.2.macros := by
  rcases w.turn_cases with ⟨-, learned⟩ | called
  · exact learned
  · rw [called, macros_turnToken]
    exact .nothing

/-- A turn loses no macro. -/
theorem macros_turn (w : Work) : w.macros <:+ w.turn.2.macros :=
  w.learns_turn.suffix

/-! ## Runs -/

/-- The turns of a run to the end of a file, each with the turns of the file that it brings in
behind it. -/
def turns (lib : Library) (chain : List String) (w : Work) : List Work :=
  match _taken : w.turn with
  | (.stop _, _) => [w]
  | (.emit _, w') => w :: turns lib chain w'
  | (.enter place quoted, w') =>
    match _fetched : lib.fetch chain quoted with
    | (found, .error cause) => w :: turns lib chain (w'.refuse place found cause)
    | (found, .ok data) =>
      w :: (turns lib (found.path :: chain) ((w'.noting chain found).visit found.path data) ++
        turns lib chain ((w'.noting chain found).resume (bring lib chain w' found data).2.2))
termination_by (lib.unopened chain, w.measure)
decreasing_by
  · have less := w.turn_lt (by simp [_taken])
    rw [_taken] at less
    exact Prod.Lex.right _ less
  · have less := w.turn_lt (by simp [_taken])
    rw [_taken] at less
    exact Prod.Lex.right _ less
  · exact Prod.Lex.left _ _ (Library.fetch_unopened_lt _fetched)
  · have less := w.turn_lt (by simp [_taken])
    rw [_taken] at less
    exact Prod.Lex.right _ less

/-- The text of a run is what its turns put out. -/
theorem run_eq_turns (lib : Library) (chain : List String) (w : Work) (out : Array Token) :
    (run lib chain true w out).1.toList =
      out.toList ++ (turns lib chain w).flatMap (·.turn.1.text) := by
  fun_induction turns lib chain w generalizing out with
  | case1 chain w eof w' taken => simp [run_of_stop taken, taken]
  | case2 chain w ts w' taken ih => simp [run_of_emit taken, ih, taken]
  | case3 chain w place quoted w' taken found cause fetched ih =>
    simp [run_of_error taken fetched, ih, taken]
  | case4 chain w place quoted w' taken found data fetched ihInner ih =>
    have inner : (bring lib chain w' found data).1.toList = _ := ihInner #[]
    rw [run_of_ok taken fetched, if_neg (by simp), ih, Array.toList_append, inner]
    simp [taken]

/-- The work is done one after another, from a time at which the first macros are known to a time at
which the last ones are: nothing that is known is lost. -/
structure Spans (first : Macro.Table) (ws : List Work) (last : Macro.Table) : Prop where
  ordered : ws.Pairwise fun v w => v.turn.2.macros <:+ w.macros
  whole : first <:+ last
  between : ∀ w ∈ ws, first <:+ w.macros ∧ w.turn.2.macros <:+ last

theorem spans_singleton (w : Work) : Spans w.macros [w] w.turn.2.macros where
  ordered := List.pairwise_singleton _ _
  whole := w.macros_turn
  between := List.forall_mem_singleton.2 ⟨List.suffix_rfl, List.suffix_rfl⟩

theorem Spans.append {first middle last : Macro.Table} {vs ws : List Work}
    (h : Spans first vs middle) (h' : Spans middle ws last) : Spans first (vs ++ ws) last where
  ordered := List.pairwise_append.2 ⟨h.ordered, h'.ordered, fun v mem w mem' =>
    (h.between v mem).2.trans (h'.between w mem').1⟩
  whole := h.whole.trans h'.whole
  between := List.forall_mem_append.2 ⟨
    fun v mem => ⟨(h.between v mem).1, (h.between v mem).2.trans h'.whole⟩,
    fun w mem => ⟨h.whole.trans (h'.between w mem).1, (h'.between w mem).2⟩⟩

/-- Nothing that is known is lost in a run. -/
theorem spans_turns (lib : Library) (chain : List String) (w : Work) (out : Array Token) :
    Spans w.macros (turns lib chain w) (run lib chain true w out).2.2.macros := by
  have first : ∀ {w w' : Work} {step : Step}, w.turn = (step, w') →
      Spans w.macros [w] w'.macros := by
    intro w w' step taken
    have alone := w.spans_singleton
    rwa [taken] at alone
  fun_induction turns lib chain w generalizing out with
  | case1 chain w eof w' taken =>
    rw [run_of_stop taken]
    exact first taken
  | case2 chain w ts w' taken ih =>
    rw [run_of_emit taken, if_neg (by simp)]
    exact (first taken).append (ih _)
  | case3 chain w place quoted w' taken found cause fetched ih =>
    rw [run_of_error taken fetched, if_neg (by simp)]
    exact (first taken).append (ih _)
  | case4 chain w place quoted w' taken found data fetched ihInner ih =>
    rw [run_of_ok taken fetched, if_neg (by simp)]
    exact (first taken).append ((ihInner #[]).append (ih _))

/-- The turn in front defines the macro. -/
def Defines (w : Work) (m : Macro) : Prop :=
  w.reader.peek.1.isDirective "#define" ∧ w.reader.read.2.readDefinition.1 = some m

example : Work.Defines
    { macros := []
      reader := .ofTokens [Conditional.piece .directive "#define",
        Conditional.piece .whitespace " ", Conditional.piece .symbol "DOOR"] }
    { name := "DOOR", body := [] } := by
  refine ⟨by decide, ?_⟩
  cbv

theorem macros_of_defines {w : Work} {m : Macro} (defines : w.Defines m) :
    w.turn.2.macros = w.macros.define m := by
  rw [turn_of_define defines.1 w rfl, turnDefine]
  simp only [withReader, Reader.read_peek]
  have known := defines.2
  split <;> rename_i found <;> rw [found] at known <;> cases known
  rfl

end Work

/-! ## Files -/

namespace Preprocessor

/-- The turns that a file is expanded in.  A file that cannot be read has none. -/
def turns (p : Preprocessor) (lib : Library) (path : String) : List Work :=
  match lib.read path with
  | .ok data => Work.turns lib [path] (p.start path data)
  | .error _ => []

/-- The text of a file is what its turns put out, and an end token. -/
theorem expand_eq_turns (p : Preprocessor) (lib : Library) (path : String) : ∃ eof : Token,
    eof.kind = .eof ∧
      (p.expand lib path).1 = (p.turns lib path).flatMap (·.turn.1.text) ++ [eof] := by
  cases read : lib.read path with
  | ok data =>
    obtain ⟨ts, eof, w, ran, expanded⟩ := p.expand_eq_run read
    have ended := (noEnd_run lib [path] true (p.start path data) #[] noEnd_nil).2
    have text := Work.run_eq_turns lib [path] (p.start path data) #[]
    rw [ran] at ended text
    refine ⟨eof, ended eof rfl, ?_⟩
    simp only [expanded, turns, read]
    exact congrArg (· ++ [eof]) text
  | error reason =>
    refine ⟨⟨.eof, "", path, 1, 1⟩, rfl, ?_⟩
    have ready : ∀ {s : Stream} {q : Preprocessor}, s.done → s.fill lib q = (s, q) := fun done =>
      Stream.fill_of_ready (.inr done) lib _
    simp only [expand, stream, read, Stream.collect, turns]
    rw [Stream.collectOnto_of_empty (by rw [ready rfl]), ready rfl]
    rfl

/-- What is known at the start is known at all turns, and each turn knows what the earlier ones have
left. -/
theorem turns_spans (p : Preprocessor) (lib : Library) (path : String) :
    ∃ last, Work.Spans p.macros (p.turns lib path) last := by
  unfold turns
  split
  · exact ⟨_, Work.spans_turns lib [path] (p.start path _) #[]⟩
  · exact ⟨p.macros, .nil, List.suffix_rfl, List.forall_mem_nil _⟩

/-- No symbol of an expanded text names a macro that was known at the start. -/
theorem expand_unnamed (p : Preprocessor) (lib : Library) (path : String) :
    ∀ t ∈ (p.expand lib path).1, p.macros.named? t = none := by
  obtain ⟨last, spans⟩ := p.turns_spans lib path
  obtain ⟨eof, ended, text⟩ := p.expand_eq_turns lib path
  rw [text]
  refine List.forall_mem_append.2 ⟨fun t mem => ?_, List.forall_mem_singleton.2 ?_⟩
  · obtain ⟨w, turned, mem⟩ := List.mem_flatMap.1 mem
    exact Macro.Table.unnamed_of_suffix (spans.between w turned).1 (w.unnamed_turn t mem)
  · simp [Macro.Table.named?, ended]

/-- Names that are defined one after another are all known. -/
theorem isDefined_foldl (defines : List (String × String)) (p : Preprocessor) :
    p.macros <:+ (defines.foldl (fun q d => q.define d.1 d.2) p).macros ∧
      ∀ d ∈ defines, (defines.foldl (fun q d => q.define d.1 d.2) p).isDefined d.1 := by
  induction defines generalizing p with
  | nil => exact ⟨List.suffix_rfl, List.forall_mem_nil _⟩
  | cons d defines ih =>
    obtain ⟨grown, others⟩ := ih (p.define d.1 d.2)
    have first : (p.define d.1 d.2).macros.isDefined d.1 := by
      simp [define, Macro.Table.isDefined, Macro.Table.find?, Macro.Table.define]
    exact ⟨(List.suffix_cons _ _).trans grown,
      List.forall_mem_cons.2 ⟨Macro.Table.isDefined_of_suffix grown first, others⟩⟩

/-- **No name of a macro is left in an expanded text.**  When names have been defined before a file
is expanded, no symbol of its text is one of them, whatever the file and those that it includes
contain.  The text is what the turns of the expansion put out, one after another, and when one of
them is at a `#define`, no symbol that a later one puts out is the name that it defines. -/
theorem no_name_left (p : Preprocessor) (defines : List (String × String)) (lib : Library)
    (path : String) :
    let q := defines.foldl (fun q d => q.define d.1 d.2) p
    (∀ d ∈ defines, ∀ t ∈ (q.expand lib path).1, ¬(t.kind = .symbol ∧ t.lexeme = d.1)) ∧
      (∃ eof : Token, eof.kind = .eof ∧
        (q.expand lib path).1 = (q.turns lib path).flatMap (·.turn.1.text) ++ [eof]) ∧
      ∀ before w after m, q.turns lib path = before ++ w :: after → w.Defines m →
        ∀ v ∈ after, ∀ t ∈ v.turn.1.text, ¬(t.kind = .symbol ∧ t.lexeme = m.name) := by
  intro q
  obtain ⟨-, known⟩ := isDefined_foldl defines p
  refine ⟨?_, q.expand_eq_turns lib path, ?_⟩
  · rintro d mem t inText ⟨symbol, same⟩
    refine Macro.Table.named?_eq_none_iff.1 (q.expand_unnamed lib path t inText) ⟨symbol, ?_⟩
    rw [same]
    exact known d mem
  · rintro before w after m split defines v mem t inText ⟨symbol, same⟩
    obtain ⟨last, spans⟩ := q.turns_spans lib path
    have ordered := spans.ordered
    rw [split, List.pairwise_append] at ordered
    have grown := List.rel_of_pairwise_cons ordered.2.1 mem
    rw [Work.macros_of_defines defines] at grown
    refine Macro.Table.named?_eq_none_iff.1 (v.unnamed_turn t inText) ⟨symbol, ?_⟩
    refine Macro.Table.isDefined_of_suffix grown ?_
    rw [same, Macro.Table.isDefined, Macro.Table.find?_define_self]
    rfl

end Preprocessor

end RoomScript
