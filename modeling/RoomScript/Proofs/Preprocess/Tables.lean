import Mathlib.Data.List.Nodup
import RoomScript.Proofs.Preprocess.Earlier

/-!
# Tables that answer alike

The preprocessor only ever looks names up in its table.  So two tables in which every name stands
for the same macro make no difference, in whatever order their entries stand.

* `Macro.Table.Alike` says so of two tables, and `Macro.Table.alike_of_perm` is the case of entries
  with different names in another order;
* every operation of the preprocessor that reads a table gives the same for both;
* `Work.Alike` is the same for the work on a file, and a turn and a run of turns preserve it
  (`Work.turn_alike`, `Work.run_alike`).
-/

namespace RoomScript

/-! ## Tables -/

namespace Macro.Table

/-- In both tables every name stands for the same macro. -/
def Alike (table other : Table) : Prop :=
  ∀ name, table.find? name = other.find? name

section Alike

variable {table other : Table}

theorem Alike.isDefined (alike : table.Alike other) (name : String) :
    table.isDefined name = other.isDefined name :=
  congrArg Option.isSome (alike name)

theorem Alike.define (alike : table.Alike other) (m : Macro) :
    (table.define m).Alike (other.define m) := by
  intro name
  by_cases same : m.name = name
  · subst same
    rw [find?_define_self, find?_define_self]
  · rw [find?_define_of_ne _ same, find?_define_of_ne _ same, alike]

/-- In a table that names each macro once, a name stands for the entry that carries it. -/
theorem find?_eq_some_iff (distinct : (table.map Macro.name).Nodup) {name : String} {m : Macro} :
    table.find? name = some m ↔ m ∈ table ∧ m.name = name := by
  refine ⟨fun found => ⟨mem_of_find? found, name_of_find? found⟩, fun ⟨known, named⟩ => ?_⟩
  cases found : table.find? name with
  | none =>
    have missing := List.find?_eq_none.1 found m known
    simp [named] at missing
  | some k =>
    have same := List.inj_on_of_nodup_map distinct (mem_of_find? found) known
      ((name_of_find? found).trans named.symm)
    rw [same]

/-- **The order of a table that names each macro once makes no difference.** -/
theorem alike_of_perm (distinct : (table.map Macro.name).Nodup) (reordered : table.Perm other) :
    table.Alike other := by
  have distinct' : (other.map Macro.name).Nodup := (reordered.map _).nodup_iff.1 distinct
  intro name
  refine Option.ext fun m => ?_
  rw [find?_eq_some_iff distinct, find?_eq_some_iff distinct', reordered.mem_iff]

end Alike

end Macro.Table

/-! ## Macro calls -/

namespace Reader

variable {table other : Macro.Table}

theorem call_alike (alike : table.Alike other) (active : List String) (r : Reader) :
    r.call table active = r.call other active := by
  unfold call
  simp only [alike r.peek.1.lexeme]

theorem readDefined_alike (alike : table.Alike other) (r : Reader) :
    r.readDefined table = r.readDefined other := by
  unfold readDefined
  simp only [alike.isDefined]

theorem replace_alike (alike : table.Alike other) (condition : Bool) (active : List String)
    (r : Reader) : r.replace table condition active = r.replace other condition active := by
  unfold replace
  simp only [readDefined_alike alike, call_alike alike]

end Reader

/-! ## Expanding captured tokens -/

namespace Macro

variable {table other : Table}

theorem expandOnto_alike (alike : table.Alike other) (condition : Bool) (active : List String)
    (r : Reader) (out : Array Token) :
    expandOnto table condition active r out = expandOnto other condition active r out := by
  fun_induction expandOnto table condition active r out with
  | case1 active r out seen atEnd =>
    conv_rhs => rw [expandOnto, dif_pos atEnd]
  | case2 active r out seen going after found ih =>
    rw [Reader.replace_alike alike] at found
    conv_rhs => rw [expandOnto, dif_neg going]
    split <;> rename_i h <;> rw [found] at h <;> cases h
    exact ih
  | case3 active r out seen going ts after found ih =>
    rw [Reader.replace_alike alike] at found
    conv_rhs => rw [expandOnto, dif_neg going]
    split <;> rename_i h <;> rw [found] at h <;> cases h
    exact ih
  | case4 active r out seen going m ts after found inner ihInner ih =>
    rw [Reader.replace_alike alike] at found
    conv_rhs => rw [expandOnto, dif_neg going]
    split <;> rename_i h <;> rw [found] at h <;> cases h
    simp only [← ihInner]
    exact ih

theorem expand_alike (alike : table.Alike other) (condition : Bool) (active : List String)
    (tokens : List Token) (ds : List Diagnostic) :
    expand table condition active tokens ds = expand other condition active tokens ds := by
  unfold expand
  rw [expandOnto_alike alike]

end Macro

/-! ## Branches -/

namespace Reader

variable {table other : Macro.Table}

theorem condition_alike (alike : table.Alike other) (directive : Token) (r : Reader) :
    r.condition table directive = r.condition other directive := by
  unfold condition
  simp only [Macro.expand_alike alike]

theorem findBranch_alike (alike : table.Alike other) (opened : Token) (r : Reader) :
    r.findBranch table opened = r.findBranch other opened := by
  fun_induction findBranch table opened r with
  | case1 r front isElif after found =>
    rw [condition_alike alike] at found
    rw [findBranch_elif isElif, found]
    rfl
  | case2 r front isElif after found ih =>
    rw [condition_alike alike] at found
    rw [findBranch_elif isElif, found]
    exact ih
  | case3 r front noElif isElse => exact (findBranch_else isElse).symm
  | case4 r front noElif noElse isEndif => exact (findBranch_endif isEndif).symm
  | case5 r front noElif noElse noEndif =>
    rw [findBranch]
    rw [if_neg noElif, if_neg noElse, if_neg noEndif]

theorem enterBranch_alike (alike : table.Alike other) (opened : Token) (r : Reader) :
    r.enterBranch table opened = r.enterBranch other opened := by
  unfold enterBranch
  simp only [condition_alike alike, findBranch_alike alike]

end Reader

/-! ## Turns and runs -/

namespace Work

/-- The same work with tables that answer alike. -/
structure Alike (w v : Work) : Prop where
  macros : w.macros.Alike v.macros
  reader : w.reader = v.reader
  opened : w.opened = v.opened
  remarks : w.remarks = v.remarks

section Alike

variable {w v : Work}

theorem Alike.withReader (alike : w.Alike v) (r : Reader) :
    (w.withReader r).Alike (v.withReader r) :=
  ⟨alike.macros, rfl, alike.opened, alike.remarks⟩

theorem turnEnd_alike (alike : w.Alike v) (eof : Token) :
    (w.turnEnd eof).1 = (v.turnEnd eof).1 ∧ (w.turnEnd eof).2.Alike (v.turnEnd eof).2 := by
  obtain ⟨macros, r, opened, remarks⟩ := w
  obtain ⟨macros', r', opened', remarks'⟩ := v
  obtain ⟨answers, rfl, rfl, rfl⟩ := alike
  cases opened with
  | nil => exact ⟨rfl, answers, rfl, rfl, rfl⟩
  | cons innermost outer => exact ⟨rfl, answers, rfl, rfl, rfl⟩

theorem turnBranchEnd_alike (alike : w.Alike v) (directive : Token) (stray : Cause) :
    (w.turnBranchEnd directive stray).1 = (v.turnBranchEnd directive stray).1 ∧
      (w.turnBranchEnd directive stray).2.Alike (v.turnBranchEnd directive stray).2 := by
  obtain ⟨macros, r, opened, remarks⟩ := w
  obtain ⟨macros', r', opened', remarks'⟩ := v
  obtain ⟨answers, rfl, rfl, rfl⟩ := alike
  cases opened with
  | nil => exact ⟨rfl, answers, rfl, rfl, rfl⟩
  | cons innermost outer => exact ⟨rfl, answers, rfl, rfl, rfl⟩

theorem turnIf_alike (alike : w.Alike v) (directive : Token) :
    (w.turnIf directive).1 = (v.turnIf directive).1 ∧
      (w.turnIf directive).2.Alike (v.turnIf directive).2 := by
  obtain ⟨macros, r, opened, remarks⟩ := w
  obtain ⟨macros', r', opened', remarks'⟩ := v
  obtain ⟨answers, rfl, rfl, rfl⟩ := alike
  simp only [turnIf, ← Reader.enterBranch_alike answers]
  split <;> exact ⟨rfl, answers, rfl, rfl, rfl⟩

theorem turnInclude_alike (alike : w.Alike v) :
    w.turnInclude.1 = v.turnInclude.1 ∧ w.turnInclude.2.Alike v.turnInclude.2 := by
  obtain ⟨macros, r, opened, remarks⟩ := w
  obtain ⟨macros', r', opened', remarks'⟩ := v
  obtain ⟨answers, rfl, rfl, rfl⟩ := alike
  simp only [turnInclude]
  split <;> exact ⟨rfl, answers, rfl, rfl, rfl⟩

/-- A definition goes on top of both tables. -/
theorem turnDefine_alike (alike : w.Alike v) :
    w.turnDefine.1 = v.turnDefine.1 ∧ w.turnDefine.2.Alike v.turnDefine.2 := by
  obtain ⟨macros, r, opened, remarks⟩ := w
  obtain ⟨macros', r', opened', remarks'⟩ := v
  obtain ⟨answers, rfl, rfl, rfl⟩ := alike
  simp only [turnDefine]
  rcases r.read.2.readDefinition with ⟨_ | m, after⟩
  · exact ⟨rfl, answers, rfl, rfl, rfl⟩
  · exact ⟨rfl, answers.define m, rfl, rfl, rfl⟩

theorem turnToken_alike (alike : w.Alike v) (t : Token) :
    (w.turnToken t).1 = (v.turnToken t).1 ∧ (w.turnToken t).2.Alike (v.turnToken t).2 := by
  obtain ⟨macros, r, opened, remarks⟩ := w
  obtain ⟨macros', r', opened', remarks'⟩ := v
  obtain ⟨answers, rfl, rfl, rfl⟩ := alike
  simp only [turnToken, ← Reader.call_alike answers, ← Macro.expand_alike answers]
  split <;> exact ⟨rfl, answers, rfl, rfl, rfl⟩

/-- A turn does the same with tables that answer alike, and they go on to do so. -/
theorem turn_alike (alike : w.Alike v) : w.turn.1 = v.turn.1 ∧ w.turn.2.Alike v.turn.2 := by
  have ahead : (w.withReader w.reader.peek.2).Alike (v.withReader w.reader.peek.2) :=
    alike.withReader _
  unfold turn
  simp only [← alike.reader]
  split
  · exact turnEnd_alike ahead _
  · split
    · split
      · exact turnBranchEnd_alike ahead ..
      · exact turnBranchEnd_alike ahead ..
      · exact turnBranchEnd_alike ahead ..
      · exact turnIf_alike ahead _
      · exact turnInclude_alike ahead
      · exact turnDefine_alike ahead
      · exact turnToken_alike ahead _
    · exact turnToken_alike ahead _

theorem Alike.refuse (alike : w.Alike v) (place : Token) (found : Resolution) (cause : Cause) :
    (w.refuse place found cause).Alike (v.refuse place found cause) := by
  obtain ⟨answers, reader, opened, remarks⟩ := alike
  exact ⟨answers, congrArg (Reader.report · _) reader, opened,
    congrArg (· ++ found.remark.toList) remarks⟩

theorem Alike.noting (alike : w.Alike v) (chain : List String) (found : Resolution) :
    (w.noting chain found).Alike (v.noting chain found) := by
  obtain ⟨answers, reader, opened, remarks⟩ := alike
  exact ⟨answers, reader, opened, congrArg (· ++ found.remark.toList ++ _) remarks⟩

theorem Alike.visit (alike : w.Alike v) (path : String) (data : ByteArray) :
    (w.visit path data).Alike (v.visit path data) :=
  ⟨alike.macros, congrArg (fun r : Reader => Reader.ofText path (Text.ofBytes data) r.diagnostics)
    alike.reader, rfl, alike.remarks⟩

theorem Alike.resume {visited visited' : Work} (alike : w.Alike v)
    (back : visited.Alike visited') : (w.resume visited).Alike (v.resume visited') := by
  refine ⟨back.macros, ?_, alike.opened, back.remarks⟩
  simp only [Work.resume, alike.reader, back.reader]

end Alike

/-- **A run gives the same tokens with tables that answer alike**, and leaves the same work. -/
theorem run_alike (lib : Library) (chain : List String) (whole : Bool) {w v : Work}
    (alike : w.Alike v) (out : Array Token) : ∃ v',
      run lib chain whole v out =
        ((run lib chain whole w out).1, (run lib chain whole w out).2.1, v') ∧
      (run lib chain whole w out).2.2.Alike v' := by
  -- What a turn of the one work gives, the same turn of the other gives too.
  have turned : ∀ {w v w' : Work} {step : Step}, w.Alike v → w.turn = (step, w') →
      ∃ v', v.turn = (step, v') ∧ w'.Alike v' := by
    intro w v w' step alike taken
    obtain ⟨same, left⟩ := turn_alike alike
    rw [taken] at same left
    exact ⟨v.turn.2, Prod.ext same.symm rfl, left⟩
  fun_induction run lib chain whole w out generalizing v with
  | case1 chain whole w out eof w' taken =>
    obtain ⟨v', taken', alike'⟩ := turned alike taken
    exact ⟨v', run_of_stop taken', alike'⟩
  | case2 chain whole w out ts w' taken left =>
    obtain ⟨v', taken', alike'⟩ := turned alike taken
    rw [alike'.opened] at left
    exact ⟨v', (run_of_emit taken').trans (if_pos left), alike'⟩
  | case3 chain whole w out ts w' taken going ih =>
    obtain ⟨v', taken', alike'⟩ := turned alike taken
    rw [alike'.opened] at going
    rw [run_of_emit taken', if_neg going]
    exact ih alike'
  | case4 chain whole w out place quoted w' taken found cause fetched w'' =>
    rename_i left
    obtain ⟨v', taken', alike'⟩ := turned alike taken
    have refused := alike'.refuse place found cause
    rw [show w''.opened = _ from refused.opened] at left
    exact ⟨_, (run_of_error taken' fetched).trans (if_pos left), refused⟩
  | case5 chain whole w out place quoted w' taken found cause fetched w'' =>
    rename_i going ih
    obtain ⟨v', taken', alike'⟩ := turned alike taken
    have refused := alike'.refuse place found cause
    rw [show w''.opened = _ from refused.opened] at going
    rw [run_of_error taken' fetched, if_neg going]
    exact ih refused
  | case6 chain whole w out place quoted w₁ taken found data fetched w₂ brought last visited ran
      w₃ =>
    rename_i left ih
    obtain ⟨v₁, taken', alike'⟩ := turned alike taken
    have noted := alike'.noting chain found
    obtain ⟨visited', ran', back⟩ := ih (noted.visit found.path data)
    rw [ran] at ran' back
    have same : bring lib chain v₁ found data = (brought, last, visited') := ran'
    rw [show w₃.opened = _ from alike'.opened] at left
    refine ⟨_, ?_, noted.resume back⟩
    rw [run_of_ok taken' fetched, same]
    exact if_pos left
  | case7 chain whole w out place quoted w₁ taken found data fetched w₂ brought last visited ran
      w₃ =>
    rename_i going ihInner ih
    obtain ⟨v₁, taken', alike'⟩ := turned alike taken
    have noted := alike'.noting chain found
    obtain ⟨visited', ran', back⟩ := ihInner (noted.visit found.path data)
    rw [ran] at ran' back
    have same : bring lib chain v₁ found data = (brought, last, visited') := ran'
    rw [show w₃.opened = _ from alike'.opened] at going
    rw [run_of_ok taken' fetched, same, if_neg going]
    exact ih (noted.resume back)

end Work

end RoomScript
