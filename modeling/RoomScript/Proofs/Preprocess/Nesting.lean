import Mathlib.Tactic
import RoomScript.Preprocess.Stream

/-!
# What is being expanded at one time

Expanding a file leads to the expansion of other files and of captured token lists, and these lead
to more.  `Activity` is one such expansion together with what it stands inside of: the chain of open
files, or the macros that are being replaced.  `Activity.Calls` says which activities one activity
leads to, following the branches of `Work.run` and `Macro.expandOnto` one by one.

* `Activity.Calls.noRepeats` is the step: no activity opens a file of its chain or replaces a macro
  that is being replaced;
* `Activity.noRepeats_of_reaches` says so of everything that is ever led to;
* `Activity.wellFounded_calls` says that nothing leads on for ever: every file that is brought in is
  one more of finitely many, every macro call makes one more macro active, and everything else
  leaves less to read.
-/

namespace RoomScript

/-- From `r` on, the lines that are evaluated as conditions of one conditional begin at these
readers.  Each one after the first follows an `#elif` whose predecessor did not hold. -/
inductive Reader.Evaluates (table : Macro.Table) : Reader → Reader → Prop
  | first (r : Reader) : Evaluates table r r
  | elif {r r' after : Reader} {directive : Token} :
      Evaluates table r r' → r'.condition table directive = (false, after) →
      after.skipBranch.peek.1.isDirective "#elif" = true →
      Evaluates table r after.skipBranch.read.2

/-- One expansion that is going on. -/
inductive Activity where
  /-- The text of a file.  The chain lists the files that are being expanded, the innermost
  first. -/
  | file (chain : List String) (whole : Bool) (w : Work)
  /-- A captured token list.  The active macros are those that are being replaced, the innermost
  first. -/
  | captured (table : Macro.Table) (condition : Bool) (active : List String) (r : Reader)

namespace Activity

/-- One activity leads directly to another. -/
inductive Calls (lib : Library) : Activity → Activity → Prop
  /-- The next turn of a file. -/
  | turn {chain : List String} {whole : Bool} {w w' : Work} {ts : List Token} :
      w.turn = (.emit ts, w') → (w'.opened.isEmpty && !whole) = false →
      Calls lib (.file chain whole w) (.file chain whole w')
  /-- The next turn after a file that was refused. -/
  | refuse {chain : List String} {whole : Bool} {w w' : Work} {place : Token} {quoted : String}
      {found : Resolution} {cause : Cause} :
      w.turn = (.enter place quoted, w') → lib.fetch chain quoted = (found, .error cause) →
      (w'.opened.isEmpty && !whole) = false →
      Calls lib (.file chain whole w) (.file chain whole ((w'.remarkOn found).reportAt place cause))
  /-- A file that is brought in. -/
  | enter {chain : List String} {whole : Bool} {w w' : Work} {place : Token} {quoted : String}
      {found : Resolution} {data : ByteArray} :
      w.turn = (.enter place quoted, w') → lib.fetch chain quoted = (found, .ok data) →
      Calls lib (.file chain whole w) (.file (found.path :: chain) true
        (((w'.remarkOn found).remark
          (Work.includingRemark found.path (chain.headD ""))).visit found.path data))
  /-- The next turn after a file that was brought in. -/
  | resume {chain : List String} {whole : Bool} {w w' visited : Work} {place : Token}
      {quoted : String} {found : Resolution} {data : ByteArray} {brought : Array Token}
      {last : Option Token} :
      w.turn = (.enter place quoted, w') → lib.fetch chain quoted = (found, .ok data) →
      Work.run lib (found.path :: chain) true (((w'.remarkOn found).remark
        (Work.includingRemark found.path (chain.headD ""))).visit found.path data) #[] =
          (brought, last, visited) →
      (w'.opened.isEmpty && !whole) = false →
      Calls lib (.file chain whole w) (.file chain whole (((w'.remarkOn found).remark
        (Work.includingRemark found.path (chain.headD ""))).resume visited))
  /-- The condition of an `#if` or of an `#elif` after it. -/
  | condition {chain : List String} {whole : Bool} {w : Work} {r : Reader} :
      w.reader.peek.1.isDirective "#if" = true → Reader.Evaluates w.macros w.reader.read.2 r →
      Calls lib (.file chain whole w)
        (.captured w.macros true [] (.ofTokens r.readLine.1 r.readLine.2.diagnostics))
  /-- The replacement of a macro call in a file. -/
  | call {chain : List String} {whole : Bool} {w : Work} {m : Macro} {ts : List Token}
      {r : Reader} :
      w.reader.peek.2.call w.macros [] = (.rescan m ts, r) →
      Calls lib (.file chain whole w)
        (.captured w.macros false [m.name] (.ofTokens ts r.diagnostics))
  /-- The rest of a list after a token that stays. -/
  | keep {table : Macro.Table} {condition : Bool} {active : List String} {r r' : Reader} :
      r.peek.1.kind ≠ .eof → r.replace table condition active = (.keep, r') →
      Calls lib (.captured table condition active r)
        (.captured table condition active r.peek.2.read.2)
  /-- The rest of a list after tokens that are final. -/
  | replaced {table : Macro.Table} {condition : Bool} {active : List String} {r r' : Reader}
      {ts : List Token} :
      r.peek.1.kind ≠ .eof → r.replace table condition active = (.tokens ts, r') →
      Calls lib (.captured table condition active r) (.captured table condition active r')
  /-- The replacement of a macro call in a list. -/
  | nested {table : Macro.Table} {condition : Bool} {active : List String} {r r' : Reader}
      {m : Macro} {ts : List Token} :
      r.peek.1.kind ≠ .eof → r.replace table condition active = (.rescan m ts, r') →
      Calls lib (.captured table condition active r)
        (.captured table condition (m.name :: active) (.ofTokens ts r'.diagnostics))
  /-- The rest of a list after a macro call. -/
  | after {table : Macro.Table} {condition : Bool} {active : List String} {r r' : Reader}
      {m : Macro} {ts : List Token} {inner : Array Token × List Diagnostic} :
      r.peek.1.kind ≠ .eof → r.replace table condition active = (.rescan m ts, r') →
      Macro.expandOnto table condition (m.name :: active) (.ofTokens ts r'.diagnostics) #[] =
        inner →
      Calls lib (.captured table condition active r)
        (.captured table condition active { r' with diagnostics := inner.2 })

/-- No file stands twice on the chain, and no macro twice among the active ones. -/
def NoRepeats : Activity → Prop
  | file chain _ _ => chain.Nodup
  | captured _ _ active _ => active.Nodup

/-- Only a file that is not on the chain is brought in. -/
theorem notMem_of_fetch {lib : Library} {chain : List String} {quoted : String}
    {found : Resolution} {data : ByteArray} (h : lib.fetch chain quoted = (found, .ok data)) :
    found.path ∉ chain := by
  unfold Library.fetch at h
  simp only at h
  split at h
  · cases h
  · rename_i closed
    split at h
    · cases h
    · obtain ⟨rfl, -⟩ := Prod.mk.inj h
      exact closed

/-- What an activity leads to repeats nothing either. -/
theorem Calls.noRepeats {lib : Library} {a b : Activity} (h : Calls lib a b) (ha : a.NoRepeats) :
    b.NoRepeats := by
  cases h with
  | turn => exact ha
  | refuse => exact ha
  | enter _ fetched => exact List.nodup_cons.2 ⟨notMem_of_fetch fetched, ha⟩
  | resume => exact ha
  | condition => exact List.nodup_nil
  | call => exact List.nodup_cons.2 ⟨List.not_mem_nil, List.nodup_nil⟩
  | keep => exact ha
  | replaced => exact ha
  | nested _ found => exact List.nodup_cons.2 ⟨(Reader.known_of_replace_rescan found).2, ha⟩
  | after => exact ha

/-- Whatever an activity leads to in any number of steps repeats nothing. -/
theorem noRepeats_of_reaches {lib : Library} {a b : Activity}
    (h : Relation.ReflTransGen (Calls lib) a b) (ha : a.NoRepeats) : b.NoRepeats := by
  induction h with
  | refl => exact ha
  | tail _ step ih => exact step.noRepeats ih

/-- What is left to do in an activity: a file counts more than any token list. -/
noncomputable def left (lib : Library) : Activity → ℕ × ℕ × ℕ × ℕ
  | file chain _ w => (1, lib.unopened chain, w.reader.size, w.opened.length)
  | captured table _ active r => (0, table.inactive active, r.size, 0)

/-- The order in which activities come to an end. -/
abbrev Less : ℕ × ℕ × ℕ × ℕ → ℕ × ℕ × ℕ × ℕ → Prop :=
  Prod.Lex (· < ·) (Prod.Lex (· < ·) (Prod.Lex (· < ·) (· < ·)))

theorem turn_less {w w' : Work} {step : Step} (taken : w.turn = (step, w'))
    (going : ∀ eof, step ≠ .stop eof) (a b : ℕ) :
    Less (a, b, w'.reader.size, w'.opened.length) (a, b, w.reader.size, w.opened.length) := by
  have less := w.turn_lt (by rw [taken]; exact going)
  rw [taken] at less
  exact Prod.Lex.right _ (Prod.Lex.right _ less)

theorem Calls.less {lib : Library} {a b : Activity} (h : Calls lib a b) :
    Less (b.left lib) (a.left lib) := by
  cases h with
  | turn taken _ => exact turn_less taken (by simp) _ _
  | refuse taken _ _ => exact turn_less taken (by simp) _ _
  | enter _ fetched => exact Prod.Lex.right _ (Prod.Lex.left _ _ (Library.fetch_unopened_lt fetched))
  | resume taken _ _ _ => exact turn_less taken (by simp) _ _
  | condition => exact Prod.Lex.left _ _ Nat.zero_lt_one
  | call => exact Prod.Lex.left _ _ Nat.zero_lt_one
  | keep front _ =>
    refine Prod.Lex.right _ (Prod.Lex.right _ (Prod.Lex.left _ _ ?_))
    rw [Reader.read_peek]
    exact Reader.read_size_lt _ front
  | replaced _ found =>
    exact Prod.Lex.right _ (Prod.Lex.right _ (Prod.Lex.left _ _
      (Reader.replace_size_lt found (by simp))))
  | nested _ found =>
    obtain ⟨known, idle⟩ := Reader.known_of_replace_rescan found
    exact Prod.Lex.right _ (Prod.Lex.left _ _ (Macro.Table.inactive_cons_lt known idle))
  | after _ found _ =>
    have smaller := Reader.replace_size_lt found (by simp)
    exact Prod.Lex.right _ (Prod.Lex.right _ (Prod.Lex.left _ _ smaller))

/-- No activity leads on for ever. -/
theorem wellFounded_calls (lib : Library) : WellFounded fun b a => Calls lib a b :=
  Subrelation.wf (fun h => Calls.less h) (InvImage.wf (left lib) IsWellFounded.wf)

end Activity

/-- The activities that begin while a token is pulled: one for each statement that has to be
expanded before there is a token. -/
inductive Stream.Begins (lib : Library) : Preprocessor → Stream → Activity → Prop
  | statement {p : Preprocessor} {s : Stream} :
      s.pending = [] → s.done = false → Begins lib p s (.file [s.path] false (s.work p))
  | later {p : Preprocessor} {s : Stream} {out : Array Token} {w : Work} {a : Activity} :
      s.pending = [] → s.done = false → (s.work p).run lib [s.path] false #[] = (out, none, w) →
      Begins lib (p.after w) { s with reader := w.reader, pending := out.toList } a →
      Begins lib p s a

/-- The activities that go on at some time while a token is pulled. -/
def Stream.During (lib : Library) (p : Preprocessor) (s : Stream) (a : Activity) : Prop :=
  ∃ b, Stream.Begins lib p s b ∧ Relation.ReflTransGen (Activity.Calls lib) b a

/-- While a token is pulled, no file and no macro is expanded inside of itself. -/
theorem Stream.During.noRepeats {lib : Library} {p : Preprocessor} {s : Stream} {a : Activity}
    (h : s.During lib p a) : a.NoRepeats := by
  obtain ⟨b, begins, reaches⟩ := h
  refine Activity.noRepeats_of_reaches reaches ?_
  clear reaches
  induction begins with
  | statement => exact List.nodup_cons.2 ⟨List.not_mem_nil, List.nodup_nil⟩
  | later _ _ _ _ ih => exact ih

end RoomScript
