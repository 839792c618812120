import RoomScript.Assembly.Line
import RoomScript.Proofs.Macro.Arguments
import RoomScript.Proofs.Preprocess.Defined

/-!
# Macros that come from definitions

While text is expanded, a macro becomes known at a definition only.  So when no macro is made known
from outside, all macros of a run are what definitions look like, and no call breaks a statement.

* `Work.learns_run` is a run of turns, `Activity.Calls.learns` all that goes on inside of it, and
  `Preprocessor.learns_uses` any use of a preprocessor;
* `Preprocessor.calls_keep_line` is the result.
-/

namespace RoomScript

/-! ## Runs -/

namespace Work

theorem learns_of_turn {w w' : Work} {what : Step} (taken : w.turn = (what, w')) :
    w.macros.Learns w'.macros := by
  have learned := w.learns_turn
  rwa [taken] at learned

/-- A run learns from definitions only, those of included files among them. -/
theorem learns_run (lib : Library) (chain : List String) (whole : Bool) (w : Work)
    (out : Array Token) : w.macros.Learns (run lib chain whole w out).2.2.macros := by
  fun_induction run lib chain whole w out with
  | case1 chain whole w out eof w' taken => exact learns_of_turn taken
  | case2 chain whole w out ts w' taken _ => exact learns_of_turn taken
  | case3 chain whole w out ts w' taken _ ih => exact (learns_of_turn taken).trans ih
  | case4 chain whole w out place quoted w' taken =>
    have learned := learns_of_turn taken
    exact learned
  | case5 chain whole w out place quoted w' taken found cause fetched w₁ _ ih =>
    exact (learns_of_turn taken).trans ih
  | case6 chain whole w out place quoted w₁ taken found data fetched w₂ brought last visited ran
      w₃ _ ih =>
    rw [ran] at ih
    exact (learns_of_turn taken).trans ih
  | case7 chain whole w out place quoted w₁ taken found data fetched w₂ brought last visited ran
      w₃ _ ihInner ih =>
    rw [ran] at ihInner
    exact (learns_of_turn taken).trans (ihInner.trans ih)

theorem learns_of_run {lib : Library} {chain : List String} {whole : Bool} {w w' : Work}
    {out brought : Array Token} {last : Option Token}
    (ran : run lib chain whole w out = (brought, last, w')) : w.macros.Learns w'.macros := by
  have learned := learns_run lib chain whole w out
  rwa [ran] at learned

end Work

/-! ## Activities -/

namespace Activity

/-- The macros that are known to an activity. -/
def macros : Activity → Macro.Table
  | file _ _ w => w.macros
  | captured table _ _ _ => table

/-- An activity passes on what it knows and what it has learned from definitions. -/
theorem Calls.learns {lib : Library} {a b : Activity} (h : Calls lib a b) :
    a.macros.Learns b.macros := by
  cases h with
  | turn taken _ => exact Work.learns_of_turn taken
  | refuse taken _ _ =>
    have learned := Work.learns_of_turn taken
    exact learned
  | enter taken _ =>
    have learned := Work.learns_of_turn taken
    exact learned
  | resume taken _ ran _ =>
    have learned := Work.learns_of_run ran
    exact (Work.learns_of_turn taken).trans learned
  | condition => exact .nothing
  | call => exact .nothing
  | keep => exact .nothing
  | replaced => exact .nothing
  | nested => exact .nothing
  | after => exact .nothing

theorem learns_of_reaches {lib : Library} {a b : Activity}
    (h : Relation.ReflTransGen (Calls lib) a b) : a.macros.Learns b.macros := by
  induction h with
  | refl => exact .nothing
  | tail _ step ih => exact ih.trans step.learns

end Activity

namespace Stream

/-- Whatever goes on while a token is pulled has learned from definitions only. -/
theorem During.learns {lib : Library} {p : Preprocessor} {s : Stream} {a : Activity}
    (h : s.During lib p a) : p.macros.Learns a.macros := by
  obtain ⟨b, begins, reaches⟩ := h
  refine Macro.Table.Learns.trans ?_ (Activity.learns_of_reaches reaches)
  clear reaches
  induction begins with
  | statement => exact .nothing
  | later _ _ ran _ ih => exact (Work.learns_of_run ran).trans ih

theorem learns_fill (lib : Library) (p : Preprocessor) (s : Stream) :
    p.macros.Learns (s.fill lib p).2.macros := by
  fun_induction fill lib p s with
  | case1 => exact .nothing
  | case2 p s _ out eof w expanded => exact Work.learns_of_run expanded
  | case3 p s _ out w expanded ih => exact (Work.learns_of_run expanded).trans ih

theorem learns_next (lib : Library) (p : Preprocessor) (s : Stream) :
    p.macros.Learns (s.next lib p).2.2.macros := by
  have learned := s.learns_fill lib p
  unfold next
  simp only
  split <;> exact learned

theorem learns_collectOnto (lib : Library) (p : Preprocessor) (s : Stream) (out : Array Token) :
    p.macros.Learns (s.collectOnto lib p out).2.macros := by
  fun_induction collectOnto lib p s out with
  | case1 p s => exact s.learns_fill lib p
  | case2 p s out filled _ ih => exact (s.learns_fill lib p).trans ih

end Stream

/-! ## Preprocessors -/

namespace Preprocessor

/-- What is done with a preprocessor besides defining macros from outside. -/
inductive Use where
  /-- Start on a file. -/
  | start (lib : Library) (path : String)
  /-- Pull a token from the text of a file. -/
  | pull (lib : Library) (s : Stream)
  /-- Expand a file to its end. -/
  | expand (lib : Library) (path : String)

/-- The preprocessor after it has been used. -/
def use (p : Preprocessor) : Use → Preprocessor
  | .start lib path => (p.stream lib path).2
  | .pull lib s => (s.next lib p).2.2
  | .expand lib path => (p.expand lib path).2

theorem learns_stream (p : Preprocessor) (lib : Library) (path : String) :
    p.macros.Learns (p.stream lib path).2.macros := by
  unfold stream
  simp only
  split <;> exact .nothing

theorem learns_use (p : Preprocessor) (u : Use) : p.macros.Learns (p.use u).macros := by
  cases u with
  | start lib path => exact p.learns_stream lib path
  | pull lib s => exact s.learns_next lib p
  | expand lib path => exact (p.learns_stream lib path).trans (Stream.learns_collectOnto lib _ _ _)

theorem learns_uses (uses : List Use) (p : Preprocessor) :
    p.macros.Learns (uses.foldl use p).macros := by
  induction uses generalizing p with
  | nil => exact .nothing
  | cons u uses ih => exact (p.learns_use u).trans (ih _)

end Preprocessor

/-- Tokens that keep to a line are one statement line for the assembler, or none. -/
theorem length_ofText_le {ts : List Token} (within : ∀ t ∈ ts, t.KeepsLine) :
    (Assembly.Line.ofText ts).length ≤ 1 := by
  have oneLine : ∀ t ∈ (ts.takeWhile (·.kind != .eof)).filter (! ·.isLayout),
      (t.kind == .newline) = false := by
    intro t mem
    have inside := (List.takeWhile_prefix _).subset (List.mem_of_mem_filter mem)
    exact beq_eq_false_iff_ne.2 (within t inside).2.1
  rw [Assembly.Line.ofText, List.splitOnP_eq_singleton oneLine]
  exact List.length_filterMap_le _ _

/-- **Expanding a macro never breaks a statement.**  When a preprocessor is used in any way, but no
macro is defined from outside, then at all times the body of every macro that is known has no end,
no line end, no comment and no backslash, and neither begins nor ends with a blank.  A call that is
expanded at any of these times, wherever it stands and however many lines it is written on, gives
way to tokens without an end, a line end or a comment, so with what stands beside it on its line it
is one statement line for the assembler. -/
theorem Preprocessor.calls_keep_line (uses : List Preprocessor.Use) :
    let p := uses.foldl Preprocessor.use {}
    p.macros.Tidy ∧ ∀ (lib : Library) (s : Stream) (a : Activity), s.During lib p a →
      a.macros.Tidy ∧ ∀ (condition : Bool) (active : List String) (r after : Reader)
        (ts : List Token), r.expandCall a.macros condition active = (some ts, after) →
          (∀ t ∈ ts, t.KeepsLine) ∧ r.Becomes a.macros condition active ts after ∧
          ∀ front back : List Token, (∀ t ∈ front, t.KeepsLine) → (∀ t ∈ back, t.KeepsLine) →
            (Assembly.Line.ofText (front ++ ts ++ back)).length ≤ 1 := by
  intro p
  have tidy : p.macros.Tidy := (learns_uses uses {}).tidy (List.forall_mem_nil _)
  refine ⟨tidy, fun lib s a during => ?_⟩
  have known : a.macros.Tidy := during.learns.tidy tidy
  refine ⟨known, fun condition active r after ts expanded => ?_⟩
  have within := Reader.expandCall_keepsLine known expanded
  refine ⟨within, Reader.becomes_of_expandCall expanded, fun front back before behind => ?_⟩
  exact length_ofText_le (List.forall_mem_append.2
    ⟨List.forall_mem_append.2 ⟨before, within⟩, behind⟩)

section Example

open Reader Reader.Door

/-- The first argument stands on two lines, and a comment ends the first one of them. -/
example :
    ((ofTokens [piece .symbol "SWAP", piece .lparen "(", piece .symbol "a", piece .comment "; one",
      piece .newline "\n", piece .symbol "b", piece .comma ",", piece .symbol "c",
      piece .rparen ")"]).expandCall [swap] false []).1 =
    some [piece .symbol "c", piece .punct "+", piece .symbol "a", piece .whitespace " ",
      piece .whitespace " ", piece .symbol "b"] := by
  cbv

end Example

end RoomScript
