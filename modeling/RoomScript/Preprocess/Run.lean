import RoomScript.Library
import RoomScript.Preprocess.Turn
import RoomScript.Text.Utf8

/-!
# Expanding files

The turns of a file are taken one after another.  A file that is asked for by `#include` is expanded
to its end in between, with the macros known so far; the chain of open files grows by one, and a
file of the chain is never opened again.

The recursion ends because an include opens one more of the finitely many readable files, and within
one file every turn leaves less to do.
-/

namespace RoomScript

namespace Work

/-- Start on another file with the macros and diagnostics so far. -/
def visit (w : Work) (path : String) (data : ByteArray) : Work :=
  { macros := w.macros, remarks := w.remarks,
    reader := .ofText path (Text.ofBytes data) w.reader.diagnostics }

/-- Go on with a file after a visit to another one. -/
def resume (w visited : Work) : Work :=
  { w with macros := visited.macros, remarks := visited.remarks,
           reader := { w.reader with diagnostics := visited.reader.diagnostics } }

/-- Add a remark. -/
def remark (w : Work) (text : String) : Work :=
  { w with remarks := w.remarks ++ [text] }

/-- Add the remark that a resolution carries. -/
def remarkOn (w : Work) (found : Resolution) : Work :=
  { w with remarks := w.remarks ++ found.remark.toList }

/-- Report a cause at a token. -/
def reportAt (w : Work) (place : Token) (cause : Cause) : Work :=
  w.withReader (w.reader.report (place.diagnostic cause))

@[simp] theorem measure_resume (w visited : Work) : (w.resume visited).measure = w.measure := rfl

@[simp] theorem measure_remark (w : Work) (text : String) :
    (w.remark text).measure = w.measure := rfl

@[simp] theorem measure_remarkOn (w : Work) (found : Resolution) :
    (w.remarkOn found).measure = w.measure := rfl

@[simp] theorem measure_reportAt (w : Work) (place : Token) (cause : Cause) :
    (w.reportAt place cause).measure = w.measure := rfl

/-- The remark that one file brings in another. -/
def includingRemark (path current : String) : String :=
  "including " ++ path ++ " from " ++ current

/-- Take turns until the end of the file, or, when only one statement is wanted, until no
conditional is open.  The tokens are put after `out`; at the end of the file its token is returned
too.  The chain lists the open files, the current one first. -/
def run (lib : Library) (chain : List String) (whole : Bool) (w : Work) (out : Array Token) :
    Array Token × Option Token × Work :=
  match _taken : w.turn with
  | (.stop eof, w') => (out, some eof, w')
  | (.emit ts, w') =>
    if w'.opened.isEmpty && !whole then (out ++ ts, none, w')
    else run lib chain whole w' (out ++ ts)
  | (.enter place quoted, w') =>
    match _fetched : lib.fetch chain quoted with
    | (found, .error cause) =>
      let w' := (w'.remarkOn found).reportAt place cause
      if w'.opened.isEmpty && !whole then (out, none, w') else run lib chain whole w' out
    | (found, .ok data) =>
      let w' := (w'.remarkOn found).remark (includingRemark found.path (chain.headD ""))
      let (brought, _, visited) :=
        run lib (found.path :: chain) true (w'.visit found.path data) #[]
      let w' := w'.resume visited
      if w'.opened.isEmpty && !whole then (out ++ brought, none, w')
      else run lib chain whole w' (out ++ brought)
termination_by (lib.unopened chain, w.measure)
decreasing_by
  · have less := w.turn_lt (by simp [_taken])
    rw [_taken] at less
    exact Prod.Lex.right _ less
  · have less := w.turn_lt (by simp [_taken])
    rw [_taken] at less
    exact Prod.Lex.right _ less
  · exact Prod.Lex.left _ _ (Library.fetch_unopened_lt _fetched)
  · have less := w.turn_lt (by simp [_taken])
    rw [_taken] at less
    exact Prod.Lex.right _ less

/-- A file that is left before its end has less to do than at the start. -/
theorem run_lt (lib : Library) (chain : List String) (whole : Bool) (w : Work) (out : Array Token)
    (before : (run lib chain whole w out).2.1 = none) :
    Prod.Lex (· < ·) (· < ·) (run lib chain whole w out).2.2.measure w.measure := by
  have trans : ∀ {a b c : Nat × Nat}, Prod.Lex (· < ·) (· < ·) a b → Prod.Lex (· < ·) (· < ·) b c →
      Prod.Lex (· < ·) (· < ·) a c := by
    intro a b c hab hbc
    simp only [Prod.lex_def] at hab hbc ⊢
    omega
  have turned : ∀ {w w' : Work} {step : Step}, w.turn = (step, w') → (∀ eof, step ≠ .stop eof) →
      Prod.Lex (· < ·) (· < ·) w'.measure w.measure := by
    intro w w' step h going
    have less := w.turn_lt (by rw [h]; exact going)
    rwa [h] at less
  fun_induction run lib chain whole w out with
  | case1 => simp at before
  | case2 chain whole w out ts w' taken _ => exact turned taken (by simp)
  | case3 chain whole w out ts w' taken _ ih => exact trans (ih before) (turned taken (by simp))
  | case4 chain whole w out place quoted w' taken =>
    have less := turned taken (by simp)
    exact less
  | case5 chain whole w out place quoted w' taken found cause fetched left _ ih =>
    have less := turned taken (by simp)
    exact trans (ih before) less
  | case6 chain whole w out place quoted w' taken =>
    have less := turned taken (by simp)
    exact less
  | case7 chain whole w out place quoted w' taken found data fetched _ _ _ _ _ _ _ _ ih =>
    have less := turned taken (by simp)
    exact trans (ih before) less

/-- A statement that does not reach the end of the file has consumed something. -/
theorem run_size_lt {lib : Library} {chain : List String} {w w' : Work} {out brought : Array Token}
    (closed : w.opened = []) (h : run lib chain false w out = (brought, none, w')) :
    w'.reader.size < w.reader.size := by
  have less := run_lt lib chain false w out (by rw [h])
  rw [h] at less
  simpa [Prod.lex_def, measure, closed] using less

end Work

end RoomScript
