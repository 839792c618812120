import RoomScript.Token

/-!
# Macros

A macro is a name for a token list, with or without parameters.  A table of macros is searched from
its newest entry, so a later definition of a name hides the earlier ones.
-/

namespace RoomScript

/-- A name for a token list.  A macro without parameters is used by its name alone. -/
structure Macro where
  name : String
  params : List String := []
  body : List Token
  deriving DecidableEq, Repr

namespace Macro

/-- The body with every parameter replaced by its argument.  Parameter names that stand inside an
argument are left alone. -/
def substitute (m : Macro) (args : List (List Token)) : List Token :=
  m.body.flatMap fun t =>
    if t.kind = .symbol then ((m.params.zip args).lookup t.lexeme).getD [t] else [t]

/-- Known macros, newest first. -/
abbrev Table := List Macro

namespace Table

/-- The macro a name stands for. -/
def find? (table : Table) (name : String) : Option Macro :=
  List.find? (·.name == name) table

/-- Add a definition. -/
def define (table : Table) (m : Macro) : Table :=
  m :: table

/-- Whether a name stands for anything. -/
def isDefined (table : Table) (name : String) : Bool :=
  (table.find? name).isSome

/-- The number of entries whose names are not among `active`. -/
def inactive (table : Table) (active : List String) : Nat :=
  table.countP (·.name ∉ active)

theorem name_of_find? {table : Table} {name : String} {m : Macro} (h : table.find? name = some m) :
    m.name = name := by
  simpa using List.find?_some h

theorem mem_of_find? {table : Table} {name : String} {m : Macro} (h : table.find? name = some m) :
    m ∈ table :=
  List.mem_of_find?_eq_some h

/-- The newest definition is the one found. -/
@[simp] theorem find?_define_self (table : Table) (m : Macro) :
    (table.define m).find? m.name = some m := by
  simp [define, find?]

/-- A definition leaves all other names as they are. -/
theorem find?_define_of_ne (table : Table) {m : Macro} {name : String} (h : m.name ≠ name) :
    (table.define m).find? name = table.find? name := by
  simp [define, find?, h]

/-- Making a macro active leaves fewer inactive ones. -/
theorem inactive_cons_lt {table : Table} {active : List String} {m : Macro} (known : m ∈ table)
    (idle : m.name ∉ active) : table.inactive (m.name :: active) < table.inactive active := by
  unfold inactive
  induction table with
  | nil => simp at known
  | cons x rest ih =>
    have step : List.countP (fun e : Macro => decide (e.name ∉ m.name :: active)) rest ≤
        List.countP (fun e : Macro => decide (e.name ∉ active)) rest := by
      apply List.countP_mono_left
      intro e _ h
      simp only [List.mem_cons, not_or, decide_eq_true_eq] at h ⊢
      exact h.2
    by_cases same : x.name = m.name
    · simp [same, idle]
      simp only [List.mem_cons, not_or, decide_not] at step
      simpa [Nat.lt_succ_iff] using step
    · have inRest : m ∈ rest := by
        rcases List.mem_cons.1 known with rfl | h
        · exact absurd rfl same
        · exact h
      have := ih inRest
      by_cases hx : x.name ∈ active <;> simp_all

end Table

end Macro

end RoomScript
