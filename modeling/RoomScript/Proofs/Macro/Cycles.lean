import Mathlib.Logic.Relation
import RoomScript.Proofs.Macro.Steps

/-!
# Macros that are used by their own bodies

A macro that is being expanded is not expanded again.  For macros without parameters this guard
reports exactly those uses from which a cycle can be reached, and it never stands in the way of any
other: a macro may be used side by side and along several paths.

* `Macro.Table.Uses` relates a macro to those that its body names, and `Macro.Table.Loops` are the
  macros from which a cycle of this relation can be reached;
* `Macro.Table.Unfolds` replaces all macros of a list, recursively, by their bodies;
* `Macro.Guarded` describes an expansion under the guard, with what it reports, and
  `Macro.guarded_expandOnto` says that the expansion of a captured list is one;
* `Macro.expand_flat` is the result.
-/

namespace RoomScript

namespace Macro

namespace Table

variable {table : Table}

/-- The table has macros without parameters only, and no parenthesis is opened in their bodies. -/
def Flat (table : Table) : Prop :=
  ∀ name m, table.find? name = some m → m.params = [] ∧ ∀ t ∈ m.body, t.kind ≠ .lparen

theorem flat_of_forall (flat : ∀ m ∈ table, m.params = [] ∧ ∀ t ∈ m.body, t.kind ≠ .lparen) :
    table.Flat :=
  fun _ m found => flat m (mem_of_find? found)

/-- The body of one macro has a symbol that names the other. -/
def Uses (table : Table) (m n : Macro) : Prop :=
  ∃ t ∈ Token.untilEnd m.body, table.named? t = some n

/-- From the macro a cycle of uses can be reached. -/
def Loops (table : Table) (m : Macro) : Prop :=
  ∃ c, Relation.ReflTransGen table.Uses m c ∧ Relation.TransGen table.Uses c c

/-- The second list is the first one with every macro replaced by its body, in which the same has
been done. -/
inductive Unfolds (table : Table) : List Token → List Token → Prop
  | nil : Unfolds table [] []
  | keep {t : Token} {ts us : List Token} (plain : table.named? t = none)
    (rest : Unfolds table ts us) : Unfolds table (t :: ts) (t :: us)
  | replace {t : Token} {m : Macro} {ts bs us : List Token} (named : table.named? t = some m)
    (body : Unfolds table (Token.untilEnd m.body) bs) (rest : Unfolds table ts us) :
    Unfolds table (t :: ts) (bs ++ us)

namespace Unfolds

/-- There is at most one way to replace all macros. -/
theorem unique {ts us vs : List Token} (h : table.Unfolds ts us) (h' : table.Unfolds ts vs) :
    us = vs := by
  induction h generalizing vs with
  | nil =>
    cases h'
    rfl
  | keep plain _ ih =>
    cases h' with
    | keep _ rest => rw [ih rest]
    | replace named => rw [plain] at named; cases named
  | replace named _ _ ihBody ihRest =>
    cases h' with
    | keep plain => rw [plain] at named; cases named
    | replace named' body rest =>
      rw [named] at named'
      cases named'
      rw [ihBody body, ihRest rest]

/-- When all macros of a list can be replaced, the uses from each of them come to an end. -/
theorem acc {ts us : List Token} (h : table.Unfolds ts us) :
    ∀ t ∈ ts, ∀ m, table.named? t = some m → Acc (Function.swap table.Uses) m := by
  induction h with
  | nil => exact fun t mem => absurd mem List.not_mem_nil
  | keep plain _ ih =>
    intro t mem m named
    rcases List.mem_cons.1 mem with rfl | mem
    · rw [plain] at named
      cases named
    · exact ih t mem m named
  | replace named _ _ ihBody ihRest =>
    intro t mem m named'
    rcases List.mem_cons.1 mem with rfl | mem
    · rw [named] at named'
      cases named'
      exact Acc.intro _ fun n ⟨u, inBody, used⟩ => ihBody u inBody n used
    · exact ihRest t mem m named'

end Unfolds

/-- Where the uses come to an end, no cycle can be reached. -/
theorem not_loops_of_acc {m : Macro} (ends : Acc (Function.swap table.Uses) m) :
    ¬table.Loops m := by
  rintro ⟨c, reaches, cycle⟩
  have inside : Acc (Function.swap table.Uses) c := by
    clear cycle
    induction reaches with
    | refl => exact ends
    | tail _ uses ih => exact ih.inv uses
  have below : Acc (Relation.TransGen (Function.swap table.Uses)) c := inside.transGen
  have back : Relation.TransGen (Function.swap table.Uses) c c := Relation.transGen_swap.2 cycle
  clear reaches inside cycle
  induction below with
  | intro c _ ih => exact ih c back back

end Table

/-! ## Expanding under the guard -/

/-- The second list is what becomes of the first one while some macros are being expanded: uses of
those are reported and dropped, and all others are replaced. -/
inductive Guarded (table : Table) :
    List String → List Token → List Token → List Diagnostic → Prop
  | nil {active : List String} : Guarded table active [] [] []
  | keep {active : List String} {t : Token} {ts us : List Token} {ds : List Diagnostic}
    (plain : table.named? t = none) (rest : Guarded table active ts us ds) :
    Guarded table active (t :: ts) (t :: us) ds
  | refuse {active : List String} {t : Token} {m : Macro} {ts us : List Token}
    {ds : List Diagnostic} (named : table.named? t = some m) (again : m.name ∈ active)
    (rest : Guarded table active ts us ds) :
    Guarded table active (t :: ts) us (t.diagnostic (.recursiveMacro m.name) :: ds)
  | replace {active : List String} {t : Token} {m : Macro} {ts bs us : List Token}
    {es ds : List Diagnostic} (named : table.named? t = some m) (idle : m.name ∉ active)
    (body : Guarded table (m.name :: active) (Token.untilEnd m.body) bs es)
    (rest : Guarded table active ts us ds) :
    Guarded table active (t :: ts) (bs ++ us) (es ++ ds)

namespace Guarded

variable {table : Table} {active : List String} {ts us : List Token} {ds : List Diagnostic}

/-- Nothing but recursive uses is reported. -/
theorem recursive (h : Guarded table active ts us ds) :
    ∀ d ∈ ds, ∃ name, d.cause = .recursiveMacro name := by
  induction h with
  | nil => exact List.forall_mem_nil _
  | keep _ _ ih => exact ih
  | refuse _ _ _ ih => exact List.forall_mem_cons.2 ⟨⟨_, rfl⟩, ih⟩
  | replace _ _ _ _ ihBody ihRest => exact List.forall_mem_append.2 ⟨ihBody, ihRest⟩

/-- When nothing is reported, all macros have been replaced. -/
theorem unfolds (h : Guarded table active ts us ds) (quiet : ds = []) : table.Unfolds ts us := by
  induction h with
  | nil => exact .nil
  | keep plain _ ih => exact .keep plain (ih quiet)
  | refuse => cases quiet
  | replace named _ _ _ ihBody ihRest =>
    obtain ⟨rfl, rfl⟩ := List.append_eq_nil_iff.1 quiet
    exact .replace named (ihBody rfl) (ihRest rfl)

/-- Whatever the list names has been reached from each of the active macros. -/
def Below (table : Table) (active : List String) (ts : List Token) : Prop :=
  ∀ name ∈ active, ∃ a, table.find? name = some a ∧
    ∀ t ∈ ts, ∀ n, table.named? t = some n → Relation.TransGen table.Uses a n

theorem Below.tail {t : Token} (below : Below table active (t :: ts)) : Below table active ts :=
  fun name mem => (below name mem).imp fun _ ⟨known, reaches⟩ =>
    ⟨known, fun u mem => reaches u (List.mem_cons_of_mem _ mem)⟩

/-- What the body of a macro names has been reached from this macro, and from those that have
reached it. -/
theorem Below.body {t : Token} {m : Macro} (below : Below table active (t :: ts))
    (named : table.named? t = some m) :
    Below table (m.name :: active) (Token.untilEnd m.body) := by
  intro name mem
  rcases List.mem_cons.1 mem with rfl | mem
  · refine ⟨m, ?_, fun u mem n used => .single ⟨u, mem, used⟩⟩
    rw [Table.name_of_named? named]
    exact (Table.named?_eq_some_iff.1 named).2
  · obtain ⟨a, known, reaches⟩ := below name mem
    exact ⟨a, known, fun u mem n used =>
      (reaches t List.mem_cons_self m named).tail ⟨u, mem, used⟩⟩

/-- When something is reported, a cycle can be reached from the list. -/
theorem exists_loops (h : Guarded table active ts us ds) (loud : ds ≠ [])
    (below : Below table active ts) :
    ∃ t ∈ ts, ∃ m, table.named? t = some m ∧ table.Loops m := by
  induction h with
  | nil => exact absurd rfl loud
  | keep _ _ ih =>
    obtain ⟨u, mem, found⟩ := ih loud below.tail
    exact ⟨u, List.mem_cons_of_mem _ mem, found⟩
  | @refuse active t m ts us ds named again _ _ =>
    obtain ⟨a, known, reaches⟩ := below m.name again
    have same : a = m := by
      rw [Table.name_of_named? named, (Table.named?_eq_some_iff.1 named).2] at known
      exact (Option.some.inj known).symm
    subst same
    exact ⟨t, List.mem_cons_self, a, named, a, .refl, reaches t List.mem_cons_self a named⟩
  | @replace active t m ts bs us es ds named _ _ _ ihBody ihRest =>
    by_cases quietBody : es = []
    · obtain ⟨u, mem, found⟩ := ihRest (by simpa [quietBody] using loud) below.tail
      exact ⟨u, List.mem_cons_of_mem _ mem, found⟩
    · obtain ⟨u, mem, n, used, c, reaches, cycle⟩ := ihBody quietBody (below.body named)
      exact ⟨t, List.mem_cons_self, m, named, c, reaches.head ⟨u, mem, used⟩, cycle⟩

end Guarded

end Macro

/-! ## Calls without arguments -/

namespace Reader.Replays

variable {table : Macro.Table} {active : List String} {r : Reader} {t : Token} {ts : List Token}
  {m : Macro}

/-- A use of a macro that is being expanded is reported and dropped. -/
theorem expandCall_of_active (condition : Bool) (h : r.Replays (t :: ts))
    (named : table.named? t = some m) (bare : m.params = []) (again : m.name ∈ active) :
    ∃ after, r.expandCall table condition active = (some [], after) ∧ after.Replays ts ∧
      after.diagnostics = r.diagnostics ++ [t.diagnostic (.recursiveMacro m.name)] := by
  obtain ⟨rfl, -, -, left, same⟩ := h.front
  obtain ⟨after, found, -⟩ :=
    (left.with_diagnostics (r.read.2.diagnostics ++ [_])).peekNoWhitespace
  refine ⟨_, ?_, after, by rw [found, same]⟩
  rw [expandCall, call_eq, named]
  simp [again, refuseCall, bare, report]

/-- Any other macro gives way to its expanded body, when no parenthesis follows. -/
theorem expandCall_of_idle (condition : Bool) (h : r.Replays (t :: ts))
    (named : table.named? t = some m) (bare : m.params = []) (idle : m.name ∉ active)
    (plain : ∀ u ∈ ts, u.kind ≠ .lparen) :
    ∃ after, r.expandCall table condition active =
        (some (Macro.expand table condition (m.name :: active) m.body r.diagnostics).1, after) ∧
      after.Replays ts ∧ after.diagnostics =
        (Macro.expand table condition (m.name :: active) m.body r.diagnostics).2 := by
  obtain ⟨rfl, -, -, left, same⟩ := h.front
  obtain ⟨after, found, seen⟩ := left.peekNoWhitespace
  have noCall : r.read.2.peekNoWhitespace.1.1.kind ≠ .lparen :=
    seen.elim (plain _) fun ended => by simp [ended]
  refine ⟨_, ?_, after.with_diagnostics _, rfl⟩
  rw [expandCall, call_eq, named]
  simp [idle, callBody, noCall, bare, found, same]

end Reader.Replays

namespace Macro

/-- The expansion of a captured list in which no parenthesis is opened goes on under the guard. -/
theorem guarded_expandOnto {table : Table} (flat : table.Flat) (active : List String) {r : Reader}
    {ts : List Token} (replays : r.Replays ts) (plain : ∀ t ∈ ts, t.kind ≠ .lparen)
    (out : Array Token) : ∃ (us : List Token) (ds : List Diagnostic),
      expandOnto table false active r out = (out ++ us, r.diagnostics ++ ds) ∧
        Guarded table active ts us ds := by
  -- A call makes one more macro active, and every other step leaves a shorter list.
  induction idle : table.inactive active using Nat.strongRecOn generalizing active r ts out with
  | ind left outer =>
    induction ts generalizing r out with
    | nil =>
      obtain ⟨ended, same⟩ := replays.atEnd
      exact ⟨[], [], by simp [expandOnto_of_end ended, same], .nil⟩
    | cons t ts ih =>
      obtain ⟨rfl, going, -, after, same⟩ := replays.front
      have plainRest := fun u mem => plain u (List.mem_cons_of_mem _ mem)
      cases named : table.named? r.peek.1 with
      | none =>
        obtain ⟨us, ds, ran, guarded⟩ := ih after plainRest (out.push r.peek.1)
        refine ⟨_, ds, ?_, .keep named guarded⟩
        rw [expandOnto_of_unnamed going (by simp) named, ran, same, Array.appendList_cons]
      | some m =>
        obtain ⟨bare, plainBody⟩ := flat _ m (Table.named?_eq_some_iff.1 named).2
        by_cases again : m.name ∈ active
        · obtain ⟨after, found, replays, same⟩ :=
            replays.expandCall_of_active false named bare again
          obtain ⟨us, ds, ran, guarded⟩ := ih replays plainRest out
          refine ⟨us, _, ?_, .refuse named again guarded⟩
          rw [expandOnto_eq going (by simp), found]
          simp only [ran, same, Array.appendList_nil, List.append_assoc, List.singleton_append]
        · obtain ⟨after, found, replays, same⟩ :=
            replays.expandCall_of_idle false named bare again plainRest
          have fewer := Table.inactive_cons_lt
            (Table.mem_of_find? (Table.named?_eq_some_iff.1 named).2) again
          obtain ⟨bs, es, inner, guardedBody⟩ := outer _ (idle ▸ fewer) (m.name :: active)
            (Reader.replays_ofTokens m.body r.diagnostics)
            (fun u mem => plainBody u (Token.mem_of_mem_untilEnd mem)) #[] rfl
          have body : expand table false (m.name :: active) m.body r.diagnostics =
              (bs, r.diagnostics ++ es) := by
            rw [expand, inner]
            simp [Reader.ofTokens]
          rw [body] at found same
          obtain ⟨us, ds, ran, guarded⟩ := ih replays plainRest (out ++ bs)
          refine ⟨_, _, ?_, .replace named again guardedBody guarded⟩
          rw [expandOnto_eq going (by simp), found]
          simp only [ran, same, append_append, List.append_assoc]

/-- **The recursion guard reports exactly the cycles.**  When macros have no parameters and no
parenthesis is opened, expanding a list reports a recursive use if and only if some symbol of the
list names a macro from which a cycle can be reached.  When there is none, nothing at all is
reported, and the result is the list with every macro replaced, recursively, by its unfolded body.
-/
theorem expand_flat (table : Table) (flat : table.Flat) (tokens : List Token)
    (plain : ∀ t ∈ tokens, t.kind ≠ .lparen) (ds : List Diagnostic) : ∃ us found,
      expand table false [] tokens ds = (us, ds ++ found) ∧
      ((∃ d ∈ found, ∃ name, d.cause = .recursiveMacro name) ↔
        ∃ t ∈ Token.untilEnd tokens, ∃ m, table.named? t = some m ∧ table.Loops m) ∧
      ((∀ t ∈ Token.untilEnd tokens, ∀ m, table.named? t = some m → ¬table.Loops m) →
        found = [] ∧ ∀ vs, table.Unfolds (Token.untilEnd tokens) vs ↔ vs = us) := by
  obtain ⟨us, found, ran, guarded⟩ := guarded_expandOnto flat []
    (Reader.replays_ofTokens tokens ds)
    (fun t mem => plain t (Token.mem_of_mem_untilEnd mem)) #[]
  have cyclic : found ≠ [] → ∃ t ∈ Token.untilEnd tokens, ∃ m, table.named? t = some m ∧
      table.Loops m :=
    fun loud => guarded.exists_loops loud fun name mem => absurd mem List.not_mem_nil
  have acyclic : found = [] → ∀ t ∈ Token.untilEnd tokens, ∀ m, table.named? t = some m →
      ¬table.Loops m :=
    fun quiet t mem m named => Table.not_loops_of_acc ((guarded.unfolds quiet).acc t mem m named)
  refine ⟨us, found, ?_, ⟨?_, ?_⟩, fun none => ?_⟩
  · rw [expand, ran]
    simp [Reader.ofTokens]
  · rintro ⟨d, mem, -⟩
    exact cyclic (List.ne_nil_of_mem mem)
  · rintro ⟨t, mem, m, named, loops⟩
    have loud : found ≠ [] := fun quiet => acyclic quiet t mem m named loops
    obtain ⟨d, mem⟩ := List.exists_mem_of_ne_nil found loud
    exact ⟨d, mem, guarded.recursive d mem⟩
  · have quiet : found = [] := Decidable.byContradiction fun loud => by
      obtain ⟨t, mem, m, named, loops⟩ := cyclic loud
      exact none t mem m named loops
    have unfolded := guarded.unfolds quiet
    refine ⟨quiet, fun vs => ⟨fun h => h.unique unfolded, ?_⟩⟩
    rintro rfl
    exact unfolded

/-! ## An example -/

namespace Ring

/-- A use of a name. -/
def use (name : String) : Token :=
  ⟨.symbol, name, "main.scd", 1, 1⟩

/-- Three macros that use one another in a ring, and one that uses a fifth one twice. -/
def table : Table :=
  [⟨"DOOR", [], [use "LOCK"]⟩, ⟨"LOCK", [], [use "KEY"]⟩, ⟨"KEY", [], [use "DOOR"]⟩,
    ⟨"STAIRS", [], [use "STEP", use "STEP"]⟩, ⟨"STEP", [], [use "up"]⟩]

/-- The ring is reported at a use of any of its macros; the two steps of the stairs are not. -/
theorem expand_flat_ring : table.Flat ∧ (∀ t ∈ [use "STAIRS", use "KEY"], t.kind ≠ .lparen) ∧
    (∃ d ∈ (expand table false [] [use "STAIRS", use "KEY"] []).2,
      ∃ name, d.cause = .recursiveMacro name) ∧
    expand table false [] [use "STAIRS"] [] = ([use "up", use "up"], []) := by
  have flat : table.Flat := Table.flat_of_forall (by decide)
  have key : table.named? (use "KEY") = some ⟨"KEY", [], [use "DOOR"]⟩ := by decide
  have round : Relation.TransGen table.Uses ⟨"KEY", [], [use "DOOR"]⟩ ⟨"KEY", [], [use "DOOR"]⟩ := by
    refine .tail (b := ⟨"LOCK", [], [use "KEY"]⟩) (.tail (b := ⟨"DOOR", [], [use "LOCK"]⟩)
      (.single ?_) ?_) ?_
    · exact ⟨use "DOOR", by decide, by decide⟩
    · exact ⟨use "LOCK", by decide, by decide⟩
    · exact ⟨use "KEY", by decide, by decide⟩
  have step : table.Unfolds [use "STEP"] [use "up"] :=
    .replace (m := ⟨"STEP", [], [use "up"]⟩) (by decide) (.keep (by decide) .nil) .nil
  have stairs : table.Unfolds [use "STAIRS"] [use "up", use "up"] :=
    .replace (m := ⟨"STAIRS", [], [use "STEP", use "STEP"]⟩) (by decide)
      (.replace (m := ⟨"STEP", [], [use "up"]⟩) (by decide) (.keep (by decide) .nil) step) .nil
  refine ⟨flat, by decide, ?_, ?_⟩
  · obtain ⟨us, found, ran, reported, -⟩ :=
      expand_flat table flat [use "STAIRS", use "KEY"] (by decide) []
    rw [ran]
    exact reported.2 ⟨use "KEY", by decide, _, key, _, .refl, round⟩
  · obtain ⟨us, found, ran, -, quiet⟩ := expand_flat table flat [use "STAIRS"] (by decide) []
    obtain ⟨rfl, unfolded⟩ := quiet fun t mem m named =>
      Table.not_loops_of_acc (stairs.acc t mem m named)
    rw [ran, (unfolded _).1 stairs]
    rfl

end Ring

end Macro

end RoomScript
