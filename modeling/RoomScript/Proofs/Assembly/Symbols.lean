import RoomScript.Proofs.Assembly.Passes

/-!
# Names in operands

A name in an operand stands for a procedure or for a value of the opcode table.  The assembler looks
for procedures in the main section only, also in statements of the other sections.

* `Script.value?` is the value that a name has inside a procedure of a kind, when the procedures of
  that kind come first;
* `Script.Indexed.find?_name` says that the declared position of a name is the index of the first
  procedure with it;
* `termValue_eq_resolve_iff` says when the assembler finds that value, and `doors_differ` that it
  does not always.
-/

namespace RoomScript

namespace Script

/-- The value of a name where the procedures of a kind come first and the opcode table second. -/
def value? (s : Script) (kind : Kind) (name : String) : Option ℤ :=
  (((s.ofKind kind).find? (·.name = name)).map (·.index)).or (Opcode.symbolValue? name)

/-- The value of a name, or the report that it has none. -/
def resolve (s : Script) (kind : Kind) (t : Token) : Except Diagnostic ℤ :=
  match s.value? kind t.lexeme with
  | some v => .ok v
  | none => .error (t.diagnostic (.unknownSymbol t.lexeme))

theorem resolve_inj {s : Script} {kind other : Kind} {t : Token} :
    s.resolve kind t = s.resolve other t ↔ s.value? kind t.lexeme = s.value? other t.lexeme := by
  unfold resolve
  cases s.value? kind t.lexeme <;> cases s.value? other t.lexeme <;> simp

/-- The position of a name among those of its kind is the index of the first procedure with it. -/
theorem Indexed.find?_name {s : Script} (indexed : s.Indexed) (kind : Kind) (name : String) :
    ((s.ofKind kind).find? (·.name = name)).map (·.index) =
      (((s.ofKind kind).map (·.name)).idxOf? name).map fun i : ℕ => (i : ℤ) := by
  cases position : ((s.ofKind kind).map (·.name)).idxOf? name with
  | none =>
    have absent := List.idxOf?_eq_none_iff.1 position
    have none : (s.ofKind kind).find? (·.name = name) = none := by
      rw [List.find?_eq_none]
      intro p hp
      rw [decide_eq_true_iff]
      exact fun called => absent (List.mem_map.2 ⟨p, hp, called⟩)
    rw [none]
    rfl
  | some i =>
    obtain ⟨bound, called, first⟩ := List.idxOf?_eq_some_iff.1 position
    simp only [List.length_map, List.getElem_map] at bound called first
    have found : (s.ofKind kind).find? (·.name = name) = some (s.ofKind kind)[i] := by
      rw [List.find?_eq_some_iff_getElem]
      refine ⟨by simpa using called, i, bound, rfl, fun j small => ?_⟩
      simpa using first j small
    rw [found]
    exact congrArg some (indexed.index_eq (List.getElem?_eq_getElem bound))

end Script

namespace Assembly

/-- A name is looked up among the procedures whose names are given, then in the opcode table. -/
theorem termValue_of_symbol {s : Script} (indexed : s.Indexed) {kind : Kind} {t : Token}
    (symbol : t.kind = .symbol) :
    termValue ((s.ofKind kind).map (·.name)) t = s.resolve kind t := by
  have first := indexed.find?_name kind t.lexeme
  unfold termValue Script.resolve Script.value?
  rw [symbol, first]
  cases ((s.ofKind kind).map (·.name)).idxOf? t.lexeme with
  | some i => rfl
  | none => cases Opcode.symbolValue? t.lexeme <;> rfl

/-- The bytes of every procedure, of whatever kind, are those of its lines. -/
theorem data_foldl_addTo (procedures : List String) (blocks : List Block) (s : Script) :
    (blocks.foldl (Block.addTo procedures) s).procedures.map (fun p => (p.kind, p.data)) =
      s.procedures.map (fun p => (p.kind, p.data)) ++
        blocks.map fun b => (b.kind, b.lines.flatMap fun l => (l.encode procedures).1) := by
  induction blocks generalizing s with
  | nil => simp
  | cons b blocks ih =>
    rw [List.foldl_cons, ih]
    simp [Block.addTo, Script.add, Script.following]

/-- **Names are looked up in the main section.**  Every procedure is encoded with the names of the
main procedures, whatever kind it is of itself.  Inside a procedure of a kind a name therefore has
the value that its own section gives it exactly when the main section gives it the same one. -/
theorem termValue_eq_resolve_iff (tokens : List Token) (kind : Kind) (t : Token)
    (symbol : t.kind = .symbol) :
    let names := (Declarations.ofLines (Line.ofText tokens)).ofKind .main
    let script := (assemble tokens).script
    script.procedures.map (fun p => (p.kind, p.data)) =
        (Block.ofLines (Line.ofText tokens)).map (fun b =>
          (b.kind, b.lines.flatMap fun l => (l.encode names).1)) ∧
      (termValue names t = script.resolve kind t ↔
        script.value? .main t.lexeme = script.value? kind t.lexeme) := by
  intro names script
  have made : script = scriptOf (Line.ofText tokens) := rfl
  have known : names = (script.ofKind .main).map (·.name) := ofKind_ofLines _ .main
  constructor
  · rw [made, scriptOf, data_foldl_addTo]
    rfl
  · rw [known, termValue_of_symbol (made ▸ indexed_scriptOf _) symbol]
    exact Script.resolve_inj

/-- A word as a token. -/
def word (text : String) : Token :=
  .ofChars .symbol text.toList

/-- Two doors, the second procedure of the main section and the first one of the event section,
which calls itself. -/
def doors : List Token :=
  [word ".proc", word "main", newline, word "nop", newline,
    word ".proc", word "door", newline, word "nop", newline,
    word ".event", newline, word ".proc", word "door", newline, word "gosub", word "door", newline]

theorem termValue_eq_resolve_iff_doors :
    (word "door").kind = .symbol ∧
      (termValue ((Declarations.ofLines (Line.ofText doors)).ofKind .main) (word "door") =
          (assemble doors).script.resolve .event (word "door") ↔
        (assemble doors).script.value? .main "door" =
          (assemble doors).script.value? .event "door") :=
  ⟨rfl, (termValue_eq_resolve_iff doors .event (word "door") rfl).2⟩

/-- The door of the event section is the first procedure there, but calling it by its name calls
the door of the main section. -/
theorem doors_differ :
    (assemble doors).diagnostics = [] ∧
      (assemble doors).script.procedures[2]? = some ⟨.event, 0, "door", [0x18, 1]⟩ ∧
      (assemble doors).script.resolve .event (word "door") = .ok 0 ∧
      termValue ((Declarations.ofLines (Line.ofText doors)).ofKind .main) (word "door") = .ok 1 := by
  have silent : (assemble doors).diagnostics = [] := by decide +kernel
  have made : (assemble doors).script.procedures =
      [⟨.main, 0, "main", [0]⟩, ⟨.main, 1, "door", [0]⟩, ⟨.event, 0, "door", [0x18, 1]⟩] := by
    decide +kernel
  have names : (Declarations.ofLines (Line.ofText doors)).ofKind .main = ["main", "door"] := by
    decide +kernel
  refine ⟨silent, by rw [made]; rfl, ?_, by rw [names]; rfl⟩
  rw [Script.resolve, Script.value?, Script.ofKind, made]
  rfl

end Assembly

end RoomScript
