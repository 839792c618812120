import Mathlib.Tactic
import RoomScript.Listing

/-!
# Indentation follows nesting

Instructions that are nested properly are indented by it: a block stands where its opener stands,
its statements one step deeper, the labels of a switch one step deeper than the switch and the
statements under a label two steps.

* `Body` is the syntax of properly nested instructions, with their mnemonics and, from a depth on,
  with the depth of each of them;
* `Nesting.walk` closes and opens blocks for mnemonics in a row, and `nesting_instructions` says
  that listing instructions does just that;
* `Indents` says which depths a row of mnemonics stands at between two states of the open blocks,
  with one lemma for each construct;
* `Nesting.walk_mnemonics` is the result: a body stands at its depths and closes what it opens.
-/

namespace RoomScript.Listing

/-! ## Properly nested instructions -/

/-- The mnemonics that take part in the nesting. -/
def blockWords : List String :=
  ["if", "else", "endif", "for", "for2", "next", "while", "ewhile", "do", "edwhile", "switch",
    "case", "default", "eswitch"]

/-- The ways to repeat statements. -/
inductive Loop where
  | for
  | for2
  | while
  | do
  deriving DecidableEq, Repr

/-- The mnemonic in front of the statements of a loop. -/
def Loop.opener : Loop → String
  | .for => "for"
  | .for2 => "for2"
  | .while => "while"
  | .do => "do"

/-- The mnemonic behind the statements of a loop. -/
def Loop.closer : Loop → String
  | .for => "next"
  | .for2 => "next"
  | .while => "ewhile"
  | .do => "edwhile"

/-- The labels within a switch. -/
inductive Label where
  | case
  | default
  deriving DecidableEq, Repr

/-- The mnemonic of a label. -/
def Label.mnemonic : Label → String
  | .case => "case"
  | .default => "default"

mutual

/-- Statements in a row. -/
inductive Body where
  | nil
  | plain (mnemonic : String) (plain : mnemonic ∉ blockWords) (rest : Body)
  | branch (inner rest : Body)
  | branches (inner otherwise rest : Body)
  | loop (loop : Loop) (inner rest : Body)
  | switch (labels : Labels) (rest : Body)

/-- Labels of a switch in a row, each with the statements under it. -/
inductive Labels where
  | nil
  | label (label : Label) (inner : Body) (rest : Labels)

end

mutual

/-- The mnemonics of statements. -/
def Body.mnemonics : Body → List String
  | .nil => []
  | .plain mnemonic _ rest => mnemonic :: rest.mnemonics
  | .branch inner rest => "if" :: (inner.mnemonics ++ "endif" :: rest.mnemonics)
  | .branches inner otherwise rest =>
    "if" :: (inner.mnemonics ++ "else" :: (otherwise.mnemonics ++ "endif" :: rest.mnemonics))
  | .loop loop inner rest => loop.opener :: (inner.mnemonics ++ loop.closer :: rest.mnemonics)
  | .switch labels rest => "switch" :: (labels.mnemonics ++ "eswitch" :: rest.mnemonics)

/-- The mnemonics of labels and of the statements under them. -/
def Labels.mnemonics : Labels → List String
  | .nil => []
  | .label label inner rest => label.mnemonic :: (inner.mnemonics ++ rest.mnemonics)

end

mutual

/-- The depths of the mnemonics of statements that stand at depth `d`. -/
def Body.depths (d : ℕ) : Body → List ℕ
  | .nil => []
  | .plain _ _ rest => d :: rest.depths d
  | .branch inner rest => d :: (inner.depths (d + 1) ++ d :: rest.depths d)
  | .branches inner otherwise rest =>
    d :: (inner.depths (d + 1) ++ d :: (otherwise.depths (d + 1) ++ d :: rest.depths d))
  | .loop _ inner rest => d :: (inner.depths (d + 1) ++ d :: rest.depths d)
  | .switch labels rest => d :: (labels.depths d ++ d :: rest.depths d)

/-- The depths of the labels of a switch at depth `d` and of the statements under them. -/
def Labels.depths (d : ℕ) : Labels → List ℕ
  | .nil => []
  | .label _ inner rest => (d + 1) :: (inner.depths (d + 2) ++ rest.depths d)

end

/-! ## Walking through mnemonics -/

/-- The depths of mnemonics in a row and the nesting after them.  Each comes with whether its
instruction can be part of a condition. -/
def Nesting.walk (n : Nesting) : List (String × Bool) → List ℕ × Nesting
  | [] => ([], n)
  | (mnemonic, isCondition) :: steps =>
    let here := n.before mnemonic
    let (depths, last) := (here.after mnemonic isCondition).walk steps
    (here.depth :: depths, last)

/-- An instruction as a step of the walk. -/
def stepOf (p : UInt8 × List UInt8) : String × Bool :=
  ((Opcode.signature p.1).mnemonic, Opcode.isCondition p.1)

/-- Listing an instruction is a step of the walk. -/
theorem nesting_instruction (options : Options) (s : State) (opcode : UInt8) (block : List UInt8) :
    (s.piece options (.instruction opcode block)).nesting =
      (s.nesting.before (Opcode.signature opcode).mnemonic).after
        (Opcode.signature opcode).mnemonic (Opcode.isCondition opcode) := rfl

/-- Listing instructions walks through their mnemonics. -/
theorem nesting_instructions (options : Options) (s : State) (pieces : List (UInt8 × List UInt8)) :
    ((pieces.map fun p => Piece.instruction p.1 p.2).foldl (State.piece options) s).nesting =
      (s.nesting.walk (pieces.map stepOf)).2 := by
  induction pieces generalizing s with
  | nil => rfl
  | cons p pieces ih =>
    rw [List.map_cons, List.foldl_cons, ih, nesting_instruction]
    simp only [List.map_cons, stepOf, Nesting.walk]

theorem Nesting.walk_append (n : Nesting) (steps steps' : List (String × Bool)) :
    n.walk (steps ++ steps') =
      ((n.walk steps).1 ++ ((n.walk steps).2.walk steps').1, ((n.walk steps).2.walk steps').2) := by
  induction steps generalizing n with
  | nil => rfl
  | cons step steps ih =>
    rw [List.cons_append, walk, walk, ih]
    rfl

/-! ## Open blocks -/

/-- The blocks that are open where a mnemonic stands. -/
def closed (stack : List String) (mnemonic : String) : List String :=
  (Nesting.before ⟨stack, none⟩ mnemonic).opened

/-- The blocks that are open behind a mnemonic. -/
def entered (stack : List String) (mnemonic : String) : List String :=
  (Nesting.after ⟨stack, none⟩ mnemonic false).opened

/-- Closing blocks does not depend on conditions. -/
theorem opened_before (n : Nesting) (mnemonic : String) :
    (n.before mnemonic).opened = closed n.opened mnemonic := by
  simp only [closed, Nesting.before, Nesting.popLabel, Nesting.pop]
  split_ifs <;> rfl

/-- Opening blocks does not depend on conditions. -/
theorem opened_after (n : Nesting) (mnemonic : String) (isCondition : Bool) :
    (n.after mnemonic isCondition).opened = entered n.opened mnemonic := rfl

/-- Where the blocks `stack` are open, instructions with these mnemonics stand at these depths, and
then the blocks `after` are open, whatever their conditions. -/
def Indents (stack : List String) (mnemonics : List String) (depths : List ℕ)
    (after : List String) : Prop :=
  ∀ (n : Nesting) (steps : List (String × Bool)), n.opened = stack →
    steps.map Prod.fst = mnemonics → (n.walk steps).1 = depths ∧ (n.walk steps).2.opened = after

namespace Indents

variable {stack stack' stack'' ms ms' : List String} {ds ds' : List ℕ}

theorem nil : Indents stack [] [] stack := by
  intro n steps opened none
  obtain rfl := List.map_eq_nil_iff.1 none
  exact ⟨rfl, opened⟩

theorem cons {m : String} {here inner : List String} (stands : closed stack m = here)
    (opens : entered here m = inner) (rest : Indents inner ms ds stack') :
    Indents stack (m :: ms) (here.length :: ds) stack' := by
  rintro n steps rfl same
  obtain ⟨⟨m', isCondition⟩, steps, rfl, rfl, later⟩ := List.map_eq_cons_iff.1 same
  have before : (n.before m').opened = here := (opened_before n m').trans stands
  obtain ⟨depths, last⟩ := rest ((n.before m').after m' isCondition) steps
    (by rw [opened_after, before, opens]) later
  refine ⟨?_, last⟩
  rw [Nesting.walk, ← depths, ← before]
  rfl

theorem append (first : Indents stack ms ds stack') (second : Indents stack' ms' ds' stack'') :
    Indents stack (ms ++ ms') (ds ++ ds') stack'' := by
  intro n steps opened same
  obtain ⟨front, back, rfl, frontSame, backSame⟩ := List.map_eq_append_iff.1 same
  obtain ⟨frontDepths, between⟩ := first n front opened frontSame
  obtain ⟨backDepths, last⟩ := second _ back between backSame
  rw [Nesting.walk_append, frontDepths, backDepths]
  exact ⟨rfl, last⟩

/-! ### One lemma for each kind of mnemonic -/

/-- Other mnemonics stand at the depth of the open blocks. -/
theorem plain {m : String} (other : m ∉ blockWords) (rest : Indents stack ms ds stack') :
    Indents stack (m :: ms) (stack.length :: ds) stack' := by
  simp only [blockWords, List.mem_cons, List.not_mem_nil, or_false, not_or] at other
  refine cons ?_ ?_ rest
  · simp [closed, Nesting.before, blockClosers, isLabel, other]
  · simp [entered, Nesting.after, blockOpeners, isLabel, other]

theorem opener {m : String} (opens : m ∈ blockOpeners) (rest : Indents (m :: stack) ms ds stack') :
    Indents stack (m :: ms) (stack.length :: ds) stack' := by
  refine cons ?_ ?_ rest
  · simp only [blockOpeners, List.mem_cons, List.not_mem_nil, or_false] at opens
    rcases opens with rfl | rfl | rfl | rfl | rfl | rfl <;>
      simp [closed, Nesting.before, blockClosers, isLabel]
  · simp [entered, Nesting.after, opens]

theorem closer {m : String} (top : String) (closes : m ∈ blockClosers)
    (rest : Indents stack ms ds stack') :
    Indents (top :: stack) (m :: ms) (stack.length :: ds) stack' := by
  refine cons ?_ ?_ rest
  · simp [closed, Nesting.before, Nesting.pop, closes]
  · simp only [blockClosers, List.mem_cons, List.not_mem_nil, or_false] at closes
    rcases closes with rfl | rfl | rfl | rfl <;>
      simp [entered, Nesting.after, blockOpeners, isLabel]

/-- An `else` closes the block in front of it and opens the one behind it. -/
theorem otherwise (top : String) (rest : Indents ("else" :: stack) ms ds stack') :
    Indents (top :: stack) ("else" :: ms) (stack.length :: ds) stack' := by
  refine cons ?_ ?_ rest
  · simp [closed, Nesting.before, Nesting.pop, blockClosers]
  · simp [entered, Nesting.after]

end Indents

/-- The innermost open block is a switch, or a label right within it. -/
inductive InSwitch (stack : List String) : List String → Prop
  | start : InSwitch stack ("switch" :: stack)
  | label (label : Label) : InSwitch stack (label.mnemonic :: "switch" :: stack)

namespace Indents

variable {stack here stack' ms : List String} {ds : List ℕ}

/-- A label closes the label in front of it. -/
theorem label (label : Label) (within : InSwitch stack here)
    (rest : Indents (label.mnemonic :: "switch" :: stack) ms ds stack') :
    Indents here (label.mnemonic :: ms) ((stack.length + 1) :: ds) stack' := by
  have stands : closed here label.mnemonic = "switch" :: stack := by
    cases within with
    | start =>
      cases label <;> simp [closed, Nesting.before, Nesting.popLabel, Label.mnemonic, blockClosers,
        isLabel]
    | label before =>
      cases label <;> cases before <;> simp [closed, Nesting.before, Nesting.popLabel, Nesting.pop,
        Label.mnemonic, blockClosers, isLabel]
  refine cons stands ?_ rest
  cases label <;> simp [entered, Nesting.after, Label.mnemonic, isLabel]

/-- The end of a switch closes the last label too. -/
theorem eswitch (within : InSwitch stack here) (rest : Indents stack ms ds stack') :
    Indents here ("eswitch" :: ms) (stack.length :: ds) stack' := by
  refine cons ?_ ?_ rest
  · cases within with
    | start => simp [closed, Nesting.before, Nesting.popLabel, Nesting.pop, blockClosers, isLabel]
    | label before =>
      cases before <;> simp [closed, Nesting.before, Nesting.popLabel, Nesting.pop, Label.mnemonic,
        blockClosers, isLabel]
  · simp [entered, Nesting.after, blockOpeners, isLabel]

end Indents

/-! ## Bodies -/

theorem Loop.opener_mem (loop : Loop) : loop.opener ∈ blockOpeners := by
  cases loop <;> simp [opener, blockOpeners]

theorem Loop.closer_mem (loop : Loop) : loop.closer ∈ blockClosers := by
  cases loop <;> simp [closer, blockClosers]

mutual

/-- Statements close what they open. -/
theorem Body.indents (stack : List String) :
    (body : Body) → Indents stack body.mnemonics (body.depths stack.length) stack
  | .nil => .nil
  | .plain _ other rest => .plain other (rest.indents stack)
  | .branch inner rest => by
    have closing := Indents.closer (m := "endif") "if" (by simp [blockClosers])
      (rest.indents stack)
    exact .opener (by simp [blockOpeners]) ((inner.indents ("if" :: stack)).append closing)
  | .branches inner otherwise rest => by
    have closing := Indents.closer (m := "endif") "else" (by simp [blockClosers])
      (rest.indents stack)
    have second := Indents.otherwise "if"
      ((otherwise.indents ("else" :: stack)).append closing)
    exact .opener (by simp [blockOpeners]) ((inner.indents ("if" :: stack)).append second)
  | .loop loop inner rest => by
    have closing := Indents.closer loop.opener loop.closer_mem (rest.indents stack)
    exact .opener loop.opener_mem ((inner.indents (loop.opener :: stack)).append closing)
  | .switch labels rest =>
    .opener (by simp [blockOpeners]) (labels.indents stack .start (rest.indents stack))

/-- Labels go on within their switch up to its end. -/
theorem Labels.indents (stack : List String) {here ms stack' : List String} {ds : List ℕ}
    (within : InSwitch stack here) (rest : Indents stack ms ds stack') : (labels : Labels) →
    Indents here (labels.mnemonics ++ "eswitch" :: ms)
      (labels.depths stack.length ++ stack.length :: ds) stack'
  | .nil => .eswitch within rest
  | .label label inner later => by
    have body := inner.indents (label.mnemonic :: "switch" :: stack)
    have more := later.indents stack (.label label) rest
    rw [Labels.mnemonics, Labels.depths, List.cons_append, List.cons_append, List.append_assoc,
      List.append_assoc]
    exact .label label within (body.append more)

end

/-- Listing the instructions of a body leaves the open blocks as they were. -/
theorem opened_instructions (options : Options) (s : State) {pieces : List (UInt8 × List UInt8)}
    {body : Body} (reads : (pieces.map stepOf).map Prod.fst = body.mnemonics) :
    ((pieces.map fun p => Piece.instruction p.1 p.2).foldl (State.piece options) s).nesting.opened =
      s.nesting.opened := by
  rw [nesting_instructions]
  exact (body.indents s.nesting.opened s.nesting _ rfl reads).2

/-- **Indentation follows nesting.**  Whatever blocks are open and whatever conditions go on, the
mnemonics of a body stand at its depths, and afterwards the same blocks are open. -/
theorem Nesting.walk_mnemonics (n : Nesting) (body : Body) (steps : List (String × Bool))
    (reads : steps.map Prod.fst = body.mnemonics) :
    (n.walk steps).1 = body.depths n.depth ∧ (n.walk steps).2.opened = n.opened :=
  body.indents n.opened n steps rfl reads

/-- A switch under a label of a switch in a loop, in front of a branch with an `else`. -/
def nestedSwitches : Body :=
  .loop .for
    (.switch
      (.label .case
        (.switch (.label .default (.plain "nop" (by decide) .nil) .nil) .nil)
        (.label .default .nil .nil))
      .nil)
    (.branches (.plain "nop" (by decide) .nil) .nil .nil)

/-- The mnemonics of the blocks above, each with whether it can be a condition. -/
def nestedSteps : List (String × Bool) :=
  [("for", false), ("switch", false), ("case", false), ("switch", true), ("default", false),
    ("nop", true), ("eswitch", false), ("default", false), ("eswitch", true), ("next", false),
    ("if", false), ("nop", true), ("else", false), ("endif", false)]

/-- They begin under a label, in the midst of a condition. -/
theorem Nesting.walk_mnemonics_switches :
    nestedSteps.map Prod.fst = nestedSwitches.mnemonics ∧
      (Nesting.walk ⟨["case", "switch"], some 1⟩ nestedSteps).1 =
        [2, 3, 4, 5, 6, 7, 5, 4, 3, 2, 2, 3, 2, 2] ∧
      (Nesting.walk ⟨["case", "switch"], some 1⟩ nestedSteps).2.opened = ["case", "switch"] := by
  have reads : nestedSteps.map Prod.fst = nestedSwitches.mnemonics := by decide
  obtain ⟨depths, opened⟩ :=
    Nesting.walk_mnemonics ⟨["case", "switch"], some 1⟩ nestedSwitches nestedSteps reads
  exact ⟨reads, depths.trans (by decide), opened⟩

end RoomScript.Listing
