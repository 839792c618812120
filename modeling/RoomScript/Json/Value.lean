import RoomScript.Json.Number
import RoomScript.Json.Text

/-!
# Passing over JSON values

A value that nobody asks for is passed over.  Containers are followed to their ends, so they have to
be well-formed, and they must not be nested too deeply.

* `Json.value` passes over a value and gives its bytes.
-/

namespace RoomScript.Json

/-- A container that is open. -/
inductive Container where
  | array
  | object
  deriving DecidableEq, Repr

/-- What may come next. -/
inductive Expecting where
  | value
  | itemOrClose
  | nameOrClose
  | name
  | colon
  /-- A value is complete. -/
  | next
  deriving DecidableEq, Repr

/-- How deep containers may stand in one another. -/
def maxDepth : Nat := 10000

/-- What follows a value that is no container and starts with `b`. -/
def passScalar? (b : UInt8) (rest : List UInt8) : Option (List UInt8) :=
  if b = '"'.toUInt8 then (readText true [] rest).map (·.2)
  else if b = 'n'.toUInt8 then dropWord? "ull" rest
  else if b = 't'.toUInt8 then dropWord? "rue" rest
  else if b = 'f'.toUInt8 then dropWord? "alse" rest
  else if b = '-'.toUInt8 ∨ isDigit b then passNumber? b rest
  else none

theorem length_passScalar? {b : UInt8} {rest after : List UInt8}
    (h : passScalar? b rest = some after) : after.length ≤ rest.length := by
  unfold passScalar? at h
  split at h
  · simp only [Option.map_eq_some_iff] at h
    obtain ⟨found, read, rfl⟩ := h
    exact Nat.le_of_lt (length_readText read)
  · split at h
    · exact length_dropWord? h
    · split at h
      · exact length_dropWord? h
      · split at h
        · exact length_dropWord? h
        · split at h
          · exact length_passNumber? h
          · simp at h

/-- The open containers, innermost first, what may come next, and the bytes that follow. -/
structure Passing where
  stack : List Container
  expecting : Expecting
  rest : List UInt8

/-- Begin a value with the byte `b`, within `depth` other containers. -/
def beginValue (depth : Nat) (stack : List Container) (b : UInt8) (rest : List UInt8) :
    Option Passing :=
  if b = '['.toUInt8 ∨ b = '{'.toUInt8 then
    if depth + stack.length ≥ maxDepth then none
    else if b = '['.toUInt8 then some ⟨.array :: stack, .itemOrClose, rest⟩
    else some ⟨.object :: stack, .nameOrClose, rest⟩
  else (passScalar? b rest).map (⟨stack, .next, ·⟩)

/-- Begin the name of a field with the byte `b`.  Any but the first name may be `null`. -/
def beginName (stack : List Container) (first : Bool) (b : UInt8) (rest : List UInt8) :
    Option Passing :=
  if b = '"'.toUInt8 ∨ (b = 'n'.toUInt8 ∧ !first) then
    (passScalar? b rest).map (⟨stack, .colon, ·⟩)
  else none

/-- Go on behind a complete value with the byte `b`. -/
def endValue (stack : List Container) (b : UInt8) (rest : List UInt8) : Option Passing :=
  match stack with
  | [] => none
  | .array :: outer =>
    if b = ','.toUInt8 then some ⟨.array :: outer, .value, rest⟩
    else if b = ']'.toUInt8 then some ⟨outer, .next, rest⟩
    else none
  | .object :: outer =>
    if b = ','.toUInt8 then some ⟨.object :: outer, .name, rest⟩
    else if b = '}'.toUInt8 then some ⟨outer, .next, rest⟩
    else none

/-- Pass over what starts with the byte `b`. -/
def step (depth : Nat) (stack : List Container) (expecting : Expecting) (b : UInt8)
    (rest : List UInt8) : Option Passing :=
  match expecting with
  | .value => beginValue depth stack b rest
  | .itemOrClose =>
    if b = ']'.toUInt8 then some ⟨stack.tail, .next, rest⟩ else beginValue depth stack b rest
  | .nameOrClose =>
    if b = '}'.toUInt8 then some ⟨stack.tail, .next, rest⟩ else beginName stack true b rest
  | .name => beginName stack false b rest
  | .colon => if b = ':'.toUInt8 then some ⟨stack, .value, rest⟩ else none
  | .next => endValue stack b rest

theorem length_beginValue {depth : Nat} {stack : List Container} {b : UInt8} {rest : List UInt8}
    {p : Passing} (h : beginValue depth stack b rest = some p) : p.rest.length ≤ rest.length := by
  unfold beginValue at h
  split at h
  · split at h
    · simp at h
    · split at h
      · simp only [Option.some.injEq] at h
        simp [← h]
      · simp only [Option.some.injEq] at h
        simp [← h]
  · simp only [Option.map_eq_some_iff] at h
    obtain ⟨after, passed, rfl⟩ := h
    exact length_passScalar? passed

theorem length_beginName {stack : List Container} {first : Bool} {b : UInt8} {rest : List UInt8}
    {p : Passing} (h : beginName stack first b rest = some p) : p.rest.length ≤ rest.length := by
  unfold beginName at h
  split at h
  · simp only [Option.map_eq_some_iff] at h
    obtain ⟨after, passed, rfl⟩ := h
    exact length_passScalar? passed
  · simp at h

theorem length_endValue {stack : List Container} {b : UInt8} {rest : List UInt8} {p : Passing}
    (h : endValue stack b rest = some p) : p.rest.length ≤ rest.length := by
  unfold endValue at h
  split at h
  · simp at h
  all_goals
    split at h
    · simp only [Option.some.injEq] at h
      simp [← h]
    · simp only [Option.ite_none_right_eq_some, Option.some.injEq] at h
      simp [← h.2]

theorem length_step {depth : Nat} {stack : List Container} {expecting : Expecting} {b : UInt8}
    {rest : List UInt8} {p : Passing} (h : step depth stack expecting b rest = some p) :
    p.rest.length ≤ rest.length := by
  unfold step at h
  split at h
  · exact length_beginValue h
  · split at h
    · simp only [Option.some.injEq] at h
      simp [← h]
    · exact length_beginValue h
  · split at h
    · simp only [Option.some.injEq] at h
      simp [← h]
    · exact length_beginName h
  · exact length_beginName h
  · simp only [Option.ite_none_right_eq_some, Option.some.injEq] at h
    simp [← h.2]
  · exact length_endValue h

/-- Pass over everything up to the end of the outermost value. -/
def passFrom (depth : Nat) (stack : List Container) (expecting : Expecting) (bytes : List UInt8) :
    Option (List UInt8) :=
  if stack = [] ∧ expecting = .next then some bytes
  else
    match bytes with
    | [] => none
    | b :: rest =>
      if isSpace b then passFrom depth stack expecting rest
      else
        match _step : step depth stack expecting b rest with
        | none => none
        | some p => passFrom depth p.stack p.expecting p.rest
termination_by bytes.length
decreasing_by
  · simp
  · have := length_step _step
    simp only [List.length_cons]
    omega

theorem length_passFrom {depth : Nat} {stack : List Container} {expecting : Expecting}
    {bytes rest : List UInt8} (h : passFrom depth stack expecting bytes = some rest) :
    rest.length ≤ bytes.length := by
  fun_induction passFrom depth stack expecting bytes with
  | case1 =>
    simp only [Option.some.injEq] at h
    simp [h]
  | case2 => simp at h
  | case3 stack expecting _ b after _ ih =>
    have := ih h
    simp only [List.length_cons]
    omega
  | case4 => simp at h
  | case5 stack expecting _ b after _ p stepped ih =>
    have := length_step stepped
    have := ih h
    simp only [List.length_cons]
    omega

/-- What follows a value that starts with the byte `b` and stands within `depth` containers. -/
def passed? (depth : Nat) (b : UInt8) (rest : List UInt8) : Option (List UInt8) :=
  (beginValue depth [] b rest).bind fun p => passFrom depth p.stack p.expecting p.rest

theorem length_passed? {depth : Nat} {b : UInt8} {rest after : List UInt8}
    (h : passed? depth b rest = some after) : after.length ≤ rest.length := by
  obtain ⟨p, begun, passed⟩ := Option.bind_eq_some_iff.1 h
  exact Nat.le_trans (length_passFrom passed) (length_beginValue begun)

/-- Pass over a value that stands within `depth` containers. -/
def pass (depth : Nat) : Reader Unit := fun bytes =>
  match token bytes with
  | none => none
  | some b =>
    match _passed : passed? depth b.value b.rest with
    | none => none
    | some rest => some ⟨(), rest, Nat.lt_of_le_of_lt (length_passed? _passed) b.shorter⟩

/-- The bytes of a value that stands within `depth` containers. -/
def value (depth : Nat) : Reader (List UInt8) := fun bytes =>
  let start := bytes.dropWhile isSpace
  (pass depth bytes).map fun x => ⟨start.take (start.length - x.rest.length), x.rest, x.shorter⟩

end RoomScript.Json
