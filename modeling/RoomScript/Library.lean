import RoomScript.Diagnostic

/-!
# Libraries of source files

A library is where sources are read from: it gives the bytes of a path, and it says which path an
`#include` means.  Only finitely many paths of a library can be read, which is what bounds the depth
of includes.
-/

namespace RoomScript

/-- The path an `#include` means, with a remark on how it was found. -/
structure Resolution where
  path : String
  remark : Option String := none
  deriving DecidableEq, Repr

/-- Where source files are read from. -/
structure Library where
  /-- The content of a file, or why it cannot be read. -/
  read : String → Except String ByteArray
  /-- The path that a quoted path means in the file `current`. -/
  resolve : (current quoted : String) → Resolution
  finite : ∃ names : List String, ∀ path data, read path = .ok data → path ∈ names

namespace Library

/-- A list of all readable paths. -/
noncomputable def readable (lib : Library) : List String :=
  lib.finite.choose

theorem mem_readable {lib : Library} {path : String} {data : ByteArray}
    (h : lib.read path = .ok data) : path ∈ lib.readable :=
  lib.finite.choose_spec path data h

/-- The number of readable paths that are not on a chain of open files. -/
noncomputable def unopened (lib : Library) (chain : List String) : Nat :=
  lib.readable.countP (· ∉ chain)

/-- Opening a readable file that is not open leaves fewer unopened ones. -/
theorem unopened_cons_lt {lib : Library} {chain : List String} {path : String} {data : ByteArray}
    (readable : lib.read path = .ok data) (closed : path ∉ chain) :
    lib.unopened (path :: chain) < lib.unopened chain := by
  have known := mem_readable readable
  unfold unopened
  generalize lib.readable = names at known
  induction names with
  | nil => simp at known
  | cons x rest ih =>
    have step : List.countP (fun e => decide (e ∉ path :: chain)) rest ≤
        List.countP (fun e => decide (e ∉ chain)) rest := by
      apply List.countP_mono_left
      intro e _ h
      simp only [List.mem_cons, not_or, decide_eq_true_eq] at h ⊢
      exact h.2
    by_cases same : x = path
    · subst same
      simp only [List.mem_cons, not_or, decide_not] at step
      simpa [closed, Nat.lt_succ_iff] using step
    · have inRest : path ∈ rest := by
        rcases List.mem_cons.1 known with h | h
        · exact absurd h.symm same
        · exact h
      have := ih inRest
      by_cases hx : x ∈ chain <;> simp_all

/-- Look up what an `#include` in the innermost file of a chain of open files brings in: the path
and its content.  A file that is open already is refused. -/
def fetch (lib : Library) (chain : List String) (quoted : String) :
    Resolution × Except Cause ByteArray :=
  let found := lib.resolve (chain.headD "") quoted
  if found.path ∈ chain then (found, .error (.recursiveInclude quoted))
  else
    match lib.read found.path with
    | .error reason => (found, .error (.includeNotFound quoted reason))
    | .ok data => (found, .ok data)

theorem fetch_unopened_lt {lib : Library} {chain : List String} {quoted : String}
    {found : Resolution} {data : ByteArray} (h : lib.fetch chain quoted = (found, .ok data)) :
    lib.unopened (found.path :: chain) < lib.unopened chain := by
  unfold fetch at h
  simp only at h
  split at h
  · simp at h
  · rename_i closed
    split at h
    · simp at h
    · rename_i readable
      simp only [Prod.mk.injEq] at h
      obtain ⟨rfl, -⟩ := h
      exact unopened_cons_lt readable closed

end Library

end RoomScript
