import RoomScript.Macro.Call

/-!
# Expanding captured tokens

A token list that has been captured is expanded from left to right.  The tokens that replace a call
are expanded in their turn, with the macro added to the active ones.

The recursion ends because each call makes one more macro of the table active, and within one list
each step consumes a token.
-/

namespace RoomScript.Macro

/-- Expand the tokens ahead of a reader, putting the result after `out`.  The diagnostics are those
of the reader and all that were found on the way. -/
def expandOnto (table : Table) (condition : Bool) (active : List String) (r : Reader)
    (out : Array Token) : Array Token × List Diagnostic :=
  let seen := r.peek
  if _atEnd : seen.1.kind = .eof then (out, seen.2.diagnostics)
  else
    match _found : r.replace table condition active with
    | (.keep, _) => expandOnto table condition active seen.2.read.2 (out.push seen.1)
    | (.tokens ts, after) => expandOnto table condition active after (out ++ ts)
    | (.rescan m ts, after) =>
      let inner :=
        expandOnto table condition (m.name :: active) (.ofTokens ts after.diagnostics) #[]
      expandOnto table condition active { after with diagnostics := inner.2 } (out ++ inner.1)
termination_by (table.inactive active, r.size)
decreasing_by
  · apply Prod.Lex.right
    simpa [seen] using r.read_size_lt _atEnd
  · exact Prod.Lex.right _ (Reader.replace_size_lt _found (by simp))
  · obtain ⟨known, idle⟩ := Reader.known_of_replace_rescan _found
    exact Prod.Lex.left _ _ (Table.inactive_cons_lt known idle)
  · have smaller := Reader.replace_size_lt _found (by simp)
    exact Prod.Lex.right _ smaller

/-- Expand a captured token list, adding to the diagnostics found so far. -/
def expand (table : Table) (condition : Bool) (active : List String) (tokens : List Token)
    (diagnostics : List Diagnostic) : List Token × List Diagnostic :=
  let (out, ds) := expandOnto table condition active (.ofTokens tokens diagnostics) #[]
  (out.toList, ds)

end RoomScript.Macro
