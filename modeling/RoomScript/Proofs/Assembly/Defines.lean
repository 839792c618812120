import RoomScript.Assembly
import RoomScript.Proofs.Preprocess.Inclusion
import RoomScript.Proofs.Preprocess.Tables
import RoomScript.Proofs.Token.Lexemes

/-!
# Definitions from outside the source

Macros that are defined before a file is expanded come from a map, which has no order.  They can be
installed in any order: the bodies are scanned one by one and each adds what is wrong with it to the
diagnostics, and after that only the answers of the table matter.

* `Preprocessor.foldl_define` says what installing definitions leaves: their macros, and the
  diagnostics of their bodies, `bodyFaults`, in the order of the definitions;
* `Preprocessor.expand_alike` expands a file with two tables that answer alike, after whatever
  diagnostics;
* `Assembly.assembleFile_of_perm` and `Assembly.result_of_perm` assemble a file with the same
  definitions in two orders.
-/

namespace RoomScript

/-! ## Installing definitions -/

/-- The macro of a definition from outside: a name and the text of a body. -/
def Macro.ofDefinition (d : String × String) : Macro :=
  { name := d.1, body := Token.trimBlanks (Scanner.scan "<define>" d.2).1.dropLast }

/-- What is wrong with the bodies of definitions from outside. -/
def bodyFaults (defines : List (String × String)) : List Diagnostic :=
  defines.flatMap fun d => (Scanner.scan "<define>" d.2).2

theorem path_of_mem_faultsFrom {path : String} {p : Position} {ls : List Lexeme} {d : Diagnostic}
    (mem : d ∈ faultsFrom path p ls) : d.path = path := by
  induction ls generalizing p with
  | nil => cases mem
  | cons l ls ih =>
    rcases List.mem_append.1 mem with own | later
    · obtain ⟨cause, -, rfl⟩ := Option.map_eq_some_iff.1 (Option.mem_toList.1 own)
      rfl
    · exact ih later

/-- The bodies are scanned under a path of their own. -/
theorem path_of_mem_bodyFaults {defines : List (String × String)} {d : Diagnostic}
    (mem : d ∈ bodyFaults defines) : d.path = "<define>" := by
  obtain ⟨define, -, found⟩ := List.mem_flatMap.1 mem
  rw [Scanner.scan_eq] at found
  exact path_of_mem_faultsFrom found

theorem bodyFaults_perm {defines defines' : List (String × String)}
    (reordered : defines.Perm defines') : (bodyFaults defines).Perm (bodyFaults defines') :=
  reordered.flatMap_right _

namespace Preprocessor

theorem foldl_define (defines : List (String × String)) (p : Preprocessor) :
    defines.foldl (fun (p : Preprocessor) d => p.define d.1 d.2) p =
      { p with macros := (defines.map Macro.ofDefinition).reverse ++ p.macros,
               diagnostics := p.diagnostics ++ bodyFaults defines } := by
  induction defines generalizing p with
  | nil => simp [bodyFaults]
  | cons d defines ih =>
    rw [List.foldl_cons, ih]
    simp [define, Macro.ofDefinition, Macro.Table.define, bodyFaults]

/-! ## Expanding -/

/-- Diagnostics that are there at the start of a file may be put in front afterwards. -/
theorem start_eq (p : Preprocessor) (path : String) (data : ByteArray) :
    p.start path data = Work.earlier p.diagnostics
      (start { p with diagnostics := [] } path data) := by
  simp [start, Work.earlier, Work.withReader, Reader.earlier, Reader.ofText]

/-- **A file is expanded to the same tokens with tables that answer alike**, whatever diagnostics
were there before, and to these the same ones are added. -/
theorem expand_alike {p q : Preprocessor} (alike : p.macros.Alike q.macros)
    (remarks : p.remarks = q.remarks) (lib : Library) (path : String) :
    ∃ tokens found remarks macros macros',
      p.expand lib path = (tokens, ⟨macros, p.diagnostics ++ found, remarks⟩) ∧
        q.expand lib path = (tokens, ⟨macros', q.diagnostics ++ found, remarks⟩) := by
  cases read : lib.read path with
  | error reason =>
    let last : Token := ⟨.eof, "", path, 1, 1⟩
    let lost : Diagnostic := ⟨path, 0, 0, .includeNotFound path reason⟩
    have failed : ∀ p : Preprocessor, p.expand lib path = ([last], p.report lost) := by
      intro p
      have started : p.stream lib path =
          ({ path, reader := .ofTokens [], last, done := true }, p.report lost) := by
        simp only [stream, read, last, lost]
      have filled := Stream.fill_of_ready
        (s := { path, reader := .ofTokens [], last, done := true }) (.inr rfl) lib (p.report lost)
      rw [expand, started]
      simp only [Stream.collect]
      rw [Stream.collectOnto_of_empty (by rw [filled]), filled]
      rfl
    refine ⟨[last], [lost], p.remarks, p.macros, q.macros, failed p, ?_⟩
    rw [failed q, remarks]
    rfl
  | ok data =>
    obtain ⟨ts, eof, w, ran, expanded⟩ := p.expand_eq_run read
    obtain ⟨ts', eof', v, ran', expanded'⟩ := q.expand_eq_run read
    -- Without the diagnostics that were there before, both are runs of works that are alike.
    have begun : (start { p with diagnostics := [] } path data).Alike
        (start { q with diagnostics := [] } path data) := ⟨alike, rfl, rfl, remarks⟩
    rcases plain : Work.run lib [path] true (start { p with diagnostics := [] } path data) #[] with
      ⟨tokens, last, w₀⟩
    obtain ⟨v₀, same, alike'⟩ := Work.run_alike lib [path] true begun #[]
    rw [plain] at same alike'
    rw [start_eq, Work.run_earlier, plain] at ran
    rw [start_eq, Work.run_earlier, same] at ran'
    cases ran
    cases ran'
    refine ⟨_, w₀.reader.diagnostics, w₀.remarks, _, v₀.macros, expanded, ?_⟩
    rw [expanded', show w₀.reader = _ from alike'.reader, show w₀.remarks = _ from alike'.remarks]
    rfl

end Preprocessor

/-! ## Assembling -/

namespace Assembly

variable {defines defines' : List (String × String)}

/-- The table of definitions with different names does not depend on their order. -/
theorem table_alike (distinct : (defines.map Prod.fst).Nodup) (reordered : defines.Perm defines') :
    Macro.Table.Alike ((defines.map Macro.ofDefinition).reverse ++ [])
      ((defines'.map Macro.ofDefinition).reverse ++ []) := by
  have names : (defines.map Macro.ofDefinition).map Macro.name = defines.map Prod.fst := by
    rw [List.map_map]
    rfl
  simp only [List.append_nil]
  refine Macro.Table.alike_of_perm ?_ ?_
  · rw [List.map_reverse, List.nodup_reverse, names]
    exact distinct
  · exact (List.reverse_perm _).trans ((reordered.map _).trans (List.reverse_perm _).symm)

/-- **A file assembled with the same definitions in another order** gives the same script and the
same remarks.  Its diagnostics are those of the bodies, in the order of the definitions, and behind
them always the same ones. -/
theorem assembleFile_of_perm (lib : Library) (path : String)
    (distinct : (defines.map Prod.fst).Nodup) (reordered : defines.Perm defines') :
    ∃ script rest remarks,
      assembleFile lib path defines = ⟨script, bodyFaults defines ++ rest, remarks⟩ ∧
        assembleFile lib path defines' = ⟨script, bodyFaults defines' ++ rest, remarks⟩ := by
  obtain ⟨tokens, found, remarks, macros, macros', expanded, expanded'⟩ :=
    Preprocessor.expand_alike
      (p := { macros := (defines.map Macro.ofDefinition).reverse ++ [],
              diagnostics := [] ++ bodyFaults defines })
      (q := { macros := (defines'.map Macro.ofDefinition).reverse ++ [],
              diagnostics := [] ++ bodyFaults defines' })
      (table_alike distinct reordered) rfl lib path
  refine ⟨(assemble tokens).script, found ++ (assemble tokens).diagnostics,
    (assemble tokens [] remarks).remarks, ?_, ?_⟩
  · simp only [assembleFile, Preprocessor.foldl_define, expanded]
    simp [assemble]
  · simp only [assembleFile, Preprocessor.foldl_define, expanded']
    simp [assemble]

/-- **The order in which definitions are installed** decides nothing but the order of what is wrong
with their bodies.  Either both runs give the same script, or both fail: with diagnostics that are
the same up to their order, of which those of the bodies come first, and those that are not in a
body stand in the same order. -/
theorem result_of_perm (lib : Library) (path : String)
    (distinct : (defines.map Prod.fst).Nodup) (reordered : defines.Perm defines') :
    (∃ script, (assembleFile lib path defines).result = .ok script ∧
        (assembleFile lib path defines').result = .ok script) ∨
      ∃ es es' rest,
        (assembleFile lib path defines).result = .error es ∧
        (assembleFile lib path defines').result = .error es' ∧
        es.Perm es' ∧
        es = bodyFaults defines ++ rest ∧ es' = bodyFaults defines' ++ rest ∧
        es.filter (·.path ≠ "<define>") = es'.filter (·.path ≠ "<define>") := by
  obtain ⟨script, rest, remarks, made, made'⟩ := assembleFile_of_perm lib path distinct reordered
  have outside : ∀ defines, (bodyFaults defines).filter (·.path ≠ "<define>") = [] := by
    intro defines
    refine List.filter_eq_nil_iff.2 fun d mem => ?_
    simp [path_of_mem_bodyFaults mem]
  have permuted : (bodyFaults defines ++ rest).Perm (bodyFaults defines' ++ rest) :=
    (bodyFaults_perm reordered).append_right rest
  rw [made, made']
  by_cases silent : bodyFaults defines ++ rest = []
  · have silent' : bodyFaults defines' ++ rest = [] := by
      rw [silent] at permuted
      exact permuted.nil_eq.symm
    exact .inl ⟨script, by simp [Outcome.result, silent], by simp [Outcome.result, silent']⟩
  · have loud : bodyFaults defines' ++ rest ≠ [] := fun none => by
      rw [none] at permuted
      exact silent permuted.eq_nil
    refine .inr ⟨_, _, rest, by simp [Outcome.result, silent], by simp [Outcome.result, loud],
      permuted, rfl, rfl, ?_⟩
    rw [List.filter_append, List.filter_append, outside, outside]

/-- Two definitions whose bodies are left open. -/
def openDefines : List (String × String) :=
  [("DOOR", "\"oak"), ("LOCK", "1 /* rusty")]

/-- A disk with one source file. -/
def hallDisk : Disk :=
  { files := [("hall.s", "nop\n".toUTF8)] }

/-- What is wrong with the two bodies is reported in the order of the definitions. -/
theorem result_of_perm_open :
    (openDefines.map Prod.fst).Nodup ∧ openDefines.Perm openDefines.reverse ∧
      ∃ rest,
        (assembleFile hallDisk.library "hall.s" openDefines).result =
          .error (⟨"<define>", 1, 1, .unterminatedString⟩ ::
            ⟨"<define>", 1, 3, .unterminatedComment⟩ :: rest) ∧
        (assembleFile hallDisk.library "hall.s" openDefines.reverse).result =
          .error (⟨"<define>", 1, 3, .unterminatedComment⟩ ::
            ⟨"<define>", 1, 1, .unterminatedString⟩ :: rest) := by
  have distinct : (openDefines.map Prod.fst).Nodup := by decide
  have reordered : openDefines.Perm openDefines.reverse := (List.reverse_perm _).symm
  have faults : bodyFaults openDefines = [⟨"<define>", 1, 1, .unterminatedString⟩,
      ⟨"<define>", 1, 3, .unterminatedComment⟩] := by decide +kernel
  have faults' : bodyFaults openDefines.reverse = [⟨"<define>", 1, 3, .unterminatedComment⟩,
      ⟨"<define>", 1, 1, .unterminatedString⟩] := by decide +kernel
  refine ⟨distinct, reordered, ?_⟩
  rcases result_of_perm hallDisk.library "hall.s" distinct reordered with
    ⟨script, made, -⟩ | ⟨es, es', rest, failed, failed', -, rfl, rfl, -⟩
  · obtain ⟨_, rest, _, whole, -⟩ :=
      assembleFile_of_perm hallDisk.library "hall.s" distinct reordered
    rw [whole, faults] at made
    cases made
  · rw [faults] at failed
    rw [faults'] at failed'
    exact ⟨rest, failed, failed'⟩

end Assembly

end RoomScript
