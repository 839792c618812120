import RoomScript.Proofs.Assembly.Sections
import RoomScript.Proofs.Build.Keeping

/-!
# A section that cannot be joined

The sections of a source are joined and written one after another.  When one of them cannot be
joined, those before it have been written already.

* `Wrote` are the sections that have been written, and `wrote_of_joining` says that these are all
  before the one that fails;
* `Wrote.follow` and `Wrote.node?` say what is there after sections have been written, and
  `Wrote.node?_eq_iff` that nothing has changed exactly when their files were there before;
* `run_of_joining` is what is left of a run that fails so;
* `run_late` is a run that fails at its second section and leaves a file for the first.
-/

namespace RoomScript

/-! ## Trees that are the same at every place -/

namespace FileTree

variable {t t' : FileTree}

theorem followFrom_congr (same : ∀ place, t'.node? place = t.node? place) (place : List String)
    (node : FileNode) (segments : List String) :
    t'.followFrom place node segments = t.followFrom place node segments := by
  induction segments generalizing place node with
  | nil => rfl
  | cons s rest ih =>
    cases node with
    | file data => rfl
    | directory => simp only [followFrom, ih, same]

/-- What is read depends on what stands at the places alone. -/
theorem read_congr (same : ∀ place, t'.node? place = t.node? place)
    (workingDir : t'.workingDir = t.workingDir) (path : String) : t'.read path = t.read path := by
  simp only [read, stat, follow, followFrom_congr same, workingDir]

theorem exists_follow_of_read {path : String} {data : ByteArray} (ok : t.read path = .ok data) :
    ∃ place, t.follow path = .ok (.found place (.file data)) := by
  unfold read stat at ok
  split at ok <;> cases ok
  rename_i found
  split at found <;> cases found
  exact ⟨_, by assumption⟩

/-- Writing what a file holds already changes nothing. -/
theorem node?_of_write_same {path : String} {data : ByteArray} (held : t.read path = .ok data)
    (ok : t.write path data = .ok t') (place : List String) : t'.node? place = t.node? place := by
  obtain ⟨p, found⟩ := exists_follow_of_read held
  obtain ⟨extends', q, found', others⟩ := write_eq_ok ok
  obtain ⟨data', -, again⟩ := extends'.follow found
  rw [found'] at again
  cases again
  by_cases same : place = p
  · rw [same, node?_of_follow found, node?_of_follow found']
  · exact others place same

end FileTree

namespace Build

variable {o : Options} {source : String}

/-! ## Sections that have been written -/

/-- Sections have been joined and written, one after another. -/
inductive Wrote (o : Options) (source : String) :
    List (Kind × List (List UInt8)) → Session → Session → Prop
  | nil (s : Session) : Wrote o source [] s s
  | cons {kind : Kind} {bodies : List (List UInt8)} {chunk : List UInt8}
      {rest : List (Kind × List (List UInt8))} {s s₁ s' : Session}
      (joined : Chunk.join bodies = .ok chunk)
      (written : s.writeFile (o.sectionPath source kind) chunk.toByteArray = .ok s₁)
      (later : Wrote o source rest s₁ s') : Wrote o source ((kind, bodies) :: rest) s s'

/-- When a section cannot be joined, all sections before it have been written. -/
theorem wrote_of_joining {file : String} {kind : Kind} {e : Chunk.Error}
    {parts : List (Kind × List (List UInt8))} {files : List String} {s s' : Session}
    (failed : writeSections o source files s parts = (.error (.joining file kind e), s')) :
    file = source ∧ ∃ before bodies after, parts = before ++ (kind, bodies) :: after ∧
      Chunk.join bodies = .error e ∧ Wrote o source before s s' := by
  induction parts generalizing files s with
  | nil => cases failed
  | cons part parts ih =>
    obtain ⟨k, bodies⟩ := part
    rw [writeSections] at failed
    cases joined : Chunk.join bodies with
    | error e' =>
      rw [joined] at failed
      cases failed
      exact ⟨rfl, [], bodies, parts, rfl, joined, .nil _⟩
    | ok chunk =>
      rw [joined] at failed
      dsimp only at failed
      cases written : s.writeFile (o.sectionPath source k) chunk.toByteArray with
      | error e' =>
        rw [written] at failed
        cases failed
      | ok s₁ =>
        rw [written] at failed
        obtain ⟨own, before, bodies', after, split, broken, wrote⟩ := ih failed
        exact ⟨own, (k, bodies) :: before, bodies', after, by rw [split]; rfl, broken,
          .cons joined written wrote⟩

namespace Wrote

variable {parts : List (Kind × List (List UInt8))} {s s' : Session}

theorem extends_tree (wrote : Wrote o source parts s s') : FileTree.Extends s.tree s'.tree := by
  induction wrote with
  | nil s => exact .refl _
  | cons joined written later ih =>
    exact (FileTree.write_eq_ok (writeFile_eq_ok written).1).1.trans ih

/-- The file of a section is not written to for other sections. -/
theorem follow_of_notMem (wrote : Wrote o source parts s s')
    (named : ∀ part ∈ parts, part.1 ∈ Kind.named) {kind : Kind} (own : kind ∈ Kind.named)
    (other : kind ∉ parts.map Prod.fst) {place : List String} {data : ByteArray}
    (found : s.tree.follow (o.sectionPath source kind) = .ok (.found place (.file data))) :
    s'.tree.follow (o.sectionPath source kind) = .ok (.found place (.file data)) := by
  induction wrote with
  | nil s => exact found
  | @cons k bodies chunk rest s s₁ s' joined written later ih =>
    obtain ⟨first, others⟩ := List.forall_mem_cons.1 named
    rw [List.map_cons, List.mem_cons, not_or] at other
    refine ih others other.2 ?_
    rcases FileTree.follow_of_write (writeFile_eq_ok written).1 place data with kept | ⟨there, moved⟩
    · exact kept _ found
    · -- Both paths would lead to one file.
      have same : s₁.tree.SameFile (o.sectionPath source kind) (o.sectionPath source k) :=
        ⟨place, _, moved _ found, there⟩
      exact absurd (Options.eq_of_sameFile own first same) other.1

/-- Every section that has been written stands in its file. -/
theorem follow (wrote : Wrote o source parts s s') (named : ∀ part ∈ parts, part.1 ∈ Kind.named)
    (distinct : (parts.map Prod.fst).Nodup) : ∀ part ∈ parts, ∃ chunk place,
      Chunk.join part.2 = .ok chunk ∧ s'.tree.follow (o.sectionPath source part.1) =
        .ok (.found place (.file chunk.toByteArray)) := by
  induction wrote with
  | nil s => simp
  | @cons k bodies chunk rest s s₁ s' joined written later ih =>
    obtain ⟨first, others⟩ := List.forall_mem_cons.1 named
    obtain ⟨fresh, distinct⟩ := List.nodup_cons.1 distinct
    refine List.forall_mem_cons.2 ⟨?_, ih others distinct⟩
    obtain ⟨-, place, there, -⟩ := FileTree.write_eq_ok (writeFile_eq_ok written).1
    exact ⟨chunk, place, joined, later.follow_of_notMem others first fresh there⟩

/-- At all other places there is what was there before. -/
theorem node? (wrote : Wrote o source parts s s') {place : List String}
    (changed : s'.tree.node? place ≠ s.tree.node? place) : ∃ part ∈ parts, ∃ data,
      s'.tree.follow (o.sectionPath source part.1) = .ok (.found place (.file data)) := by
  induction wrote with
  | nil s => exact absurd rfl changed
  | @cons k bodies chunk rest s s₁ s' joined written later ih =>
    by_cases early : s'.tree.node? place = s₁.tree.node? place
    · obtain ⟨-, p, there, others⟩ := FileTree.write_eq_ok (writeFile_eq_ok written).1
      obtain ⟨data, -, leads⟩ := later.extends_tree.follow there
      have same : place = p := by
        by_contra apart
        exact changed (early.trans (others place apart))
      exact ⟨(k, bodies), List.mem_cons_self, data, same ▸ leads⟩
    · obtain ⟨part, mem, found⟩ := ih early
      exact ⟨part, List.mem_cons_of_mem _ mem, found⟩

/-- Nothing has changed when all files that were written held their sections before. -/
theorem node?_of_held (wrote : Wrote o source parts s s')
    (held : ∀ part ∈ parts, ∃ chunk, Chunk.join part.2 = .ok chunk ∧
      s.tree.read (o.sectionPath source part.1) = .ok chunk.toByteArray) (place : List String) :
    s'.tree.node? place = s.tree.node? place := by
  induction wrote with
  | nil s => rfl
  | @cons k bodies chunk rest s s₁ s' joined written later ih =>
    obtain ⟨⟨chunk', joined', own⟩, others⟩ := List.forall_mem_cons.1 held
    cases joined.symm.trans joined'
    have ok := (writeFile_eq_ok written).1
    have same := FileTree.node?_of_write_same own ok
    refine (ih fun part mem => ?_).trans (same place)
    obtain ⟨chunk', joined', own'⟩ := others part mem
    exact ⟨chunk', joined', by
      rw [FileTree.read_congr same (FileTree.write_eq_ok ok).1.workingDir, own']⟩

/-- **Writing sections has changed nothing exactly when their files held them before.** -/
theorem node?_eq_iff (wrote : Wrote o source parts s s')
    (named : ∀ part ∈ parts, part.1 ∈ Kind.named) (distinct : (parts.map Prod.fst).Nodup) :
    (∀ place, s'.tree.node? place = s.tree.node? place) ↔
      ∀ part ∈ parts, ∃ chunk, Chunk.join part.2 = .ok chunk ∧
        s.tree.read (o.sectionPath source part.1) = .ok chunk.toByteArray := by
  refine ⟨fun same part mem => ?_, wrote.node?_of_held⟩
  obtain ⟨chunk, place, joined, found⟩ := wrote.follow named distinct part mem
  refine ⟨chunk, joined, ?_⟩
  rw [← FileTree.read_congr same wrote.extends_tree.workingDir]
  exact FileTree.read_of_follow found

end Wrote

/-! ## A run -/

theorem kinds_sections (script : Script) : ((sections script).map Prod.fst).Nodup := by
  have kinds : (Kind.named.map fun kind => (kind, (script.ofKind kind).map (·.data))).map
      Prod.fst = Kind.named := by
    rw [List.map_map]
    exact List.map_id _
  have named : Kind.named.Nodup := by decide
  rw [← kinds] at named
  exact named.sublist (List.filter_sublist.map _)

/-- What is left of a source one of whose sections cannot be joined. -/
theorem one_of_joining {file : String} {kind : Kind} {e : Chunk.Error} {s s' : Session}
    (failed : one o source s = (.error (.joining file kind e), s')) :
    file = source ∧ ∃ script before bodies after,
      (assemble o source s).result = .ok script ∧
      sections script = before ++ (kind, bodies) :: after ∧ Chunk.join bodies = .error e ∧
      Wrote o source before (s.note .debug (assemble o source s).remarks) s' := by
  unfold one at failed
  generalize assemble o source s = outcome at failed ⊢
  cases made : outcome.result with
  | error faults => simp [made] at failed
  | ok script =>
    simp only [made, write] at failed
    cases format : o.format with
    | bundle =>
      rw [format] at failed
      dsimp only at failed
      split at failed
      · rename_i e' s₁ stopped
        split at stopped <;> cases stopped
        cases failed
      · cases failed
    | chunk =>
      rw [format] at failed
      dsimp only at failed
      split at failed
      · rename_i e' s₁ stopped
        cases failed
        obtain ⟨own, before, bodies, after, split, broken, wrote⟩ := wrote_of_joining stopped
        exact ⟨own, script, before, bodies, after, rfl, split, broken, wrote⟩
      · cases failed

/-- **What a run leaves when a section cannot be joined.**  The source has been assembled, and all
sections before the one that fails have been joined and written: their files hold them, and nothing
else has changed.  So the run has changed nothing exactly when those files held their sections
before, as it is when the first section fails. -/
theorem run_of_joining {file : String} {kind : Kind} {e : Chunk.Error} {s s' : Session}
    (failed : run o [source] s = (some (.joining file kind e), s')) :
    file = source ∧ ∃ s₀ script before bodies after,
      prepare o s = (none, s₀) ∧ (assemble o source s₀).result = .ok script ∧
      sections script = before ++ (kind, bodies) :: after ∧ Chunk.join bodies = .error e ∧
      (∀ part ∈ before, ∃ chunk, Chunk.join part.2 = .ok chunk ∧
        s'.tree.read (o.sectionPath source part.1) = .ok chunk.toByteArray) ∧
      (∀ place, s'.tree.node? place ≠ s₀.tree.node? place → ∃ part ∈ before, ∃ data,
        s'.tree.follow (o.sectionPath source part.1) = .ok (.found place (.file data))) ∧
      ((∀ place, s'.tree.node? place = s₀.tree.node? place) ↔
        ∀ part ∈ before, ∃ chunk, Chunk.join part.2 = .ok chunk ∧
          s₀.tree.read (o.sectionPath source part.1) = .ok chunk.toByteArray) := by
  rw [run_eq_finish] at failed
  rcases prepared : prepare o s with ⟨_ | error, s₀⟩ <;> rw [prepared] at failed
  · -- The only result is the error.
    have stopped : one o source s₀ = (.error (.joining file kind e), s') := by
      rcases ended : one o source s₀ with ⟨error | result, s₁⟩
      · simp only [each, ended, finish, allOk, List.mapM_cons] at failed
        cases failed
        rfl
      · simp only [each, ended] at failed
        have fine : allOk [.ok result] = .ok [result] := allOk_eq_ok_iff.2 rfl
        rw [finish, fine] at failed
        dsimp only at failed
        split at failed <;> cases failed
    obtain ⟨own, script, before, bodies, after, made, split, broken, wrote⟩ :=
      one_of_joining stopped
    have named : ∀ part ∈ before, part.1 ∈ Kind.named := by
      intro part mem
      have listed : (part.1, part.2) ∈ sections script := by
        rw [split]
        exact List.mem_append_left _ mem
      exact (mem_sections listed).1
    have distinct : (before.map Prod.fst).Nodup := by
      have all := kinds_sections script
      rw [split, List.map_append] at all
      exact (List.nodup_append.1 all).1
    refine ⟨own, s₀, script, before, bodies, after, rfl, made, split, broken, fun part mem => ?_,
      fun place changed => wrote.node? changed, wrote.node?_eq_iff named distinct⟩
    obtain ⟨chunk, place, joined, found⟩ := wrote.follow named distinct part mem
    exact ⟨chunk, joined, FileTree.read_of_follow found⟩
  · cases failed
    unfold prepare at prepared
    split at prepared
    · cases prepared
    · split at prepared <;> cases prepared

/-! ## A source that fails late -/

open Assembly

/-- The sections of a script as it is written. -/
theorem sections_scriptOf {version : Line} (role : version.role = .version)
    (written : List Section) :
    sections (scriptOf (version :: written.flatMap Section.lines)) =
      (Kind.named.map fun kind => (kind, ((Section.tagged written).filter (·.1 = kind)).map fun x =>
        x.2.bytes ((Declarations.ofLines (version :: written.flatMap Section.lines)).ofKind
          .main))).filter (! ·.2.isEmpty) := by
  rw [sections]
  congr 1
  refine List.map_congr_left fun kind _ => Prod.ext rfl ?_
  have bodies := congrArg (List.map Prod.snd) (ofKind_scriptOf_sections role written kind)
  rw [List.map_map, List.map_map] at bodies
  refine bodies.trans ?_
  generalize (Section.tagged written).filter (·.1 = kind) = routines
  rw [← List.zipIdx_map_fst 0 routines, List.map_map]
  simp

/-- The line that tells the version. -/
def versionLine : Line :=
  { head := .ofChars .symbol ".version".toList, operands := [[.ofChars .number "2".toList]] }

/-- The line that begins a procedure. -/
def procLine (name : String) : Line :=
  { head := .ofChars .symbol ".proc".toList, operands := [[.ofChars .symbol name.toList]] }

/-- A line of one word. -/
def wordLine (word : String) : Line :=
  { head := .ofChars .symbol word.toList }

theorem isWord_of_all {c : Char} {cs : List Char} (start : isIdentStart c = true)
    (all : cs.all isIdentPart = true) : IsWord isIdentStart (c :: cs) :=
  ⟨c, cs, rfl, start, List.all_eq_true.1 all⟩

theorem reads_phrase {text : List Char} {ts : List Token} {l : Line} (phrase : Phrase text ts)
    (line : Line.ofTokens? ts = some l) : Reads (text ++ "\n".toList) [l] := by
  have margin : ∀ c ∈ ([] : List Char), isLineBlank c = true := by simp
  have row := Reads.row margin phrase .nil
  rwa [line] at row

theorem reads_replicate {text : List Char} {l : Line} (reads : Reads text [l]) (n : ℕ) :
    Reads (List.replicate n text).flatten (List.replicate n l) := by
  induction n with
  | zero => exact .nil
  | succ n ih => exact reads.append ih

section Routine

variable {name word : String} {bytes : List UInt8}

/-- A procedure that is one instruction again and again. -/
def routine (name word : String) (n : ℕ) (role : (wordLine word).role = .instruction) :
    Routine where
  head := procLine name
  body := List.replicate n (wordLine word)
  headRole := rfl
  bodyRole l mem := .inr (by rw [List.eq_of_mem_replicate mem, role])

/-- The text of such a procedure. -/
def routineText (name word : String) (n : ℕ) : String :=
  ".proc " ++ name ++ "\n" ++ String.join (List.replicate n (word ++ "\n"))

theorem reads_routine (named : IsWord isIdentStart name.toList)
    (worded : IsWord isIdentStart word.toList) (n : ℕ)
    (role : (wordLine word).role = .instruction) :
    Reads (routineText name word n).toList (routine name word n role).lines := by
  have proc : IsWord isIdentStart "proc".toList := isWord_of_all rfl rfl
  have head : Reads (".proc ".toList ++ name.toList ++ "\n".toList) [procLine name] :=
    reads_phrase ((Phrase.dotted proc).spaced (.word named)) rfl
  have line : Reads (word.toList ++ "\n".toList) [wordLine word] :=
    reads_phrase (.word worded) rfl
  have text : (routineText name word n).toList = ".proc ".toList ++ name.toList ++ "\n".toList ++
      (List.replicate n (word.toList ++ "\n".toList)).flatten := by
    simp [routineText, String.toList_join, List.flatMap_replicate]
  rw [text]
  exact head.append (reads_replicate line n)

/-- Without operands an instruction does not depend on the names of the procedures. -/
theorem encode_wordLine (role : (wordLine word).role = .instruction)
    (plain : (wordLine word).encode [] = (bytes, [])) (procedures : List String) :
    (wordLine word).encode procedures = (bytes, []) := by
  rw [← plain, Line.encode, Line.encode, role]
  simp only [Line.encodeInstruction, wordLine, List.zip_nil_right, Line.encodeOperands]

theorem bytes_routine (role : (wordLine word).role = .instruction)
    (plain : (wordLine word).encode [] = (bytes, [])) (n : ℕ) (procedures : List String) :
    (routine name word n role).bytes procedures = (List.replicate n bytes).flatten := by
  rw [Routine.bytes, routine, List.flatMap_replicate, encode_wordLine role plain]

theorem faultless_routine (role : (wordLine word).role = .instruction)
    (named : (procLine name).procedureDiagnostics = [])
    (plain : (wordLine word).encode [] = (bytes, [])) (n : ℕ) (procedures : List String) :
    ∀ l ∈ (routine name word n role).lines, (l.encode procedures).2 = [] := by
  refine List.forall_mem_cons.2 ⟨named, fun l mem => ?_⟩
  rw [List.eq_of_mem_replicate mem, encode_wordLine role plain]

end Routine

/-- The bytes of a long instruction. -/
def longBytes : List UInt8 :=
  0x75 :: List.replicate 21 0

theorem encode_nop : (wordLine "nop").encode [] = ([0], []) := by
  decide +kernel

theorem encode_long : (wordLine "sce_espr3d_on2").encode [] = (longBytes, []) := by
  decide +kernel

/-- One section with a short procedure, and one where a procedure of `n` long instructions stands in
front of a short one. -/
def lateSections (n : ℕ) : List Section :=
  [{ head := wordLine ".init", kind := .init, routines := [routine "a" "nop" 1 rfl],
     headRole := rfl, headOperands := rfl },
   { head := wordLine ".main", kind := .main,
     routines := [routine "b" "sce_espr3d_on2" n rfl, routine "c" "nop" 1 rfl],
     headRole := rfl, headOperands := rfl }]

def lateLines (n : ℕ) : List Line :=
  versionLine :: (lateSections n).flatMap Section.lines

def lateText (n : ℕ) : String :=
  ".version 2\n" ++ (".init\n" ++ routineText "a" "nop" 1) ++
    (".main\n" ++ (routineText "b" "sce_espr3d_on2" n ++ routineText "c" "nop" 1))

theorem reads_lateText (n : ℕ) : Reads (lateText n).toList (lateLines n) := by
  have version : Reads ".version 2\n".toList [versionLine] := by
    have head : IsWord isIdentStart "version".toList := isWord_of_all rfl rfl
    have number : Phrase "2".toList [.ofChars .number "2".toList] := .number rfl (by simp)
    exact reads_phrase ((Phrase.dotted head).spaced number) rfl
  have init : Reads ".init\n".toList [wordLine ".init"] := by
    have head : IsWord isIdentStart "init".toList := isWord_of_all rfl rfl
    exact reads_phrase (.dotted head) rfl
  have main : Reads ".main\n".toList [wordLine ".main"] := by
    have head : IsWord isIdentStart "main".toList := isWord_of_all rfl rfl
    exact reads_phrase (.dotted head) rfl
  have nop : IsWord isIdentStart "nop".toList := isWord_of_all rfl rfl
  have long : IsWord isIdentStart "sce_espr3d_on2".toList := isWord_of_all rfl rfl
  have a : IsWord isIdentStart "a".toList := isWord_of_all rfl rfl
  have b : IsWord isIdentStart "b".toList := isWord_of_all rfl rfl
  have c : IsWord isIdentStart "c".toList := isWord_of_all rfl rfl
  have reads := (version.append (init.append (reads_routine a nop 1 rfl))).append
    (main.append ((reads_routine b long n rfl).append (reads_routine c nop 1 rfl)))
  simpa only [lateText, lateLines, lateSections, String.toList_append, List.flatMap_cons,
    List.flatMap_nil, Section.lines, List.append_nil, List.cons_append, List.nil_append,
    List.singleton_append, List.append_assoc] using reads

theorem faultless_lateLines (n : ℕ) : Faultless (lateLines n) where
  declared := by
    have named : ∀ s ∈ lateSections n, ∀ r ∈ s.routines,
        r.head.procedureName? = some (r.head.procedureName?.getD "") := by
      simp only [lateSections, List.forall_mem_cons, routine]
      exact ⟨⟨rfl, by simp⟩, ⟨rfl, rfl, by simp⟩, by simp⟩
    have names : (Section.tagged (lateSections n)).map
        (fun x => (x.1, x.2.head.procedureName?.getD "")) =
          [(.init, "a"), (.main, "b"), (.main, "c")] := rfl
    rw [Declarations.diagnostics_eq_empty_iff, lateLines, Declarations.names_sections rfl named,
      names]
    decide
  encoded := by
    generalize (Declarations.ofLines (lateLines n)).ofKind .main = procedures
    simp only [lateLines, lateSections, Section.lines, List.flatMap_cons, List.flatMap_nil,
      List.forall_mem_cons, List.forall_mem_append, List.append_nil]
    exact ⟨rfl, ⟨rfl, faultless_routine rfl rfl encode_nop 1 procedures⟩,
      rfl, faultless_routine rfl rfl encode_long n procedures,
      faultless_routine rfl rfl encode_nop 1 procedures⟩

theorem sections_lateLines (n : ℕ) :
    sections (scriptOf (lateLines n)) =
      [(.init, [[0]]), (.main, [(List.replicate n longBytes).flatten, [0]])] := by
  have parts : ∀ bytes : Routine → List UInt8,
      (Kind.named.map fun kind => (kind, ((Section.tagged (lateSections n)).filter
        (·.1 = kind)).map fun x => bytes x.2)).filter (! ·.2.isEmpty) =
      [(.init, [bytes (routine "a" "nop" 1 rfl)]),
        (.main, [bytes (routine "b" "sce_espr3d_on2" n rfl), bytes (routine "c" "nop" 1 rfl)])] :=
    fun _ => rfl
  rw [lateLines, sections_scriptOf rfl, parts, bytes_routine rfl encode_nop,
    bytes_routine rfl encode_long, bytes_routine rfl encode_nop]
  rfl

theorem join_late {n : ℕ} (large : 2979 ≤ n) :
    Chunk.join [(List.replicate n longBytes).flatten, [0]] = .error (.startsTooLate 1) := by
  have size : (List.replicate n longBytes).flatten.length = n * 22 := by
    simp [longBytes]
  have past : 0xFFFF < 2 * 2 + n * 22 := by omega
  simp [Chunk.join, Chunk.tableFrom, size, past]

/-- The source alone. -/
def lateSession (n : ℕ) : Session :=
  { tree := { nodes := [(["room.s"], .file (lateText n).toUTF8)] } }

/-- Chunks stand beside their source. -/
def chunks : Options :=
  { format := .chunk }

theorem assemble_late (n : ℕ) :
    (assemble chunks "room.s" (lateSession n)).result = .ok (scriptOf (lateLines n)) := by
  have absolute : (lateSession n).absolute "room.s" = "/room.s" := by
    have top : (lateSession n).tree.workingDir = [] := rfl
    rw [Session.absolute, top]
    decide +kernel
  have read : ((lateSession n).tree.library chunks.includeDirs).read
      ((lateSession n).absolute "room.s") = .ok (lateText n).toUTF8 := by
    rw [absolute, lateSession]
    generalize (lateText n).toUTF8 = data
    rfl
  obtain ⟨script, faults⟩ := assembleFile_of_reads read (reads_lateText n)
  have defines : chunks.defines = [] := rfl
  rw [assemble, defines, Outcome.result, script, faults.2 (faultless_lateLines n)]
  rfl

/-- The run fails at its second section, and the file of the first has been written. -/
theorem run_late {n : ℕ} (large : 2979 ≤ n) :
    ∃ s', run chunks ["room.s"] (lateSession n) =
        (some (.joining "room.s" .main (.startsTooLate 1)), s') ∧
      s'.tree = (lateSession n).tree.set ["room.init.scd"] (.file [2, 0, 0].toByteArray) := by
  have made : outputs chunks "room.s" (scriptOf (lateLines n)) {} =
      [.ok ("room.init.scd", [2, 0, 0].toByteArray),
        .error (.joining "room.s" .main (.startsTooLate 1))] := by
    have path : chunks.sectionPath "room.s" .init = "room.init.scd" := by decide +kernel
    have short : Chunk.join [[0]] = .ok [2, 0, 0] := by decide
    have format : chunks.format = .chunk := rfl
    rw [outputs, format, sections_lateLines]
    simp only [List.map_cons, List.map_nil, sectionOutput, short, join_late large, path]
  let s₀ := (lateSession n).note .debug (assemble chunks "room.s" (lateSession n)).remarks
  let s' : Session := { s₀ with
    tree := (lateSession n).tree.set ["room.init.scd"] (.file [2, 0, 0].toByteArray) }
  have written : s₀.writeFile "room.init.scd" [2, 0, 0].toByteArray = .ok s' := by
    have write : (lateSession n).tree.write "room.init.scd" [2, 0, 0].toByteArray =
        .ok ((lateSession n).tree.set ["room.init.scd"] (.file [2, 0, 0].toByteArray)) := by
      rw [lateSession]
      generalize (lateText n).toUTF8 = data
      rfl
    have tree : s₀.tree = (lateSession n).tree := rfl
    rw [Session.writeFile, tree, write]
  have ended : one chunks "room.s" (lateSession n) =
      (.error (.joining "room.s" .main (.startsTooLate 1)), s') := by
    have now : (lateSession n).now = {} := rfl
    rw [Job.one_of_ok (assemble_late n), now, made]
    simp only [writeAll]
    rw [written]
    rfl
  have prepared : prepare chunks (lateSession n) = (none, lateSession n) := rfl
  refine ⟨s', ?_, rfl⟩
  rw [run_eq_finish, prepared]
  simp only [each, ended]
  rfl

/-- What is left of that run by the general theorem: the sections before the one that fails stand in
their files. -/
theorem run_of_joining_late :
    ∃ s', run chunks ["room.s"] (lateSession 2979) =
        (some (.joining "room.s" .main (.startsTooLate 1)), s') ∧
      ∃ before bodies after,
        sections (scriptOf (lateLines 2979)) = before ++ (.main, bodies) :: after ∧
        Chunk.join bodies = .error (.startsTooLate 1) ∧
        ∀ part ∈ before, ∃ chunk, Chunk.join part.2 = .ok chunk ∧
          s'.tree.read (chunks.sectionPath "room.s" part.1) = .ok chunk.toByteArray := by
  obtain ⟨s', ran, -⟩ := run_late le_rfl
  obtain ⟨-, s₀, script, before, bodies, after, prepared, made, split, broken, held, -⟩ :=
    run_of_joining ran
  obtain rfl : lateSession 2979 = s₀ := congrArg Prod.snd prepared
  obtain rfl := Except.ok.inj ((assemble_late 2979).symm.trans made)
  exact ⟨s', ran, before, bodies, after, split, broken, held⟩

/-- The source is assembled without a report, but what is left of the failed run is a new file. -/
theorem run_late_changes :
    (assemble chunks "room.s" (lateSession 2979)).result = .ok (scriptOf (lateLines 2979)) ∧
    ∃ s', run chunks ["room.s"] (lateSession 2979) =
        (some (.joining "room.s" .main (.startsTooLate 1)), s') ∧
      (lateSession 2979).tree.node? ["room.init.scd"] = none ∧
      s'.tree.read "room.init.scd" = .ok [2, 0, 0].toByteArray := by
  obtain ⟨s', ran, tree⟩ := run_late le_rfl
  refine ⟨assemble_late 2979, s', ran, ?_, ?_⟩
  · rw [lateSession]
    generalize (lateText 2979).toUTF8 = data
    rfl
  · rw [tree, lateSession]
    generalize (lateText 2979).toUTF8 = data
    rfl

end Build

end RoomScript
