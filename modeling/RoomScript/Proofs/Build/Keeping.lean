import RoomScript.Proofs.Build.Jobs

/-!
# What is left when all sources are built

Jobs that have ended without an error have written their outputs, and what they have written is
printed.  An output is lost to another source only if both have the same file.

* `finish` prints the results, and `exists_schedule_of_run` says that a run of the sources in their
  order is one of the schedules and ends with it;
* `outputs_kept` says what the files hold in the end;
* `run_namesakes` is a run in which an output is lost.
-/

namespace RoomScript.Build

variable {o : Options} {sources : List String}

/-! ## The end of a run -/

/-- Print what was built, or fail. -/
def finish (sources : List String) (results : List (Except Error Result)) (s : Session) :
    Option Error × Session :=
  match allOk results with
  | .error e => (some e, s)
  | .ok results =>
    let s := (sources.zip results).foldl announce s
    let faulty := results.count .faulty
    (if faulty = 0 then none else some (.failed faulty sources.length), s)

theorem run_eq_finish (o : Options) (sources : List String) (s : Session) :
    run o sources s =
      match prepare o s with
      | (some e, s) => (some e, s)
      | (none, s) => finish sources (each o sources s).1 (each o sources s).2 :=
  rfl

theorem allOk_eq_ok_iff {results : List (Except Error Result)} {ended : List Result} :
    allOk results = .ok ended ↔ results = ended.map .ok := by
  unfold allOk
  induction results generalizing ended with
  | nil =>
    rw [List.mapM_nil]
    exact ⟨fun same => by cases same; rfl, fun same => by
      rw [List.map_eq_nil_iff.1 same.symm]
      rfl⟩
  | cons first results ih =>
    rw [List.mapM_cons]
    constructor
    · intro ok
      cases first with
      | error e => cases ok
      | ok result =>
        cases later : results.mapM id with
        | error e =>
          rw [later] at ok
          cases ok
        | ok rest =>
          rw [later] at ok
          cases ok
          rw [ih.1 later]
          rfl
    · intro same
      cases ended with
      | nil => cases same
      | cons result rest =>
        obtain ⟨rfl, later⟩ := List.cons.inj same
        rw [ih.2 later]
        rfl

/-- What is printed for results. -/
theorem foldl_announce (pairs : List (String × Result)) (s : Session) :
    (pairs.foldl announce s).tree = s.tree ∧ (pairs.foldl announce s).out =
      s.out ++ String.join ((pairs.flatMap fun x => x.2.files).map (· ++ "\n")) := by
  induction pairs generalizing s with
  | nil => exact ⟨rfl, by simp⟩
  | cons pair pairs ih =>
    obtain ⟨source, result⟩ := pair
    obtain ⟨tree, out⟩ := ih (announce s (source, result))
    rw [List.foldl_cons]
    cases result with
    | faulty => exact ⟨tree, out⟩
    | built files size =>
      refine ⟨tree, ?_⟩
      have printed : (announce s (source, .built files size)).out =
          s.out ++ String.join (files.map (· ++ "\n")) := rfl
      rw [out, printed, List.flatMap_cons, List.map_append, String.join_append, String.append_assoc]
      rfl

/-- Nothing fails when all sources are built, and their files are printed. -/
theorem finish_eq_none {results : List (Except Error Result)} {s s' : Session}
    (length : results.length = sources.length)
    (done : finish sources results s = (none, s')) :
    ∃ ended : List Result, results = ended.map .ok ∧ .faulty ∉ ended ∧ s'.tree = s.tree ∧
      s'.out = s.out ++ String.join ((ended.flatMap Result.files).map (· ++ "\n")) := by
  unfold finish at done
  split at done
  · cases done
  · rename_i ended ok
    have same := allOk_eq_ok_iff.1 ok
    rw [same, List.length_map] at length
    obtain ⟨none, rfl⟩ := Prod.mk.inj done
    obtain ⟨tree, out⟩ := foldl_announce (sources.zip ended) s
    have files : (sources.zip ended).flatMap (fun x => x.2.files) = ended.flatMap Result.files := by
      rw [← List.flatMap_map, List.map_snd_zip length.le]
    refine ⟨ended, same, ?_, tree, by rw [out, files]⟩
    intro mem
    have some := List.count_pos_iff.2 mem
    split at none
    · omega
    · cases none

theorem prepare_eq_none {s s' : Session} (prepared : prepare o s = (none, s')) :
    s'.out = s.out ∧ s'.now = s.now := by
  unfold prepare at prepared
  split at prepared
  · cases prepared
    exact ⟨rfl, rfl⟩
  · split at prepared <;> cases prepared
    exact ⟨rfl, rfl⟩

/-- A run of the sources in their order is one of the schedules. -/
theorem exists_schedule_of_run {s s₀ : Session} (prepared : prepare o s = (none, s₀)) :
    ∃ schedule results, ((Moment.start sources s₀).after o schedule).Ended results ∧
      run o sources s =
        finish sources results ((Moment.start sources s₀).after o schedule).session := by
  obtain ⟨schedule, ended, session⟩ := Moment.exists_schedule o sources s₀
  exact ⟨schedule, _, ended, by rw [run_eq_finish, prepared, session]⟩

/-- **Outputs are kept, apart from those that are one file.**  Sources are built at the same time,
and the jobs go on in any order until all of them have ended without an error.  Then the outputs of
every source have been written and printed.  A printed path leads to a file that holds what its own
source was built to, unless an output of another source is the same file, which takes a source of
the same name in another directory or with another extension, there being no links.  Since an output
is written in one step here, such a file holds what one of the sources was built to that have it as
an output; files that are written at the same time, piece by piece, could be a mixture of these. -/
theorem outputs_kept {s s₀ s' : Session} {schedule : List (Fin sources.length)}
    {m : Moment sources} {results : List (Except Error Result)}
    (prepared : prepare o s = (none, s₀)) (ran : (Moment.start sources s₀).after o schedule = m)
    (ended : m.Ended results) (done : finish sources results m.session = (none, s')) :
    s'.out = s.out ++
        String.join ((List.ofFn fun i => (m.jobs i).written).flatten.map (·.1 ++ "\n")) ∧
      ∀ i, ∃ script, (m.jobs i).stage = .built script ∧
        (Moment.start sources s₀).Assembled o schedule i script ∧
        outputs o (sources.get i) script s.now = (m.jobs i).written.map .ok ∧
        ∀ path data, (path, data) ∈ (m.jobs i).written →
          IsOwn o (sources.get i) script s.now path data ∧
          ((∀ j ≠ i, ∀ path' data', (path', data') ∈ (m.jobs j).written →
              ¬ s'.tree.SameFile path path') → s'.tree.read path = .ok data) ∧
          (o.output = "" →
            (∀ j ≠ i, Path.outputName (sources.get i) ≠ Path.outputName (sources.get j)) →
              s'.tree.read path = .ok data) ∧
          ∃ j path' data', (path', data') ∈ (m.jobs j).written ∧ s'.tree.SameFile path path' ∧
            s'.tree.read path = .ok data' := by
  obtain ⟨out₀, now₀⟩ := prepare_eq_none prepared
  obtain ⟨-, out₁, follows, stored⟩ := Moment.sound_after (o := o) s₀ schedule
  rw [ran] at out₁ follows stored
  obtain ⟨all, rfl, built, tree, out⟩ := finish_eq_none ended.length_eq done
  -- Every job has built its source.
  have own : ∀ i, ∃ script, (m.jobs i).stage = .built script ∧
      (Moment.start sources s₀).Assembled o schedule i script ∧
      outputs o (sources.get i) script s.now = (m.jobs i).written.map .ok := by
    intro i
    obtain ⟨script, stage⟩ := ended.exists_built built i
    have here := follows i
    rw [Job.Follows, stage] at here
    rw [← now₀]
    exact ⟨script, stage, here⟩
  choose scripts stage assembled all_written using own
  have mem_outputs : ∀ {i x}, x ∈ (m.jobs i).written →
      .ok x ∈ outputs o (sources.get i) (scripts i) s.now := by
    intro i x mem
    rw [all_written i]
    exact List.mem_map_of_mem mem
  refine ⟨?_, fun i => ⟨scripts i, stage i, assembled i, all_written i, ?_⟩⟩
  · rw [out, ended.files built, out₁, ← out₀, List.map_map]
    rfl
  · intro path data mem
    obtain ⟨before, -, -, made⟩ := assembled i
    obtain ⟨place, path', data', ⟨j, mem'⟩, first, second⟩ := stored path data ⟨i, mem⟩
    rw [← tree] at first second
    have same : s'.tree.SameFile path path' := ⟨place, data', first, second⟩
    have read := FileTree.read_of_follow first
    -- When no other source has the file, it is the one that was written for this path.
    have kept (own : j = i) : s'.tree.read path = .ok data := by
      subst own
      obtain ⟨-, rfl⟩ := eq_of_mem_outputs (mem_outputs mem) (mem_outputs mem') same
      exact read
    refine ⟨isOwn_of_mem_outputs made (mem_outputs mem), fun apart => kept ?_,
      fun named apart => kept ?_, j, path', data', mem', same, read⟩
    · by_contra other
      exact apart j other path' data' mem' same
    · by_contra other
      exact apart j other
        (outputName_eq_of_sameFile named (mem_outputs mem) (mem_outputs mem') same)

/-! ## Examples -/

/-- A script of instructions that do nothing. -/
def nopScript (count : ℕ) : Script :=
  { version := .bio2, procedures := [⟨.main, 0, "main", List.replicate count 0⟩] }

/-- Two sources at different places. -/
def nopSession (nodes : List (List String × FileNode)) (first second : List String) : Session :=
  { tree := { nodes := nodes ++
      [(first, .file "nop\n".toUTF8), (second, .file "nop\nnop\n".toUTF8)] } }

/-- A source is assembled from its own tokens. -/
theorem assemble_of_spells {source text : String} {s : Session} {us : List Token} {script : Script}
    (defines : o.defines = [])
    (read : (s.tree.library o.includeDirs).read (s.absolute source) = .ok text.toUTF8)
    (spelled : Spells text.toList us []) (plain : ∀ t ∈ us, t.kind ≠ .directive)
    (made : (Assembly.assemble (us.filter (! ·.isLayout))).result = .ok script) :
    (assemble o source s).result = .ok script := by
  rw [assemble, defines]
  exact Assembly.result_assembleFile_plain read spelled plain made

theorem assemble_nop {source : String} {s : Session} (defines : o.defines = [])
    (read : (s.tree.library o.includeDirs).read (s.absolute source) = .ok "nop\n".toUTF8) :
    (assemble o source s).result = .ok (nopScript 1) := by
  have spelled : Spells "nop\n".toList
      [.ofChars .symbol "nop".toList, .ofChars .newline ['\n']] [] :=
    .token rfl (.token rfl (.done []))
  exact assemble_of_spells defines read spelled (by decide) (by decide +kernel)

theorem assemble_nop_nop {source : String} {s : Session} (defines : o.defines = [])
    (read : (s.tree.library o.includeDirs).read (s.absolute source) = .ok "nop\nnop\n".toUTF8) :
    (assemble o source s).result = .ok (nopScript 2) := by
  have spelled : Spells "nop\nnop\n".toList
      [.ofChars .symbol "nop".toList, .ofChars .newline ['\n'],
        .ofChars .symbol "nop".toList, .ofChars .newline ['\n']] [] :=
    .token rfl (.token rfl (.token rfl (.token rfl (.done []))))
  exact assemble_of_spells defines read spelled (by decide) (by decide +kernel)

/-- Two sources in one directory. -/
def pair : List String :=
  ["a.s", "b.s"]

def pairFirst : Fin pair.length := ⟨0, by decide⟩

def pairSecond : Fin pair.length := ⟨1, by decide⟩

/-- The moment with these two jobs. -/
def pairMoment (s : Session) (first second : Job) : Moment pair :=
  { session := s, jobs := fun i => if i = pairFirst then first else second }

theorem pairMoment_step_first {s s' : Session} {first first' second : Job}
    (next : Job.advance o "a.s" (first, s) = (first', s')) :
    (pairMoment s first second).step o pairFirst = pairMoment s' first' second := by
  have own : Job.advance o (pair.get pairFirst) ((pairMoment s first second).jobs pairFirst,
      (pairMoment s first second).session) = (first', s') := next
  rw [Moment.step, own, pairMoment, pairMoment, Moment.mk.injEq]
  refine ⟨rfl, funext fun i => ?_⟩
  by_cases same : i = pairFirst
  · rw [same, Function.update_self, if_pos rfl]
  · rw [Function.update_of_ne same, if_neg same]
    exact if_neg same

theorem pairMoment_step_second {s s' : Session} {first second second' : Job}
    (next : Job.advance o "b.s" (second, s) = (second', s')) :
    (pairMoment s first second).step o pairSecond = pairMoment s' first second' := by
  have own : Job.advance o (pair.get pairSecond) ((pairMoment s first second).jobs pairSecond,
      (pairMoment s first second).session) = (second', s') := next
  have two : ∀ i, i ≠ pairSecond → i = pairFirst := by decide
  rw [Moment.step, own, pairMoment, pairMoment, Moment.mk.injEq]
  refine ⟨rfl, funext fun i => ?_⟩
  by_cases same : i = pairSecond
  · rw [same, Function.update_self]
    rfl
  · rw [Function.update_of_ne same, if_pos (two i same)]
    exact if_pos (two i same)

/-- The output for a source of the pair. -/
theorem outputs_pair {source path : String} (script : Script)
    (named : Options.bundlePath {} source = path) (base : Path.base source = source) :
    outputs {} source script {} = [.ok (path, Bundle.encode script source {})] := by
  rw [outputs, named, base]

/-- The bundles of the pair fit into archives. -/
theorem decode_pair {source path : String} {count : ℕ} {data : ByteArray} (named : source ∈ pair)
    (few : count ∈ [1, 2]) (own : IsOwn {} source (nopScript count) {} path data) :
    Bundle.decode data =
      .ok ((nopScript count).ordered, Bundle.manifest (nopScript count) source {}) := by
  have base : ∀ source ∈ pair, Path.base source = source := by decide +kernel
  have procedures : ∀ count ∈ [1, 2], (nopScript count).procedures.length < 2 ^ 16 - 2 ∧
      ∀ p ∈ (nopScript count).procedures, (Bundle.memberName p).utf8ByteSize < 2 ^ 16 := by
    decide +kernel
  have size : ∀ source ∈ pair, ∀ count ∈ [1, 2],
      (Bundle.encode (nopScript count) source {}).size < 2 ^ 32 - 1 := by decide +kernel
  have fits : Archive.Fits (Bundle.members (nopScript count) source {}) :=
    Bundle.fits_members (procedures count few).1 (size source named count few)
      (procedures count few).2
  have decoded := own.2
  rw [base source named] at decoded
  exact decoded fits (by constructor <;> decide)

theorem outputs_kept_turns :
    ∃ m results s', (Moment.start pair (nopSession [] ["a.s"] ["b.s"])).after {}
        [pairSecond, pairFirst, pairFirst, pairSecond, pairSecond, pairFirst] = m ∧
      m.Ended results ∧ finish pair results m.session = (none, s') ∧
      s'.out = "a.scdz\nb.scdz\n" ∧
      (∃ data, s'.tree.read "a.scdz" = .ok data ∧ Bundle.decode data =
        .ok ((nopScript 1).ordered, Bundle.manifest (nopScript 1) "a.s" {})) ∧
      ∃ data, s'.tree.read "b.scdz" = .ok data ∧ Bundle.decode data =
        .ok ((nopScript 2).ordered, Bundle.manifest (nopScript 2) "b.s" {}) := by
  let s := nopSession [] ["a.s"] ["b.s"]
  have made₂ : (assemble {} "b.s" s).result = .ok (nopScript 2) := by
    refine assemble_nop_nop rfl ?_
    have absolute : s.absolute "b.s" = "/b.s" := by
      show Path.absolute ("/" ++ "/".intercalate []) "b.s" = "/b.s"
      decide +kernel
    rw [absolute]
    rfl
  let s₁ := s.note .debug (assemble {} "b.s" s).remarks
  have made₁ : (assemble {} "a.s" s₁).result = .ok (nopScript 1) := by
    refine assemble_nop rfl ?_
    have absolute : s₁.absolute "a.s" = "/a.s" := by
      show Path.absolute ("/" ++ "/".intercalate []) "a.s" = "/a.s"
      decide +kernel
    rw [absolute]
    rfl
  let s₂ := s₁.note .debug (assemble {} "a.s" s₁).remarks
  let data₁ := Bundle.encode (nopScript 1) "a.s" {}
  let data₂ := Bundle.encode (nopScript 2) "b.s" {}
  let t₁ := s.tree.set ["a.scdz"] (.file data₁)
  let t₂ := t₁.set ["b.scdz"] (.file data₂)
  have write₁ : s₂.tree.write "a.scdz" data₁ = .ok t₁ := rfl
  have write₂ : t₁.write "b.scdz" data₂ = .ok t₂ := rfl
  let m : Moment pair := pairMoment { s₂ with tree := t₂ }
    ⟨.built (nopScript 1), [("a.scdz", data₁)]⟩ ⟨.built (nopScript 2), [("b.scdz", data₂)]⟩
  have ran : (Moment.start pair s).after {}
      [pairSecond, pairFirst, pairFirst, pairSecond, pairSecond, pairFirst] = m := by
    have start : Moment.start pair s = pairMoment s {} {} := by
      rw [Moment.start, pairMoment, Moment.mk.injEq]
      exact ⟨rfl, funext fun i => (ite_self _).symm⟩
    have outputs₁ : outputs {} "a.s" (nopScript 1) s₁.now = [.ok ("a.scdz", data₁)] :=
      outputs_pair (nopScript 1) (by decide +kernel) (by decide +kernel)
    have outputs₂ : outputs {} "b.s" (nopScript 2) s.now = [.ok ("b.scdz", data₂)] :=
      outputs_pair (nopScript 2) (by decide +kernel) (by decide +kernel)
    rw [start, Moment.after]
    simp only [List.foldl_cons, List.foldl_nil]
    rw [pairMoment_step_second (Job.advance_of_ok made₂), outputs₂,
      pairMoment_step_first (Job.advance_of_ok made₁), outputs₁,
      pairMoment_step_first (Job.advance_of_write write₁),
      pairMoment_step_second (Job.advance_of_write write₂),
      pairMoment_step_second rfl, pairMoment_step_first rfl]
    rfl
  have ended : m.Ended [.ok (.built ["a.scdz"] 1), .ok (.built ["b.scdz"] 2)] := rfl
  have prepared : prepare {} s = (none, s) := rfl
  obtain ⟨out, each⟩ := outputs_kept prepared ran ended rfl
  refine ⟨m, _, _, ran, ended, rfl, out, ⟨data₁, ?_, ?_⟩, data₂, ?_, ?_⟩
  · obtain ⟨script, -, -, -, all⟩ := each pairFirst
    exact (all "a.scdz" data₁ List.mem_cons_self).2.2.1 rfl (by decide +kernel)
  · obtain ⟨script, stage, -, -, all⟩ := each pairFirst
    cases stage
    exact decode_pair (by decide) (by decide) (all "a.scdz" data₁ List.mem_cons_self).1
  · obtain ⟨script, -, -, -, all⟩ := each pairSecond
    exact (all "b.scdz" data₂ List.mem_cons_self).2.2.1 rfl (by decide +kernel)
  · obtain ⟨script, stage, -, -, all⟩ := each pairSecond
    cases stage
    exact decode_pair (by decide) (by decide) (all "b.scdz" data₂ List.mem_cons_self).1

/-- Two sources of one name in different directories. -/
def namesakes : Session :=
  nopSession [(["a"], .directory), (["b"], .directory)] ["a", "x.s"] ["b", "x.s"]

/-- Chunks go to one directory. -/
def chunksTo : Options :=
  { format := .chunk, outputDir := "out" }

theorem makeDirs_out :
    namesakes.tree.makeDirs "out" = (none, namesakes.tree.set ["out"] .directory) := by
  have missing : namesakes.tree.stat (String.ofList "out".toList) = .error .noEntry := rfl
  rw [FileTree.makeDirs, FileTree.makeDirsFrom, missing]
  rfl

/-- The output for a source of the two. -/
theorem outputs_namesakes {source : String} {count : ℕ} {chunk : List UInt8} (now : Timestamp)
    (named : chunksTo.sectionPath source .main = "out/x.main.scd")
    (single : sections (nopScript count) = [(.main, [List.replicate count 0])])
    (joined : Chunk.join [List.replicate count 0] = .ok chunk) :
    outputs chunksTo source (nopScript count) now =
      [.ok ("out/x.main.scd", chunk.toByteArray)] := by
  rw [outputs, single]
  simp only [chunksTo, List.map_cons, List.map_nil, sectionOutput, joined]
  rw [← named]
  rfl

/-- A source with one output. -/
theorem one_of_single {source path : String} {s : Session} {script : Script} {data : ByteArray}
    {t : FileTree} (made : (assemble o source s).result = .ok script)
    (single : outputs o source script s.now = [.ok (path, data)])
    (written : s.tree.write path data = .ok t) :
    one o source s = (.ok (.built [path] script.size),
      { s.note .debug (assemble o source s).remarks with tree := t }) := by
  rw [Job.one_of_ok made, single]
  have write : (s.note .debug (assemble o source s).remarks).writeFile path data =
      .ok { s.note .debug (assemble o source s).remarks with tree := t } := by
    have tree : (s.note .debug (assemble o source s).remarks).tree = s.tree := rfl
    rw [Session.writeFile, tree, written]
  simp only [writeAll, write, List.nil_append, Except.map]

/-- The second output of one name takes the place of the first, and both are printed. -/
theorem run_namesakes :
    ∃ s', run chunksTo ["a/x.s", "b/x.s"] namesakes = (none, s') ∧
      s'.out = "out/x.main.scd\nout/x.main.scd\n" ∧
      (assemble chunksTo "a/x.s" namesakes).result = .ok (nopScript 1) ∧
      ∀ data, IsOwn chunksTo "a/x.s" (nopScript 1) namesakes.now "out/x.main.scd" data →
        s'.tree.read "out/x.main.scd" ≠ .ok data := by
  let s₀ : Session := { namesakes with tree := namesakes.tree.set ["out"] .directory }
  have prepared : prepare chunksTo namesakes = (none, s₀) := by
    have directory : chunksTo.outputDir = "out" := rfl
    rw [prepare, directory, if_neg (by decide), makeDirs_out]
  have absolute : ∀ s : Session, s.tree.workingDir = [] →
      s.absolute "a/x.s" = "/a/x.s" ∧ s.absolute "b/x.s" = "/b/x.s" := by
    intro s top
    rw [Session.absolute, Session.absolute, top]
    decide +kernel
  have first : (assemble chunksTo "a/x.s" namesakes).result = .ok (nopScript 1) := by
    refine assemble_nop rfl ?_
    rw [(absolute namesakes rfl).1]
    rfl
  have made₁ : (assemble chunksTo "a/x.s" s₀).result = .ok (nopScript 1) := by
    refine assemble_nop rfl ?_
    rw [(absolute s₀ rfl).1]
    rfl
  have outputs₁ : outputs chunksTo "a/x.s" (nopScript 1) {} =
      [.ok ("out/x.main.scd", [2, 0, 0].toByteArray)] :=
    outputs_namesakes {} (by decide +kernel) (by decide) (by decide)
  have outputs₂ : outputs chunksTo "b/x.s" (nopScript 2) {} =
      [.ok ("out/x.main.scd", [2, 0, 0, 0].toByteArray)] :=
    outputs_namesakes {} (by decide +kernel) (by decide) (by decide)
  let t₁ := s₀.tree.set ["out", "x.main.scd"] (.file [2, 0, 0].toByteArray)
  have one₁ := one_of_single made₁ outputs₁ (t := t₁) rfl
  let s₁ : Session := { s₀.note .debug (assemble chunksTo "a/x.s" s₀).remarks with tree := t₁ }
  have made₂ : (assemble chunksTo "b/x.s" s₁).result = .ok (nopScript 2) := by
    refine assemble_nop_nop rfl ?_
    rw [(absolute s₁ rfl).2]
    rfl
  let t₂ := t₁.set ["out", "x.main.scd"] (.file [2, 0, 0, 0].toByteArray)
  have one₂ := one_of_single made₂ outputs₂ (t := t₂) rfl
  let s₂ : Session := { s₁.note .debug (assemble chunksTo "b/x.s" s₁).remarks with tree := t₂ }
  have ran : run chunksTo ["a/x.s", "b/x.s"] namesakes = finish ["a/x.s", "b/x.s"]
      [.ok (.built ["out/x.main.scd"] 1), .ok (.built ["out/x.main.scd"] 2)] s₂ := by
    rw [run_eq_finish, prepared]
    simp only [each, one₁]
    rw [one₂]
    rfl
  refine ⟨_, ran, rfl, first, fun data own read => ?_⟩
  have last : s₂.tree.read "out/x.main.scd" = .ok [2, 0, 0, 0].toByteArray := rfl
  -- What the file is to hold is the chunk of the main procedures.
  obtain ⟨kind, named, path, chunk, joined, rfl⟩ := own
  have main : ∀ kind ∈ Kind.named, "out/x.main.scd" = chunksTo.sectionPath "a/x.s" kind →
      (nopScript 1).ofKind kind = (nopScript 1).procedures := by decide +kernel
  have chunk_eq : Chunk.join ((nopScript 1).procedures.map (·.data)) = .ok [2, 0, 0] := by decide
  rw [main kind named path, chunk_eq] at joined
  cases joined
  have same : [2, 0, 0, 0].toByteArray = [2, 0, 0].toByteArray :=
    Except.ok.inj (last.symm.trans read)
  revert same
  decide

end RoomScript.Build
